import Bgmchain.Downloader.Queue
import Bgmchain.Les.OdrRequests

/-! # A header commits to its content

The roots in a header leave room for one body and one list of receipts: the trie keeps
what was put into it, the keys of different indexes differ, and the encodings of
transactions, headers and receipts can be read back. -/
namespace Bgmchain.Core
open Common Lib Rlp List Receipt BlockChain

/-! ## Lists of encodings -/

variable {α β : Type} {f : α → Option β} {ys : List β} {l : List α}

theorem mapM_eq_some_iff : l.mapM f = some ys ↔ l.map f = ys.map some := by
  induction l generalizing ys with
  | nil => cases ys <;> simp
  | cons a l ih => cases ys <;> simp [Option.bind_eq_some_iff, ih]

theorem mapM_inj {l' : List α} (h : l.mapM f = some ys)
    (h' : l'.mapM f = some ys) (hinj : ∀ y ∈ ys, ∀ a ∈ l, ∀ b ∈ l', f a = some y → f b = some y → a = b) : l = l' := by
  rw [mapM_eq_some_iff] at h h'
  induction ys generalizing l l' with
  | nil => rw [map_eq_nil_iff.mp h, map_eq_nil_iff.mp h']
  | cons y ys ih =>
    obtain ⟨a, l, rfl, ha, hl⟩ := map_eq_cons_iff.mp h
    obtain ⟨b, l', rfl, hb, hl'⟩ := map_eq_cons_iff.mp h'
    rw [hinj y mem_cons_self a mem_cons_self b mem_cons_self ha hb, ih hl hl' fun y hy a ha b hb =>
      hinj y (mem_cons_of_mem _ hy) a (mem_cons_of_mem _ ha) b (mem_cons_of_mem _ hb)]

theorem mem_of_mapM (h : l.mapM f = some ys) : ∀ y ∈ ys, ∃ a ∈ l, f a = some y := by
  intro y hy
  rw [← mem_map, mapM_eq_some_iff.mp h]
  exact mem_map_of_mem hy

theorem mapM_of_isSome (h : ∀ a ∈ l, (f a).isSome) : ∃ ys, l.mapM f = some ys := by
  induction l with
  | nil => exact ⟨[], rfl⟩
  | cons a l ih =>
    obtain ⟨y, hy⟩ := Option.isSome_iff_exists.mp (h a mem_cons_self)
    obtain ⟨ys, hys⟩ := ih fun b hb => h b (mem_cons_of_mem _ hb)
    exact ⟨y :: ys, by simp [hy, hys]⟩

theorem isSome_of_mapM (h : l.mapM f = some ys) : ∀ a ∈ l, (f a).isSome := by
  intro a ha
  obtain ⟨y, -, hy⟩ := mem_map.mp (mapM_eq_some_iff.mp h ▸ mem_map_of_mem (f := f) ha)
  rw [← hy]
  rfl

theorem Transaction.encode_ne_nil {tx : Transaction} {enc : Bytes} (h : tx.encode = some enc) : enc ≠ [] := by
  rw [(Transaction.encode_eq_some h).2]
  exact encodeList_ne_nil _

theorem encode_ne_nil {r : Receipt} {enc : Bytes} (h : r.encode = some enc) : enc ≠ [] := by
  rw [(ReceiptRLP.encode_eq_some h).2]
  exact encodeList_ne_nil _

/-- A transaction leaves its encoding in the trie, or nothing if it has none. -/
theorem entry_transactionRlps (txs : List Transaction) (i : Nat) :
    entry (transactionRlps txs) i = txs[i]?.bind Transaction.encode := by
  unfold entry transactionRlps
  rw [List.getElem?_map]
  cases txs[i]? with
  | none => rfl
  | some tx =>
    cases henc : tx.encode with
    | none => simp [henc]
    | some enc => simp [henc, Transaction.encode_ne_nil henc]

/-! ## Content that was decoded -/

/-- A transaction as decoding makes it. -/
def Transaction.Decoded (tx : Transaction) : Prop :=
  tx.encode.isSome ∧ tx.txType = .ofCode tx.txType.code

/-- A receipt as decoding makes it. -/
def Receipt.Decoded (r : Receipt) : Prop := ∃ dec, ofRLP dec = .ok r

/-- A body as decoding makes it. -/
structure DecodedBody (txs : List Transaction) (uncles : List Header) : Prop where
  transactions : ∀ tx ∈ txs, tx.Decoded
  uncles : ∀ u ∈ uncles, u.encode.isSome

/-- Receipts with the same consensus fields; all of them, once they were decoded. -/
def SameReceipts (rs rs' : List Receipt) : Prop :=
  rs.map toRLP = rs'.map toRLP ∧
    ((∀ r ∈ rs, r.Decoded) → (∀ r ∈ rs', r.Decoded) → rs = rs')

section
variable [Crypto]

/-- The roots of a body are made of these strings. -/
structure BodyRooted (P : Set Bytes) (txs : List Transaction) (uncles : List Header) : Prop where
  transactions : Rooted P (transactionRlps txs)
  uncles : ∀ encs, uncles.mapM Header.encode = some encs → encodeList encs.flatten ∈ P

variable {P : Set Bytes}

theorem transactions_map_eq (hP : Binding P) {txs txs' : List Transaction}
    (h : Rooted P (transactionRlps txs)) (h' : Rooted P (transactionRlps txs'))
    (henc : ∀ tx ∈ txs, tx.encode.isSome) (henc' : ∀ tx ∈ txs', tx.encode.isSome)
    (hsha : deriveSha (transactionRlps txs) = deriveSha (transactionRlps txs')) :
    txs.map Transaction.encode = txs'.map Transaction.encode := by
  apply ext_getElem?
  intro i
  have hentry := deriveSha_entry hP h h' hsha i
  rw [entry_transactionRlps, entry_transactionRlps] at hentry
  rw [List.getElem?_map, List.getElem?_map]
  have hsome : ∀ {txs : List Transaction}, (∀ tx ∈ txs, tx.encode.isSome) →
      txs[i]?.map Transaction.encode = (txs[i]?.bind Transaction.encode).map some := by
    intro txs henc
    cases hi : txs[i]? with
    | none => rfl
    | some tx =>
      obtain ⟨enc, he⟩ := Option.isSome_iff_exists.mp (henc tx (mem_of_getElem? hi))
      simp [he]
  rw [hsome henc, hsome henc', hentry]

/-- **One list of transactions for a root.** -/
theorem transactions_eq (hP : Binding P) {txs txs' : List Transaction}
    (h : Rooted P (transactionRlps txs)) (h' : Rooted P (transactionRlps txs'))
    (hdec : ∀ tx ∈ txs, tx.Decoded) (hdec' : ∀ tx ∈ txs', tx.Decoded)
    (hsha : deriveSha (transactionRlps txs) = deriveSha (transactionRlps txs')) : txs = txs' := by
  have hmap := transactions_map_eq hP h h' (fun tx htx => (hdec tx htx).1) (fun tx htx => (hdec' tx htx).1) hsha
  obtain ⟨encs, hm⟩ := mapM_of_isSome fun tx htx => (hdec tx htx).1
  have hm' := mapM_eq_some_iff.mpr (hmap.symm.trans (mapM_eq_some_iff.mp hm))
  refine mapM_inj hm hm' fun enc _ tx htx tx' htx' henc henc' => ?_
  have hlen : enc.length < 256 ^ 8 := h.size enc (mem_map.mpr ⟨tx, htx, by rw [henc]; rfl⟩)
  obtain ⟨hcode, heq⟩ := Transaction.encode_inj henc henc' hlen
  rw [← heq, (hdec' tx' htx').2, ← hcode, ← (hdec tx htx).2]

/-- **One list of uncles for a hash.** -/
theorem uncles_eq (hP : Distinct P) {uncles uncles' : List Header}
    (h : ∀ encs, uncles.mapM Header.encode = some encs → encodeList encs.flatten ∈ P)
    (h' : ∀ encs, uncles'.mapM Header.encode = some encs → encodeList encs.flatten ∈ P)
    (henc : ∀ u ∈ uncles, u.encode.isSome) (henc' : ∀ u ∈ uncles', u.encode.isSome)
    (hhash : calcUncleHash uncles = calcUncleHash uncles') : uncles = uncles' := by
  obtain ⟨encs, hmap⟩ := mapM_of_isSome henc
  obtain ⟨encs', hmap'⟩ := mapM_of_isSome henc'
  have hmem := h encs hmap
  have hmem' := h' encs' hmap'
  unfold calcUncleHash at hhash
  rw [hmap, hmap'] at hhash
  have hencoded : ∀ {uncles : List Header} {encs : List Bytes}, uncles.mapM Header.encode = some encs →
      ∀ bs ∈ encs, Encoded bs := by
    intro uncles encs hmap bs hbs
    obtain ⟨u, _, hu⟩ := mem_of_mapM hmap bs hbs
    rw [(Header.encode_eq_some hu).2]
    exact encoded_encodeList _
  have heq : encs = encs' := encodeList_flatten_inj (hencoded hmap) (hencoded hmap') (hP.size _ hmem)
    (hP.size _ hmem') (hP.free _ hmem _ hmem' hhash)
  subst heq
  refine mapM_inj hmap hmap' fun enc henc u _ u' _ hu hu' => Header.encode_inj hu hu' ?_
  exact (length_le_of_mem henc).trans_lt (hP.size _ hmem)

/-- **One list of consensus fields for a root of receipts.** -/
theorem receipts_same (hP : Binding P) {rs rs' : List Receipt} {rlps rlps' : List Bytes}
    (hr : receiptRlps rs = some rlps) (hr' : receiptRlps rs' = some rlps') (h : Rooted P rlps)
    (h' : Rooted P rlps') (hsha : deriveSha rlps = deriveSha rlps') : rlps = rlps' ∧ SameReceipts rs rs' := by
  have hne : ∀ {rs : List Receipt} {rlps : List Bytes}, receiptRlps rs = some rlps → [] ∉ rlps := by
    intro rs rlps hr hmem
    obtain ⟨r, _, henc⟩ := mem_of_mapM hr _ hmem
    exact encode_ne_nil henc rfl
  have hrlps := deriveSha_inj hP h h' (hne hr) (hne hr') hsha
  subst hrlps
  have hfields : ∀ {rs : List Receipt}, receiptRlps rs = some rlps →
      (rs.map toRLP).mapM ReceiptRLP.encode = some rlps := by
    intro rs hr
    rw [mapM_map]
    exact hr
  have hsame : rs.map toRLP = rs'.map toRLP :=
    mapM_inj (hfields hr) (hfields hr') fun enc henc a _ b _ ha hb => ReceiptRLP.encode_inj ha hb (h.size enc henc)
  refine ⟨rfl, hsame, ?_⟩
  -- decoding takes the fields back to the receipt
  intro hdec hdec'
  have hback : ∀ {rs : List Receipt}, (∀ r ∈ rs, r.Decoded) →
      (rs.map toRLP).map ofRLP = rs.map Except.ok := by
    intro rs hdec
    rw [map_map]
    refine map_congr_left fun r hr => ?_
    obtain ⟨dec, hr⟩ := hdec r hr
    rw [Function.comp_apply, toRLP_ofRLP hr, hr]
  have hok := hback hdec
  rw [hsame, hback hdec'] at hok
  exact (map_injective_iff.mpr (fun a b hab => Except.ok.inj hab) hok).symm

/-- **A header commits to its content.** Lists of transactions or receipts with one
root have the same encodings, item by item, and whatever the download queue or a
request of the light client accepts for one header is one body and one list of receipts. -/
theorem header_commits_to_content {P : Set Bytes} (hP : Binding P) :
    (∀ txs txs', Rooted P (transactionRlps txs) → Rooted P (transactionRlps txs') →
      deriveSha (transactionRlps txs) = deriveSha (transactionRlps txs') →
      (∀ i : Nat, txs[i]?.bind Transaction.encode = txs'[i]?.bind Transaction.encode) ∧
      ((∀ tx ∈ txs, tx.encode.isSome) → (∀ tx ∈ txs', tx.encode.isSome) →
        txs.length = txs'.length ∧ txs.map Transaction.encode = txs'.map Transaction.encode)) ∧
    (∀ rs rs' rlps rlps', receiptRlps rs = some rlps → receiptRlps rs' = some rlps' →
      Rooted P rlps → Rooted P rlps' → deriveSha rlps = deriveSha rlps' →
      rs.length = rs'.length ∧ rlps = rlps' ∧ SameReceipts rs rs') ∧
    (∀ (q q' : Downloader.Queue) header txs uncles txs' uncles', BodyRooted P txs uncles →
      BodyRooted P txs' uncles' → DecodedBody txs uncles → DecodedBody txs' uncles' →
      q.AcceptsBody header txs uncles → q'.AcceptsBody header txs' uncles' → txs = txs' ∧ uncles = uncles') ∧
    (∀ (q q' : Downloader.Queue) header rs rs', (∀ rlps, receiptRlps rs = some rlps → Rooted P rlps) →
      (∀ rlps, receiptRlps rs' = some rlps → Rooted P rlps) → q.AcceptsReceipts header rs →
      q'.AcceptsReceipts header rs' → SameReceipts rs rs') ∧
    (∀ (r r1 r2 : Les.BlockRequest) getHeader b b', BodyRooted P b.transactions b.uncles →
      BodyRooted P b'.transactions b'.uncles → DecodedBody b.transactions b.uncles →
      DecodedBody b'.transactions b'.uncles → r.validate getHeader (.blockBodies [b]) = .ok r1 →
      r.validate getHeader (.blockBodies [b']) = .ok r2 → b = b' ∧ r1 = r2) ∧
    (∀ (r r1 r2 : Les.ReceiptsRequest) getHeader rs rs', (∀ rlps, receiptRlps rs = some rlps → Rooted P rlps) →
      (∀ rlps, receiptRlps rs' = some rlps → Rooted P rlps) →
      r.validate getHeader (.receipts [rs]) = .ok r1 → r.validate getHeader (.receipts [rs']) = .ok r2 →
      SameReceipts rs rs') := by
  have hbody : ∀ {txs uncles txs' uncles'} {header : Header}, BodyRooted P txs uncles →
      BodyRooted P txs' uncles' → DecodedBody txs uncles → DecodedBody txs' uncles' →
      (deriveSha (transactionRlps txs) = header.txHash ∧ calcUncleHash uncles = header.uncleHash) →
      (deriveSha (transactionRlps txs') = header.txHash ∧ calcUncleHash uncles' = header.uncleHash) →
      txs = txs' ∧ uncles = uncles' := by
    intro txs uncles txs' uncles' header h h' hdec hdec' hroots hroots'
    exact ⟨transactions_eq hP h.transactions h'.transactions hdec.transactions hdec'.transactions
        (hroots.1.trans hroots'.1.symm),
      uncles_eq hP.toDistinct h.uncles h'.uncles hdec.uncles hdec'.uncles (hroots.2.trans hroots'.2.symm)⟩
  refine ⟨?_, ?_, ?_, ?_, ?_, ?_⟩
  · intro txs txs' h h' hsha
    constructor
    · intro i
      rw [← entry_transactionRlps, ← entry_transactionRlps]
      exact deriveSha_entry hP h h' hsha i
    · intro henc henc'
      have hmap := transactions_map_eq hP h h' henc henc' hsha
      exact ⟨by simpa using congrArg List.length hmap, hmap⟩
  · intro rs rs' rlps rlps' hr hr' h h' hsha
    obtain ⟨hrlps, hsame⟩ := receipts_same hP hr hr' h h' hsha
    exact ⟨by simpa using congrArg List.length hsame.1, hrlps, hsame⟩
  · intro q q' header txs uncles txs' uncles' h h' hdec hdec' hacc hacc'
    exact hbody h h' hdec hdec' hacc.roots hacc'.roots
  · intro q q' header rs rs' h h' hacc hacc'
    obtain ⟨rlps, hr, hroot⟩ := hacc.root
    obtain ⟨rlps', hr', hroot'⟩ := hacc'.root
    exact (receipts_same hP hr hr' (h rlps hr) (h' rlps' hr') (hroot.trans hroot'.symm)).2
  · intro r r1 r2 getHeader b b' h h' hdec hdec' hok hok'
    obtain ⟨header, body, hheader, hmsg, htx, huncle, henc⟩ := Les.BlockRequest.validate_ok hok
    obtain ⟨header', body', hheader', hmsg', htx', huncle', henc'⟩ := Les.BlockRequest.validate_ok hok'
    cases hmsg
    cases hmsg'
    rw [hheader] at hheader'
    cases hheader'
    obtain ⟨htxs, huncles⟩ := hbody h h' hdec hdec' ⟨htx, huncle⟩ ⟨htx', huncle'⟩
    have hb : b = b' := by
      cases b
      cases b'
      simp only at htxs huncles
      rw [htxs, huncles]
    subst hb
    rw [hok] at hok'
    exact ⟨rfl, Except.ok.inj hok'⟩
  · intro r r1 r2 getHeader rs rs' h h' hok hok'
    obtain ⟨header, rlps, hheader, hmsg, hr, hroot⟩ := Les.ReceiptsRequest.validate_ok hok
    obtain ⟨header', rlps', hheader', hmsg', hr', hroot'⟩ := Les.ReceiptsRequest.validate_ok hok'
    simp only [Les.Msg.receipts.injEq, List.cons.injEq, and_true] at hmsg hmsg'
    rw [hheader] at hheader'
    cases hheader'
    rw [← hmsg] at hr
    rw [← hmsg'] at hr'
    exact (receipts_same hP hr hr' (h rlps hr) (h' rlps' hr') (hroot.trans hroot'.symm)).2

end

/-! ## A block with one payment -/

namespace Payment

/-- The last bytes as hash, but for the string whose hash is the root of the empty trie. -/
scoped instance : Crypto where
  keccak256 b := if b = encodeString [] then emptyRoot else .ofBytes 32 b
  keccak512 b := .ofBytes 64 b
  ecrecover _ _ := none

def payment : Transaction := ⟨.binary, 0, 1, 21000, some (.zero 20), 5, [], 27, 1, 1⟩

def header : Header where
  parentHash := .zero 32
  uncleHash := calcUncleHash []
  validator := .zero 20
  coinbase := .zero 20
  root := .zero 32
  txHash := deriveSha (transactionRlps [payment])
  receiptHash := .zero 32
  dposContext := ⟨.zero 32, .zero 32, .zero 32, .zero 32, .zero 32⟩
  bloom := .zero 256
  difficulty := 1
  number := 1
  gasLimit := 0
  gasUsed := 0
  time := 10
  extra := []
  mixDigest := .zero 32
  nonce := .zero 8

/-- A queue that waits for the body of the block. -/
def queue : Downloader.Queue where
  blocks := ⟨fun _ => none, [], fun _ => some [header], fun _ => false⟩
  receipts := ⟨fun _ => none, [], fun _ => none, fun _ => false⟩
  resultCache := [some ⟨1, header, [], [], []⟩]
  resultOffset := 1

/-- All that is hashed for the body, and the string for the empty trie. -/
def strings : List Bytes :=
  encodeString [] :: encodeList [] :: (deriveTrie (transactionRlps [payment])).preimages

theorem header_commits_to_payment : queue.AcceptsBody header [payment] [] ∧
      ∀ (q : Downloader.Queue) txs uncles, BodyRooted {bs | bs ∈ strings} txs uncles → DecodedBody txs uncles →
        q.AcceptsBody header txs uncles → txs = [payment] ∧ uncles = [] := by
  have hbinding : Binding {bs | bs ∈ strings} := by
    have hfree : ∀ a ∈ strings, ∀ b ∈ strings, Crypto.keccak256 a = Crypto.keccak256 b → a = b := by
      decide +kernel
    have hsize : ∀ bs ∈ strings, bs.length < 256 ^ 8 := by decide +kernel
    exact ⟨⟨hfree, hsize⟩, mem_cons_self, rfl⟩
  have hrooted : BodyRooted {bs | bs ∈ strings} [payment] [] := by
    refine ⟨⟨by decide, by decide +kernel, ?_⟩, ?_⟩
    · intro bs hbs
      exact mem_cons_of_mem _ (mem_cons_of_mem _ hbs)
    · intro encs hencs
      cases hencs
      exact mem_cons_of_mem _ mem_cons_self
  have hdecoded : DecodedBody [payment] [] := by
    constructor
    · intro tx htx
      rw [mem_singleton.mp htx]
      exact ⟨by decide +kernel, rfl⟩
    · intro u hu
      cases hu
  have haccepts : queue.AcceptsBody header [payment] [] := by
    refine ⟨"", [[payment]], [[]], [header], 0, rfl, rfl, rfl, rfl, ?_⟩
    decide +kernel
  refine ⟨haccepts, ?_⟩
  intro q txs uncles h hdec hacc
  obtain ⟨htxs, huncles⟩ := (header_commits_to_content hbinding).2.2.1 queue q header [payment] [] txs uncles
    hrooted h hdecoded hdec haccepts hacc
  exact ⟨htxs.symm, huncles.symm⟩

end Payment

end Bgmchain.Core
