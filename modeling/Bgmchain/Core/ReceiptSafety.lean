import Bgmchain.Core.Content
import Bgmchain.Core.ReceiptChain
import Bgmchain.Core.Sample

/-! # What importing receipts is safe for

What `InsertReceiptChain` stores is always in order: the derived fields fit the block,
and receipts with a falling cumulative gas cannot be encoded. But it panics at the
first block that it comes to with more receipts than transactions, and at the end of an
empty list. -/
namespace Bgmchain.Core
open Common Lib List Receipt

section
variable [Crypto]

/-! ## The derived fields -/

/-- What the receipts of a block should say: each names its transaction, the logs are
numbered through, and the gas adds up. -/
structure Sound (block : FastBlock) (receipts : List Receipt) : Prop where
  names : ∀ (j : Nat) (r : Receipt), receipts[j]? = some r → ∃ tx : Transaction, block.transactions[j]? = some tx ∧ r.txHash = tx.hash
  indexes : (receipts.flatMap logs).map Log.index = List.range (receipts.flatMap logs).length
  gas : ∀ r ∈ receipts, ∃ g, r.gasUsed = some g ∧ 0 ≤ g
  total : (receipts.map (·.gasUsed.getD 0)).sum = (receipts.getLast?.map (·.cumulativeGasUsed)).getD 0

variable {signer : Signer} {block : FastBlock}

theorem setLogsData_index (block : FastBlock) (txHash : Hash) (txIndex : Nat) (logs : List Log) :
    ∀ logIndex, (setLogsData block txHash txIndex logIndex logs).map (·.index) =
      List.range' logIndex logs.length := by
  induction logs with
  | nil => intro logIndex; rfl
  | cons log logs ih =>
    intro logIndex
    rw [setLogsData, map_cons, ih, length_cons, List.range'_succ]

theorem length_setLogsData (block : FastBlock) (txHash : Hash) (txIndex logIndex : Nat) (logs : List Log) :
    (setLogsData block txHash txIndex logIndex logs).length = logs.length := by
  simpa using congrArg length (setLogsData_index block txHash txIndex logs logIndex)

/-- One turn of the loop of `SetReceiptsData`. -/
theorem setReceiptsFrom_cons_eq_some {j : Nat} {previous : Option Int} {logIndex : Nat} {r : Receipt}
    {rs rs' : List Receipt} (h : setReceiptsFrom signer block j previous logIndex (r :: rs) = some rs') :
    ∃ tx rest, block.transactions[j]? = some tx ∧
      setReceiptsFrom signer block (j + 1) (some r.cumulativeGasUsed) (logIndex + r.logs.length) rs = some rest ∧
      rs' = setReceiptData signer block tx j previous logIndex r :: rest := by
  unfold setReceiptsFrom at h
  split at h
  · cases h
  next tx htx =>
    obtain ⟨rest, hrest, heq⟩ := Option.map_eq_some_iff.mp h
    exact ⟨tx, rest, htx, hrest, heq.symm⟩

/-- There must be a transaction for every receipt. -/
theorem setReceiptsFrom_isSome (rs : List Receipt) : ∀ {j : Nat} {previous : Option Int} {logIndex : Nat},
      (setReceiptsFrom signer block j previous logIndex rs).isSome ↔
        rs = [] ∨ j + rs.length ≤ block.transactions.length := by
  induction rs with
  | nil =>
    intro j previous logIndex
    simp [setReceiptsFrom]
  | cons r rs ih =>
    intro j previous logIndex
    rw [setReceiptsFrom]
    cases htx : block.transactions[j]? with
    | none =>
      have := List.getElem?_eq_none_iff.mp htx
      simp
      omega
    | some tx =>
      obtain ⟨hlt, _⟩ := List.getElem?_eq_some_iff.mp htx
      rw [Option.isSome_map, ih, length_cons]
      cases rs with
      | nil | cons r' rs => simp; omega

theorem setReceiptsData_isSome (block : FastBlock) (config : SignerConfig) (receipts : List Receipt) :
    (setReceiptsData config block receipts).isSome ↔ receipts.length ≤ block.transactions.length := by
  rw [setReceiptsData, setReceiptsFrom_isSome, Nat.zero_add]
  cases receipts with
  | nil | cons r rs => simp

/-- What the receipts from `j` on say, after logs and gas that are counted already. -/
structure SoundFrom (block : FastBlock) (j : Nat) (previous : Option Int) (logIndex : Nat) (receipts : List Receipt) : Prop where
  names : ∀ (k : Nat) (r : Receipt), receipts[k]? = some r → ∃ tx : Transaction, block.transactions[j + k]? = some tx ∧ r.txHash = tx.hash
  indexes : (receipts.flatMap logs).map Log.index = List.range' logIndex (receipts.flatMap logs).length
  gas : ∀ r ∈ receipts, ∃ g, r.gasUsed = some g
  total : (receipts.map (·.gasUsed.getD 0)).sum =
    (receipts.getLast?.map (·.cumulativeGasUsed)).getD (previous.getD 0) - previous.getD 0

theorem setReceiptsFrom_sound (rs : List Receipt) :
    ∀ {j : Nat} {previous : Option Int} {logIndex : Nat} {rs' : List Receipt},
      setReceiptsFrom signer block j previous logIndex rs = some rs' → SoundFrom block j previous logIndex rs' := by
  induction rs with
  | nil =>
    intro j previous logIndex rs' h
    cases h
    exact ⟨nofun, rfl, nofun, by simp⟩
  | cons r rs ih =>
    intro j previous logIndex rs' h
    obtain ⟨tx, rest, htx, hrest, rfl⟩ := setReceiptsFrom_cons_eq_some h
    have hnext := ih hrest
    refine ⟨?_, ?_, forall_mem_cons.mpr ⟨⟨_, rfl⟩, hnext.gas⟩, ?_⟩
    · intro k r' hr
      cases k with
      | zero =>
        cases hr
        exact ⟨tx, htx, rfl⟩
      | succ k =>
        obtain ⟨tx', htx', hhash⟩ := hnext.names k r' hr
        exact ⟨tx', by rw [← htx']; congr 1; omega, hhash⟩
    · have hlogs : (setReceiptData signer block tx j previous logIndex r).logs =
          setLogsData block tx.hash j logIndex r.logs := rfl
      rw [flatMap_cons, map_append, length_append, hlogs, setLogsData_index, hnext.indexes,
        length_setLogsData, List.range'_append_1]
    · have hgas : (setReceiptData signer block tx j previous logIndex r).gasUsed.getD 0 =
          r.cumulativeGasUsed - previous.getD 0 := by
        cases previous with
        | none => exact (Int.sub_zero _).symm
        | some g => rfl
      rw [map_cons, sum_cons, hgas, hnext.total, List.getLast?_cons]
      cases rest.getLast? with
      | none =>
        show r.cumulativeGasUsed - _ + (r.cumulativeGasUsed - r.cumulativeGasUsed) = r.cumulativeGasUsed - _
        omega
      | some last =>
        simp only [Option.map_some, Option.getD_some]
        omega

/-- **What `SetReceiptsData` makes of receipts that can be stored is in order.** -/
theorem setReceiptsData_sound {config : SignerConfig} {receipts rs : List Receipt} {enc : Bytes}
    (h : setReceiptsData config block receipts = some rs) (henc : encodeReceipts rs = some enc) : Sound block rs := by
  have hfrom := setReceiptsFrom_sound receipts h
  refine ⟨?_, ?_, ?_, ?_⟩
  · intro j r hr
    obtain ⟨tx, htx, hhash⟩ := hfrom.names j r hr
    exact ⟨tx, by rwa [Nat.zero_add] at htx, hhash⟩
  · rw [hfrom.indexes, range_eq_range']
  · intro r hr
    obtain ⟨g, hg⟩ := hfrom.gas r hr
    refine ⟨g, hg, ?_⟩
    -- a negative integer has no encoding
    obtain ⟨items, hitems, _⟩ := Option.map_eq_some_iff.mp henc
    obtain ⟨bs, hbs⟩ := Option.isSome_iff_exists.mp (isSome_of_mapM hitems r hr)
    unfold encodeForStorage at hbs
    simp only [bind, Option.bind_eq_some_iff] at hbs
    obtain ⟨_, _, _, hgas, _⟩ := hbs
    rw [hg] at hgas
    exact (encodeBigInt_eq_some_iff.mp hgas).1
  · have htotal := hfrom.total
    rwa [Option.getD_none, Int.sub_zero] at htotal

/-! ## One block -/

namespace FastChain

variable {bc bc' : FastChain} {i : Nat} {receipts : List Receipt}

/-- The data of a block that is not there can be encoded. -/
def Storable (config : SignerConfig) (block : FastBlock) (receipts : List Receipt) : Prop :=
  ∃ rs, setReceiptsData config block receipts = some rs ∧ block.encodeBody.isSome ∧ (encodeReceipts rs).isSome

theorem receive_of_hasBlock (hheader : bc.hasHeader block) (h : bc.hasBlock block) :
    bc.receive i block receipts = .ok none := by
  unfold receive
  rw [if_neg (not_not.mpr hheader), if_pos h]
  rfl

/-- A block that is not there panics, is refused or goes to the batch. -/
theorem receive_cases (i : Nat) (receipts : List Receipt) (hheader : bc.hasHeader block) (h : ¬ bc.hasBlock block) :
    (block.transactions.length < receipts.length ∧ bc.receive i block receipts = .error .panicked) ∨
    (receipts.length ≤ block.transactions.length ∧ ¬ Storable bc.config block receipts ∧
      ∃ err, err ≠ .panicked ∧ bc.receive i block receipts = .error err) ∨
    (receipts.length ≤ block.transactions.length ∧ Storable bc.config block receipts ∧
      ∃ e, e.block = block ∧ Sound block e.receipts ∧ bc.receive i block receipts = .ok (some e)) := by
  unfold receive
  rw [if_neg (not_not.mpr hheader), if_neg h]
  have hsome := setReceiptsData_isSome block bc.config receipts
  cases hset : setReceiptsData bc.config block receipts with
  | none =>
    rw [hset] at hsome
    exact .inl ⟨by simpa using hsome, rfl⟩
  | some rs =>
    rw [hset] at hsome
    have hle := hsome.mp rfl
    right
    cases hbody : block.encodeBody with
    | none =>
      refine .inl ⟨hle, ?_, .writeBody i, InsertError.noConfusion, rfl⟩
      intro ⟨_, _, hsome', _⟩
      rw [hbody] at hsome'
      cases hsome'
    | some body =>
      dsimp only
      cases henc : encodeReceipts rs with
      | none =>
        refine .inl ⟨hle, ?_, .writeReceipts i, InsertError.noConfusion, rfl⟩
        intro ⟨rs', hset', _, hsome'⟩
        cases hset.symm.trans hset'
        rw [henc] at hsome'
        cases hsome'
      | some encoded =>
        refine .inr ⟨hle, ⟨rs, hset, by rw [hbody]; rfl, by rw [henc]; rfl⟩, _, rfl, ?_, rfl⟩
        exact setReceiptsData_sound hset henc

theorem receive_eq_some {e : Entry} (h : bc.receive i block receipts = .ok (some e)) :
    e.block = block ∧ Sound block e.receipts := by
  by_cases hheader : bc.hasHeader block
  · by_cases hblock : bc.hasBlock block
    · rw [receive_of_hasBlock hheader hblock] at h
      cases h
    · rcases receive_cases i receipts hheader hblock with ⟨_, herr⟩ | ⟨_, _, _, _, herr⟩ | ⟨_, _, e', he, hsound, hok⟩
      · cases h.symm.trans herr
      · cases h.symm.trans herr
      · cases h.symm.trans hok
        exact ⟨he, hsound⟩
  · unfold receive at h
    rw [if_pos hheader] at h
    cases h

/-! ## What is stored -/

/-- Every list of receipts that a chain stores was there before or belongs to a block
of a list, whose body is stored with it, and is in order. -/
def Stores (blocks : List FastBlock) (bc bc' : FastChain) : Prop :=
  ∀ h n rs, bc'.receipts h n = some rs → bc.receipts h n = some rs ∨
    ∃ b ∈ blocks, b.hash = h ∧ b.number = n ∧ bc'.bodies h n = some (b.transactions, b.uncles) ∧ Sound b rs

variable {blocks : List FastBlock} {batch : List Entry}

theorem Stores.refl (blocks : List FastBlock) (bc : FastChain) : Stores blocks bc bc :=
  fun _ _ _ h => .inl h

theorem Stores.writeEntry {e : Entry} (h : Stores blocks bc bc') (hmem : e.block ∈ blocks)
    (hsound : Sound e.block e.receipts) : Stores blocks bc (bc'.writeEntry e) := by
  intro hash n rs hrs
  by_cases hkey : hash = e.block.hash ∧ n = e.block.number
  · have hnew : (bc'.writeEntry e).receipts hash n = some e.receipts := if_pos hkey
    cases hrs.symm.trans hnew
    exact .inr ⟨e.block, hmem, hkey.1.symm, hkey.2.symm, if_pos hkey, hsound⟩
  · have hold : (bc'.writeEntry e).receipts hash n = bc'.receipts hash n := if_neg hkey
    rcases h hash n rs (hold.symm.trans hrs) with hbefore | ⟨b, hb, hhash, hnum, hbody, hs⟩
    · exact .inl hbefore
    · exact .inr ⟨b, hb, hhash, hnum, (if_neg hkey).trans hbody, hs⟩

theorem Stores.write (hbatch : ∀ e ∈ batch, e.block ∈ blocks ∧ Sound e.block e.receipts) (h : Stores blocks bc bc') :
    Stores blocks bc (bc'.write batch) :=
  List.foldlRecOn batch FastChain.writeEntry h fun _ h e he => h.writeEntry (hbatch e he).1 (hbatch e he).2

/-! ## The loop -/

/-- What has to be shown for the loop of `InsertReceiptChain`: `I` holds of the blocks
and receipts that are left, the batch and the chain before every turn, and `Q` where the
loop ends. -/
structure LoopInvariant (w : World) (I : List FastBlock → List (List Receipt) → List Entry → FastChain → Prop)
    (Q : LoopEnd → FastChain → Prop) : Prop where
  through : ∀ {more batch bc}, I [] more batch bc → Q (.through batch) bc
  missing : ∀ {block rest batch bc}, I (block :: rest) [] batch bc → Q (.failed .panicked) bc
  interrupted : ∀ {i rest more batch bc}, w.interrupted i → I rest more batch bc → Q .interrupted bc
  failed : ∀ {i block rest receipts more batch bc err}, I (block :: rest) (receipts :: more) batch bc →
    bc.receive i block receipts = .error err → Q (.failed err) bc
  skip : ∀ {i block rest receipts more batch bc}, I (block :: rest) (receipts :: more) batch bc →
    bc.receive i block receipts = .ok none → I rest more batch bc
  take : ∀ {i block rest receipts more batch bc e}, I (block :: rest) (receipts :: more) batch bc →
    bc.receive i block receipts = .ok (some e) → I rest more (batch ++ [e]) bc
  write : ∀ {rest more batch bc}, I rest more batch bc → I rest more [] (bc.write batch)
  database : ∀ {i rest more batch bc}, ¬ w.writeOk i → I rest more batch bc → Q (.failed .database) bc

theorem LoopInvariant.run {w : World} {I : List FastBlock → List (List Receipt) → List Entry → FastChain → Prop}
    {Q : LoopEnd → FastChain → Prop} (h : LoopInvariant w I Q) (rest : List FastBlock) :
    ∀ (i : Nat) (more : List (List Receipt)) (batch : List Entry) {bc : FastChain}, I rest more batch bc →
      Q (receiptsLoop w i rest more batch bc).1 (receiptsLoop w i rest more batch bc).2 := by
  induction rest with
  | nil => exact fun _ _ _ => h.through
  | cons block rest ih =>
    intro i more batch bc hI
    cases more with
    | nil => exact h.missing hI
    | cons receipts more =>
      rw [receiptsLoop]
      by_cases hint : w.interrupted i
      · rw [if_pos hint]
        exact h.interrupted hint hI
      · rw [if_neg hint]
        cases hrec : bc.receive i block receipts with
        | error err => exact h.failed hI hrec
        | ok o =>
          cases o with
          | none => exact ih _ _ _ (h.skip hI hrec)
          | some e =>
            have htake := h.take hI hrec
            dsimp only
            by_cases hsize : batchSize (batch ++ [e]) < idealBatchSize
            · rw [if_pos hsize]
              exact ih _ _ _ htake
            · rw [if_neg hsize]
              by_cases hok : w.writeOk i
              · rw [if_pos hok]
                exact ih _ _ _ (h.write htake)
              · rw [if_neg hok]
                exact h.database hok htake

/-- What waits in the batch belongs to the blocks and is in order. -/
def Waits (blocks : List FastBlock) (batch : List Entry) : Prop :=
  ∀ e ∈ batch, e.block ∈ blocks ∧ Sound e.block e.receipts

/-- The loop keeps what is stored, and what waits in the batch, in order. -/
theorem receiptsLoop_stores (w : World) (blocks : List FastBlock) (bc : FastChain) :
    LoopInvariant w (fun rest _ batch bc' => (∀ b ∈ rest, b ∈ blocks) ∧ Waits blocks batch ∧ Stores blocks bc bc')
      (fun last bc' => Stores blocks bc bc' ∧ ∀ batch, last = .through batch → Waits blocks batch) where
  through := by
    intro _ batch bc' ⟨_, hbatch, h⟩
    refine ⟨h, ?_⟩
    intro batch' heq
    cases heq
    exact hbatch
  missing := fun ⟨_, _, h⟩ => ⟨h, nofun⟩
  interrupted := fun _ ⟨_, _, h⟩ => ⟨h, nofun⟩
  failed := fun ⟨_, _, h⟩ _ => ⟨h, nofun⟩
  skip := fun ⟨hrest, hbatch, h⟩ _ => ⟨fun b hb => hrest b (.tail _ hb), hbatch, h⟩
  take := by
    intro _ _ _ _ _ batch bc' e ⟨hrest, hbatch, h⟩ hrec
    obtain ⟨rfl, hsound⟩ := receive_eq_some hrec
    refine ⟨fun b hb => hrest b (.tail _ hb), ?_, h⟩
    intro e' he'
    rcases mem_append.mp he' with he' | he'
    · exact hbatch e' he'
    · cases mem_singleton.mp he'
      exact ⟨hrest _ (.head _), hsound⟩
  write := fun ⟨hrest, hbatch, h⟩ => ⟨hrest, nofun, h.write hbatch⟩
  database := fun _ ⟨_, _, h⟩ => ⟨h, nofun⟩

/-! ## Where it panics -/

/-- The end of an import finds what it reads: a last block and, if that one has a total
difficulty, the one of the head. -/
def Settles (bc : FastChain) (blockChain : List FastBlock) : Prop :=
  ∃ head, blockChain.getLast? = some head ∧
    ((bc.hc.getTd head.hash head.number).isSome →
      (bc.hc.getTd bc.currentFastBlock.hash bc.currentFastBlock.number).isSome)

theorem updateFastBlock_cases (bc : FastChain) (blockChain : List FastBlock) :
    (¬ bc.Settles blockChain ∧ bc.updateFastBlock blockChain = .error .panicked) ∨
    (bc.Settles blockChain ∧ ∃ bc', bc.updateFastBlock blockChain = .ok bc' ∧
      bc'.receipts = bc.receipts ∧ bc'.bodies = bc.bodies) := by
  unfold updateFastBlock Settles
  cases hlast : blockChain.getLast? with
  | none => exact .inl ⟨fun ⟨_, hhead, _⟩ => (nomatch hhead), rfl⟩
  | some head =>
    dsimp only
    cases htd : bc.hc.getTd head.hash head.number with
    | none => exact .inr ⟨⟨head, rfl, fun hsome => by rw [htd] at hsome; cases hsome⟩, bc, rfl, rfl, rfl⟩
    | some td =>
      cases hlocal : bc.hc.getTd bc.currentFastBlock.hash bc.currentFastBlock.number with
      | none =>
        refine .inl ⟨?_, rfl⟩
        intro ⟨head', heq, himp⟩
        cases heq
        cases himp (by rw [htd]; rfl)
      | some localTd =>
        refine .inr ⟨⟨head, rfl, fun _ => rfl⟩, _, rfl, ?_⟩
        split <;> exact ⟨rfl, rfl⟩

/-- There is a transaction for every receipt of the blocks that the loop comes to: of
those that are not stored, up to the first that cannot be encoded. If there is none of
these, `last` holds. -/
def Fits (bc : FastChain) (last : Prop) : List FastBlock → List (List Receipt) → Prop
  | [], _ => last
  | _ :: _, [] => False
  | block :: rest, receipts :: more =>
    if bc.hasBlock block then Fits bc last rest more
    else receipts.length ≤ block.transactions.length ∧
      (Storable bc.config block receipts → Fits bc last rest more)

/-- What the loop has not touched: all that it reads for the blocks that are left. -/
structure Ahead (bc : FastChain) (rest : List FastBlock) (batch : List Entry) (bc' : FastChain) : Prop where
  hc : bc'.hc = bc.hc
  config : bc'.config = bc.config
  currentFastBlock : bc'.currentFastBlock = bc.currentFastBlock
  hasBlock : ∀ b ∈ rest, bc'.hasBlock b = bc.hasBlock b
  headers : ∀ b ∈ rest, bc'.hasHeader b
  distinct : rest.Pairwise (fun a b => a.number ≠ b.number)
  fresh : ∀ e ∈ batch, ∀ b ∈ rest, e.block.number ≠ b.number

namespace Ahead

variable {rest : List FastBlock}

theorem skip (h : Ahead bc (block :: rest) batch bc') : Ahead bc rest batch bc' :=
  ⟨h.hc, h.config, h.currentFastBlock, fun b hb => h.hasBlock b (.tail _ hb), fun b hb => h.headers b (.tail _ hb),
    (pairwise_cons.mp h.distinct).2, fun e he b hb => h.fresh e he b (.tail _ hb)⟩

theorem take {e : Entry} (h : Ahead bc (e.block :: rest) batch bc') : Ahead bc rest (batch ++ [e]) bc' := by
  refine { h.skip with fresh := ?_ }
  intro e' he' b hb
  rcases mem_append.mp he' with he' | he'
  · exact h.skip.fresh e' he' b hb
  · cases mem_singleton.mp he'
    exact (pairwise_cons.mp h.distinct).1 b hb

theorem writeEntry {e : Entry} (h : Ahead bc rest [] bc') (hne : ∀ b ∈ rest, e.block.number ≠ b.number) :
    Ahead bc rest [] (bc'.writeEntry e) := by
  refine { h with hasBlock := ?_ }
  intro b hb
  exact (congrArg Option.isSome (if_neg fun hkey => hne b hb hkey.2.symm)).trans (h.hasBlock b hb)

theorem write (h : Ahead bc rest batch bc') : Ahead bc rest [] (bc'.write batch) :=
  List.foldlRecOn batch FastChain.writeEntry { h with fresh := nofun } fun _ h' e he => h'.writeEntry (h.fresh e he)

theorem settles_iff (h : Ahead bc rest batch bc') (blockChain : List FastBlock) :
    bc'.Settles blockChain ↔ bc.Settles blockChain := by
  rw [Settles, Settles, h.hc, h.currentFastBlock]

end Ahead

/-- What a turn of the loop shows about the blocks that are left. -/
theorem Fits.receive {last : Prop} {rest : List FastBlock} {more : List (List Receipt)}
    (h : Ahead bc (block :: rest) batch bc') :
    (bc'.receive i block receipts = .error .panicked ∧ ¬ bc.Fits last (block :: rest) (receipts :: more)) ∨
    (∃ err, err ≠ .panicked ∧ bc'.receive i block receipts = .error err ∧
      bc.Fits last (block :: rest) (receipts :: more)) ∨ (∃ o, bc'.receive i block receipts = .ok o ∧
      (bc.Fits last (block :: rest) (receipts :: more) ↔ bc.Fits last rest more)) := by
  have hheader := h.headers block (.head _)
  rw [Fits, ← h.hasBlock block (.head _)]
  by_cases hblock : bc'.hasBlock block
  · refine .inr (.inr ⟨none, receive_of_hasBlock hheader hblock, ?_⟩)
    rw [if_pos hblock]
  · rw [if_neg hblock]
    rcases receive_cases i receipts hheader hblock with ⟨hlt, heq⟩ | ⟨hle, hnot, err, hne, heq⟩ | ⟨hle, hst, e, _, _, heq⟩
    · exact .inl ⟨heq, fun hfits => absurd hfits.1 (by omega)⟩
    · rw [h.config] at hnot
      exact .inr (.inl ⟨err, hne, heq, hle, fun hst => absurd hst hnot⟩)
    · rw [h.config] at hst
      exact .inr (.inr ⟨some e, heq, fun hfits => hfits.2 hst, fun hfits => ⟨hle, fun _ => hfits⟩⟩)

theorem Fits.of_receive {last : Prop} {rest : List FastBlock} {more : List (List Receipt)} {o : Option Entry}
    (h : Ahead bc (block :: rest) batch bc') (hrec : bc'.receive i block receipts = .ok o) :
    bc.Fits last (block :: rest) (receipts :: more) ↔ bc.Fits last rest more := by
  rcases Fits.receive h with ⟨hrec', _⟩ | ⟨_, _, hrec', _⟩ | ⟨_, _, hiff⟩
  · cases hrec.symm.trans hrec'
  · cases hrec.symm.trans hrec'
  · exact hiff

/-- A world that lets an import come to its end. -/
def calm : World := ⟨fun _ => false, fun _ => true⟩

/-- A loop panics only for a receipt too many, and one that nothing stops does panic for it. Whether there is one is
the same before every turn. -/
theorem receiptsLoop_fits (w : World) (bc : FastChain) (last fits : Prop) :
    LoopInvariant w (fun rest more batch bc' => Ahead bc rest batch bc' ∧ (bc.Fits last rest more ↔ fits))
      (fun loopEnd bc' => match loopEnd with
        | .through batch => Ahead bc [] batch bc' ∧ (last ↔ fits)
        | .failed .panicked => ¬ fits
        | _ => w = calm → fits) where
  through := fun h => h
  missing := fun ⟨_, hfits⟩ => hfits.mpr
  interrupted := by
    rintro _ _ _ _ _ hint - rfl
    cases hint
  failed := by
    intro _ _ _ _ _ _ _ err ⟨hahead, hfits⟩ hrec
    rcases Fits.receive hahead with ⟨hrec', hnot⟩ | ⟨err, hne, hrec', hfit⟩ | ⟨_, hrec', _⟩
    · cases hrec.symm.trans hrec'
      exact fun h => hnot (hfits.mpr h)
    · cases hrec.symm.trans hrec'
      cases err with
      | panicked => exact absurd rfl hne
      | _ => exact fun _ => hfits.mp hfit
    · cases hrec.symm.trans hrec'
  skip := by
    intro _ _ _ _ _ _ _ ⟨hahead, hfits⟩ hrec
    exact ⟨hahead.skip, (Fits.of_receive hahead hrec).symm.trans hfits⟩
  take := by
    intro _ _ _ _ _ _ _ e ⟨hahead, hfits⟩ hrec
    obtain ⟨rfl, _⟩ := receive_eq_some hrec
    exact ⟨hahead.take, (Fits.of_receive hahead hrec).symm.trans hfits⟩
  write := fun ⟨hahead, hfits⟩ => ⟨hahead.write, hfits⟩
  database := by
    rintro _ _ _ _ _ hok - rfl
    exact absurd rfl hok

/-! ## Contiguous blocks -/

omit [Crypto] in
theorem number_lt (b : FastBlock) : b.number < 2 ^ 64 := by
  unfold FastBlock.number uint64
  omega

/-- The numbers of contiguous blocks count up from the first, modulo `2 ^ 64`. -/
theorem number_of_contiguous (rest : List FastBlock) :
    ∀ {i : Nat} {a : FastBlock}, nonContiguous i (a :: rest) = none →
      ∀ (k : Nat) (b : FastBlock), (a :: rest)[k]? = some b → b.number = (a.number + k) % 2 ^ 64 := by
  induction rest with
  | nil =>
    intro i a _ k b hb
    have hlt := number_lt a
    cases k with
    | zero =>
      cases hb
      omega
    | succ k => cases hb
  | cons c rest ih =>
    intro i a hcont k b hb
    rw [nonContiguous] at hcont
    split at hcont
    · cases hcont
    next hfollows =>
      have hnext : c.number = (a.number + 1) % 2 ^ 64 := by
        by_contra hne
        exact hfollows (.inl hne)
      have hlt := number_lt a
      cases k with
      | zero =>
        cases hb
        omega
      | succ k =>
        have hnum := ih hcont k b hb
        omega

/-- No two blocks of a contiguous list that fits in memory have the same number. -/
theorem distinct_of_contiguous {blocks : List FastBlock} (hcont : nonContiguous 0 blocks = none)
    (hlen : blocks.length < 2 ^ 63) : blocks.Pairwise (fun a b => a.number ≠ b.number) := by
  cases blocks with
  | nil => exact .nil
  | cons a rest =>
    rw [pairwise_iff_getElem]
    intro i j hi hj hij heq
    have h1 := number_of_contiguous rest hcont i _ (List.getElem?_eq_getElem hi)
    have h2 := number_of_contiguous rest hcont j _ (List.getElem?_eq_getElem hj)
    omega

/-! ## The whole import -/

/-- An import does not panic and stores only what is in order. -/
def Safe (w : World) (blockChain : List FastBlock) (receiptChain : List (List Receipt)) (bc : FastChain) : Prop :=
  (insertReceiptChain w blockChain receiptChain bc).1 ≠ .error .panicked ∧
    Stores blockChain bc (insertReceiptChain w blockChain receiptChain bc).2

/-- What an import stores is in order, whatever the receipts and however it ends. -/
theorem insertReceiptChain_stores (w : World) (blockChain : List FastBlock) (receiptChain : List (List Receipt))
    (bc : FastChain) : Stores blockChain bc (insertReceiptChain w blockChain receiptChain bc).2 := by
  unfold insertReceiptChain
  cases nonContiguous 0 blockChain with
  | some i => exact .refl blockChain bc
  | none =>
    have hloop := (receiptsLoop_stores w blockChain bc).run blockChain 0 receiptChain []
      ⟨fun _ hb => hb, nofun, .refl blockChain bc⟩
    cases hrun : receiptsLoop w 0 blockChain receiptChain [] bc with
    | mk loopEnd bc' =>
      rw [hrun] at hloop
      obtain ⟨hstores, hbatch⟩ := hloop
      cases loopEnd with
      | interrupted | failed err => exact hstores
      | through batch =>
        dsimp only
        split
        · exact hstores
        · have hwritten := hstores.write (hbatch batch rfl)
          rcases updateFastBlock_cases (bc'.write batch) blockChain with ⟨_, heq⟩ | ⟨_, bc'', heq, hreceipts, hbodies⟩
          · rw [heq]
            exact hwritten
          · rw [heq]
            intro h n rs hrs
            rw [hreceipts] at hrs
            rw [hbodies]
            exact hwritten h n rs hrs

/-- **An import is safe exactly if the blocks that it comes to have a transaction for
every receipt**, and its end finds what it reads. -/
theorem insertReceiptChain_safe_iff (bc : FastChain) (blockChain : List FastBlock) (receiptChain : List (List Receipt))
    (hcont : nonContiguous 0 blockChain = none) (hheaders : ∀ b ∈ blockChain, bc.hasHeader b)
    (hlen : blockChain.length < 2 ^ 63) :
    (∀ w, Safe w blockChain receiptChain bc) ↔ bc.Fits (bc.Settles blockChain) blockChain receiptChain := by
  have hahead : Ahead bc blockChain [] bc :=
    ⟨rfl, rfl, rfl, fun _ _ => rfl, hheaders, distinct_of_contiguous hcont hlen, nofun⟩
  suffices h : ∀ w, ((insertReceiptChain w blockChain receiptChain bc).1 = .error .panicked →
      ¬ bc.Fits (bc.Settles blockChain) blockChain receiptChain) ∧ (w = calm →
      ¬ bc.Fits (bc.Settles blockChain) blockChain receiptChain →
        (insertReceiptChain w blockChain receiptChain bc).1 = .error .panicked) by
    refine ⟨fun hsafe => ?_, fun hfits w => ⟨fun hpanics => (h w).1 hpanics hfits, insertReceiptChain_stores w _ _ bc⟩⟩
    by_contra hnot
    exact (hsafe calm).1 ((h calm).2 rfl hnot)
  intro w
  have hloop := (receiptsLoop_fits w bc (bc.Settles blockChain) _).run blockChain 0 receiptChain [] ⟨hahead, Iff.rfl⟩
  unfold insertReceiptChain
  rw [hcont]
  rcases hrun : receiptsLoop w 0 blockChain receiptChain [] bc with ⟨_ | err | batch, bc'⟩
  all_goals rw [hrun] at hloop
  · exact ⟨nofun, fun hw hnot => absurd (hloop hw) hnot⟩
  · cases err with
    | panicked => exact ⟨fun _ => hloop, fun _ _ => rfl⟩
    | _ => exact ⟨nofun, fun hw hnot => absurd (hloop hw) hnot⟩
  · obtain ⟨hahead', hiff⟩ := hloop
    have hsettles := hahead'.write.settles_iff blockChain
    dsimp only
    split
    next hfails =>
      exact ⟨nofun, fun hw => absurd (by rw [hw]; rfl) hfails.2⟩
    · rcases updateFastBlock_cases (bc'.write batch) blockChain with ⟨hnot, heq⟩ | ⟨hset, _, heq, _⟩
      · rw [heq]
        exact ⟨fun _ hfits => hnot (hsettles.mpr (hiff.mpr hfits)), fun _ _ => rfl⟩
      · rw [heq]
        exact ⟨nofun, fun _ hnot => absurd (hiff.mp (hsettles.mp hset)) hnot⟩

end FastChain

end

/-! ## A block with one payment, and one without -/

namespace FastSample
open Dpos.Sample Sample

def payment : Transaction := ⟨.binary, 0, 1, 21000, some (.zero 20), 5, [], 27, 1, 1⟩

def receipt : Receipt := { new with cumulativeGasUsed := 21000 }

/-- A block that its header's roots fit, together with the receipts. -/
def block (transactions : List Transaction) (receipts : List Receipt) : FastBlock where
  header :=
    { header 1 10 (address 1) plainGenesis.hash with
      txHash := deriveSha (transactionRlps transactions)
      receiptHash := deriveSha ((receiptRlps receipts).getD []) }
  transactions := transactions
  uncles := []

/-- A chain that has the header of a block, but not its body. -/
def chain (b : FastBlock) : FastChain where
  hc :=
    { plainChain.hc.storeHeader b.header with
      tds := fun h n => if h = b.hash ∧ n = b.number then some 2 else plainChain.hc.getTd h n }
  config := ⟨1, none, none⟩
  bodies h n := if h = plainGenesis.hash ∧ n = 0 then some ([], []) else none
  receipts _ _ := none
  txLookups _ := none
  currentFastBlock := ⟨plainGenesis, [], []⟩

theorem chain_hasHeader (b : FastBlock) : (chain b).hasHeader b :=
  congrArg Option.isSome (if_pos ⟨rfl, rfl⟩)

theorem chain_lacks_block (transactions : List Transaction) (receipts : List Receipt) :
    ¬ (chain (block transactions receipts)).hasBlock (block transactions receipts) := by
  have hnumber : (block transactions receipts).number ≠ 0 := Nat.one_ne_zero
  simp only [FastChain.hasBlock, chain]
  rw [if_neg fun hkey => hnumber hkey.2]
  exact Bool.false_ne_true

theorem chain_headTd (b : FastBlock) :
    ((chain b).hc.getTd (chain b).currentFastBlock.hash (chain b).currentFastBlock.number).isSome := by
  simp only [chain, HeaderChain.getTd]
  by_cases hkey : (FastBlock.mk plainGenesis [] []).hash = b.hash ∧ (FastBlock.mk plainGenesis [] []).number = b.number
  · rw [if_pos hkey]
    rfl
  · rw [if_neg hkey]
    simp only [plainChain, chainOf]
    rw [if_pos ⟨rfl, rfl⟩]
    rfl

theorem block_receiptHash {transactions : List Transaction} {receipts : List Receipt} {rlps : List Bytes}
    (h : receiptRlps receipts = some rlps) : deriveSha rlps = (block transactions receipts).header.receiptHash := by
  simp only [block, h, Option.getD_some]

theorem payment_imported : (chain (block [payment] [receipt])).hasHeader (block [payment] [receipt]) ∧
    ∀ w, FastChain.Safe w [block [payment] [receipt]] [[receipt]] (chain (block [payment] [receipt])) := by
  have hheaders : ∀ b ∈ [block [payment] [receipt]], (chain (block [payment] [receipt])).hasHeader b := by
    intro b hb
    rw [mem_singleton.mp hb]
    exact chain_hasHeader _
  refine ⟨chain_hasHeader _, (FastChain.insertReceiptChain_safe_iff (chain (block [payment] [receipt]))
    [block [payment] [receipt]] [[receipt]] rfl hheaders (by simp)).mpr ?_⟩
  rw [FastChain.Fits, if_neg (chain_lacks_block [payment] [receipt])]
  exact ⟨Nat.le_refl 1, fun _ => ⟨block [payment] [receipt], rfl, fun _ => chain_headTd _⟩⟩

/-- A header whose receipt root has a receipt more than its transaction root has
transactions: both roots fit, and the import panics. -/
theorem receipt_without_transaction : (chain (block [] [receipt])).hasHeader (block [] [receipt]) ∧
      FastChain.nonContiguous 0 [block [] [receipt]] = none ∧
      deriveSha (transactionRlps (block [] [receipt]).transactions) = (block [] [receipt]).header.txHash ∧
      (∃ rlps, receiptRlps [receipt] = some rlps ∧ deriveSha rlps = (block [] [receipt]).header.receiptHash) ∧
      (FastChain.insertReceiptChain FastChain.calm [block [] [receipt]] [[receipt]] (chain (block [] [receipt]))).1 =
        .error .panicked := by
  have hheader := chain_hasHeader (block [] [receipt])
  have hpanics : (chain (block [] [receipt])).receive 0 (block [] [receipt]) [receipt] = .error .panicked := by
    rcases FastChain.receive_cases 0 [receipt] hheader (chain_lacks_block [] [receipt]) with
      ⟨_, heq⟩ | ⟨hle, _⟩ | ⟨hle, _⟩
    · exact heq
    · exact absurd hle (Nat.not_succ_le_zero 0)
    · exact absurd hle (Nat.not_succ_le_zero 0)
  obtain ⟨rlps, hrlps⟩ : ∃ rlps, receiptRlps [receipt] = some rlps := ⟨_, rfl⟩
  refine ⟨hheader, rfl, rfl, ⟨rlps, hrlps, block_receiptHash hrlps⟩, ?_⟩
  have hloop : FastChain.receiptsLoop FastChain.calm 0 [block [] [receipt]] [[receipt]] []
      (chain (block [] [receipt])) = (.failed .panicked, chain (block [] [receipt])) := by
    rw [FastChain.receiptsLoop, hpanics]
    rfl
  have hcont : FastChain.nonContiguous 0 [block [] [receipt]] = none := rfl
  unfold FastChain.insertReceiptChain
  rw [hcont, hloop]

end FastSample

end Bgmchain.Core
