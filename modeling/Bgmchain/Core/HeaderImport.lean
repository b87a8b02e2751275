import Bgmchain.Consensus.Dpos.Sample
import Bgmchain.Consensus.Dpos.Seal
import Bgmchain.Core.Writes

/-! # Importing headers without blocks

`VerifyHeaders` is told which seals of a batch to check and takes no notice of it,
so a batch of unsigned headers passes, and `InsertHeaderChain` writes it. -/
namespace Bgmchain.Core
open Common List
open Dpos (ChainReader predUint64 verifyHeaders verifyHeader checkSeal WellFormed Follows
  verifyHeader_ok_iff checkSeal_ok_iff Sealed Elected parentOf extraVanity extraSeal timeTooEarly)
open Lib.Hoare (stateAfter)

/-! ## Unsigned headers -/

section
variable [Crypto] {n i : Nat}

/-- A header without a signature and with an empty context. -/
def unsignedHeader (number time : Int) (parentHash : Hash) : Header where
  parentHash := parentHash
  uncleHash := Dpos.uncleHash
  validator := .zero 20
  coinbase := .zero 20
  root := .zero 32
  txHash := .zero 32
  receiptHash := .zero 32
  dposContext := ⟨.zero 32, .zero 32, .zero 32, .zero 32, .zero 32⟩
  bloom := .zero 256
  difficulty := 1
  number := number
  gasLimit := 0
  gasUsed := 0
  time := time
  extra := List.replicate (extraVanity + extraSeal) 0
  mixDigest := .zero 32
  nonce := .zero 8

/-- A chain of unsigned headers, one in every slot. -/
def unsignedChain : Nat → Header
  | 0 => unsignedHeader 0 0 (.zero 32)
  | i + 1 => unsignedHeader (i + 1) (10 * (i + 1)) (unsignedChain i).hash

def unsignedBatch (n : Nat) : List Header := (List.range n).map fun i => unsignedChain (i + 1)

@[simp] theorem unsignedChain_number (i : Nat) : (unsignedChain i).number = i := by
  cases i <;> rfl

@[simp] theorem unsignedChain_time (i : Nat) : (unsignedChain i).time = 10 * i := by
  cases i <;> rfl

theorem unsignedChain_dposContext (i : Nat) :
    (unsignedChain i).dposContext = ⟨.zero 32, .zero 32, .zero 32, .zero 32, .zero 32⟩ := by
  cases i <;> rfl

theorem unsignedBatch_getElem? (h : i < n) : (unsignedBatch n)[i]? = some (unsignedChain (i + 1)) := by
  simp [unsignedBatch, h]

theorem unsignedBatch_take (h : i ≤ n) : (unsignedBatch n).take i = unsignedBatch i := by
  simp [unsignedBatch, ← map_take, take_range, h]

theorem uint64_unsignedChain (h : i < 2 ^ 64) : uint64 (unsignedChain i).number = i := by
  rw [unsignedChain_number, uint64_natCast h]

variable {chain : ChainReader} (hgenesis : chain.getHeader (unsignedChain 0).hash 0 = some (unsignedChain 0))

include hgenesis in
/-- The headers before one in the batch end in its parent, and before the first
comes the genesis header. -/
theorem parentOf_unsignedChain (i : Nat) :
    parentOf chain (unsignedChain (i + 1)) (unsignedBatch i) = some (unsignedChain i) := by
  cases i with
  | zero =>
    have hpred : predUint64 (uint64 (unsignedChain 1).number) = 0 := by
      rw [unsignedChain_number]
      decide
    unfold parentOf
    rw [hpred]
    exact hgenesis
  | succ i => simp [parentOf, unsignedBatch, range_succ]

theorem unsignedChain_follows (i : Nat) : Follows (unsignedChain i) (unsignedChain (i + 1)) where
  hash := rfl
  number := by
    simp only [unsignedChain_number, uint64, predUint64]
    omega
  time := by
    simp only [timeTooEarly, unsignedChain_time, uint64, Dpos.blockInterval, decide_eq_false_iff_not]
    omega

include hgenesis in
/-- `VerifyHeaders` finds nothing wrong with them. -/
theorem verifyHeader_unsignedChain {now : Int} (hfork : chain.config.eip150Block = none) (hnow : 10 * (i + 1) ≤ now) :
    verifyHeader now chain (unsignedChain (i + 1)) (unsignedBatch i) = .ok () := by
  refine verifyHeader_ok_iff.mpr ⟨?_, unsignedChain i, parentOf_unsignedChain hgenesis i,
    unsignedChain_follows i⟩
  refine ⟨?_, ?_, rfl, rfl, rfl, ?_⟩
  · simpa using hnow
  · simp [unsignedChain, unsignedHeader]
  · simp [Dpos.verifyForkHashes, hfork]

omit [Crypto] in
/-- No one is elected by an empty context. -/
theorem not_elected_zero (db : NodeDatabase) (validators : List Address) :
    ¬ Elected db ⟨.zero 32, .zero 32, .zero 32, .zero 32, .zero 32⟩ validators := by
  intro ⟨d, hd, hv⟩
  cases hd
  have hget := (Trie.holds_empty db epochPrefix).get_fst DposContext.validatorKey
  simp only [DposContext.getValidators] at hv
  rw [hget] at hv
  cases hv

include hgenesis in
/-- So no seal on top of an unsigned header is good. -/
theorem checkSeal_unsignedChain {db : NodeDatabase} (i : Nat) :
    checkSeal db chain (unsignedChain (i + 1)) (unsignedBatch i) ≠ .ok () := by
  intro hok
  obtain ⟨_, parent, hparent, validators, v, helected, _⟩ := checkSeal_ok_iff.mp hok
  rw [parentOf_unsignedChain hgenesis] at hparent
  cases hparent
  rw [unsignedChain_dposContext] at helected
  exact not_elected_zero db validators helected

/-! ## Checking the seals of a batch -/

/-- Where `VerifyHeaders` delivers nil for every header of a batch, the seals that
it was asked to check are good. -/
def ChecksSeals (seals : List Bool) : Prop :=
  ∀ (now : Nat → Int) (chain : ChainReader) (db : NodeDatabase) (headers : List Header),
    headers.length = seals.length → (∀ result ∈ verifyHeaders now chain headers seals, result = none) →
    ∀ i header, seals[i]? = some true → headers[i]? = some header →
      checkSeal db chain header (headers.take i) = .ok ()

include hgenesis in
theorem verifyHeaders_unsignedBatch (n : Nat) (seals : List Bool) (hfork : chain.config.eip150Block = none) :
    ∀ result ∈ verifyHeaders (fun i => 10 * (i + 1)) chain (unsignedBatch n) seals, result = none := by
  intro result hresult
  obtain ⟨i, hi, hres⟩ := mem_map.mp hresult
  have hlt : i < n := by simpa [unsignedBatch] using hi
  rw [unsignedBatch_getElem? hlt, unsignedBatch_take hlt.le] at hres
  simp only [verifyHeader_unsignedChain (i := i) hgenesis hfork le_rfl] at hres
  exact hres.symm

/-- A header chain with the genesis header of the unsigned chain and nothing else. -/
def unsignedGenesis : HeaderChain where
  config := ⟨none, .zero 32, none, none, none, false⟩
  headers h n := if h = (unsignedChain 0).hash ∧ n = 0 then some (unsignedChain 0) else none
  numbers h := if h = (unsignedChain 0).hash then some 0 else none
  tds h n := if h = (unsignedChain 0).hash ∧ n = 0 then some 1 else none
  canonical :=
    { hash? := fun n => if n = 0 then some (unsignedChain 0).hash else none
      top := 0
      above := fun _ hn => if_neg hn.ne' }
  currentHeader := unsignedChain 0

theorem unsignedGenesis_getHeader :
    unsignedGenesis.reader.getHeader (unsignedChain 0).hash 0 = some (unsignedChain 0) :=
  if_pos ⟨rfl, rfl⟩

theorem checksSeals_iff (seals : List Bool) : ChecksSeals seals ↔ true ∉ seals := by
  constructor
  · intro hchecks hmem
    obtain ⟨i, hi⟩ := mem_iff_getElem?.mp hmem
    have hlt : i < seals.length := (List.getElem?_eq_some_iff.mp hi).1
    have hok := hchecks _ unsignedGenesis.reader ⟨fun _ _ => none, 0⟩ (unsignedBatch seals.length)
      (by simp [unsignedBatch])
      (verifyHeaders_unsignedBatch unsignedGenesis_getHeader seals.length seals rfl) i _ hi
      (unsignedBatch_getElem? hlt)
    rw [unsignedBatch_take hlt.le] at hok
    exact checkSeal_unsignedChain unsignedGenesis_getHeader i hok
  · intro hnone now chain db headers _ _ i header hi _
    exact absurd (mem_of_getElem? hi) hnone

/-! ## Writing a batch -/

namespace HeaderChain

variable {hc : HeaderChain}

/-- Writing a header on top of the current one makes it the current one. -/
theorem writeHeader_extend {coin : Bool} {header : Header} {td : Int}
    (hlocal : hc.getTd hc.currentHeader.hash (uint64 hc.currentHeader.number) = some td) (htd : 0 ≤ td)
    (hparent : header.parentHash = hc.currentHeader.hash)
    (hnumber : predUint64 (uint64 header.number) = uint64 hc.currentHeader.number)
    (hdiff : 0 < header.difficulty) (henc : encodable header = .ok ())
    (hcanon : hc.canonical.get (uint64 hc.currentHeader.number) = hc.currentHeader.hash)
    (habove : hc.canonical.get ((uint64 header.number + 1) % 2 ^ 64) = .zero 32) :
    hc.writeHeader coin header = .ok (.canonStatTy,
      { hc.entered header (header.difficulty + td) with
        canonical := hc.canonical.write header.hash (uint64 header.number), currentHeader := header }) := by
  refine writeHeader_ok_iff.mpr ⟨td, td, by rw [hparent, hnumber, hlocal], hlocal, by omega, henc, ?_⟩
  have hpref : prefers coin (header.difficulty + td) td = true := prefers_eq_true.mpr (.inl (by omega))
  rw [if_pos hpref]
  refine ⟨rfl, hc.canonical, ?_, rfl⟩
  have hdelete : hc.canonical.deleteFrom (hc.canonical.top + 1) ((uint64 header.number + 1) % 2 ^ 64) =
      hc.canonical := by
    rw [Canonical.deleteFrom, if_pos habove]
  unfold rewired
  simp only [entered_canonical]
  rw [hdelete, makeCanonical, hparent, hnumber, if_pos hcanon]

/-- The chain ends in the `i`-th unsigned header. -/
structure EndsIn (hc : HeaderChain) (i : Nat) : Prop where
  currentHeader : hc.currentHeader = unsignedChain i
  td : ∃ td, 0 ≤ td ∧ hc.getTd (unsignedChain i).hash i = some td
  canonical : hc.canonical.get i = (unsignedChain i).hash
  above : ∀ n, i < n → hc.canonical.get n = .zero 32
  fresh : ∀ h n, i < n → hc.headers h n = none

theorem EndsIn.genesis : unsignedGenesis.EndsIn 0 where
  currentHeader := rfl
  td := ⟨1, by decide, if_pos ⟨rfl, rfl⟩⟩
  canonical := rfl
  above n hn := by
    unfold Canonical.get unsignedGenesis
    dsimp only
    rw [if_neg (by omega)]
    rfl
  fresh h n hn := if_neg fun hkey => by omega

theorem encodable_unsignedChain (i : Nat) : encodable (unsignedChain (i + 1)) = .ok () := by
  have hnumber : encodeBigInt (unsignedChain (i + 1)).number = some (Lib.Rlp.encodeNat (i + 1)) := rfl
  have htime : encodeBigInt (unsignedChain (i + 1)).time = some (Lib.Rlp.encodeNat (10 * (i + 1))) := rfl
  unfold encodable Header.encode
  rw [hnumber, htime]
  rfl

/-- Each of them can be written on top of the one before. -/
theorem EndsIn.write (h : hc.EndsIn i) (hi : i + 1 < 2 ^ 63) (coin : Bool) :
    ∃ hc', hc.writeHeader coin (unsignedChain (i + 1)) = .ok (.canonStatTy, hc') ∧ hc'.EndsIn (i + 1) ∧
      hc'.hasHeader (unsignedChain (i + 1)).hash (i + 1) = true := by
  obtain ⟨td, htd, hlocal⟩ := h.td
  have hnum := @uint64_unsignedChain _ i (by omega)
  have hnum' := @uint64_unsignedChain _ (i + 1) (by omega)
  have hpred : predUint64 (i + 1) = i := by
    unfold predUint64
    omega
  have hmod : (i + 1 + 1) % 2 ^ 64 = i + 1 + 1 := Nat.mod_eq_of_lt (by omega)
  have hcurrent : hc.getTd hc.currentHeader.hash (uint64 hc.currentHeader.number) = some td := by
    rw [h.currentHeader, hnum, hlocal]
  refine ⟨_, writeHeader_extend hcurrent htd ?_ ?_ ?_ (encodable_unsignedChain i) ?_ ?_, ?_, ?_⟩
  · rw [h.currentHeader]
    rfl
  · rw [h.currentHeader, hnum, hnum', hpred]
  · show (0 : Int) < 1
    decide
  · rw [h.currentHeader, hnum, h.canonical]
  · rw [hnum', hmod, h.above _ (by omega)]
  · refine ⟨rfl, ⟨1 + td, ?_, ?_⟩, ?_, ?_, ?_⟩
    · omega
    · show enterTd _ _ _ _ _ _ = _
      rw [hnum', enterTd_self]
      rfl
    · rw [hnum', Canonical.get_write_self]
    · intro n hn
      rw [hnum', Canonical.get_write_of_ne _ _ (by omega), h.above n (by omega)]
    · intro hash n hn
      show (hc.entered _ _).headers hash n = none
      rw [entered_headers, if_neg fun hkey => by omega, h.fresh hash n (by omega)]
  · show ((hc.entered _ _).headers _ _).isSome = true
    rw [entered_headers, if_pos ⟨rfl, hnum'.symm⟩]
    rfl

/-- One turn of the loop writes one of them. -/
theorem EndsIn.insertLoop_cons {hc' : HeaderChain} (h : hc.EndsIn i) {w : World}
    (hw : w.stopped i = false) (hi : i + 1 < 2 ^ 63)
    (hwrite : hc.writeHeader (w.coin i) (unsignedChain (i + 1)) = .ok (.canonStatTy, hc'))
    (rest : List Header) :
    insertLoop w i (unsignedChain (i + 1) :: rest) hc = insertLoop w (i + 1) rest hc' := by
  have hfresh : hc.hasHeader (unsignedChain (i + 1)).hash (uint64 (unsignedChain (i + 1)).number) =
      false := by
    rw [uint64_unsignedChain (by omega), hasHeader, h.fresh _ _ (by omega)]
    rfl
  rw [insertLoop, if_neg (by rw [hw]; exact Bool.false_ne_true)]
  show (if hc.hasHeader _ _ then insertLoop w (i + 1) rest else _ : EStateM _ _ _) hc = _
  rw [if_neg (by rw [hfresh]; exact Bool.false_ne_true), hwrite]
  rfl

/-- A whole batch of them is written. -/
theorem insertLoop_unsignedChain (w : World) (hw : ∀ i, w.stopped i = false) (n : Nat) :
    ∀ {hc : HeaderChain} {i : Nat}, hc.EndsIn i → i + n + 1 < 2 ^ 63 →
      ∃ hc', insertLoop w i ((List.range' i (n + 1)).map fun k => unsignedChain (k + 1)) hc =
          .ok () hc' ∧ hc'.hasHeader (unsignedChain (i + n + 1)).hash (i + n + 1) = true := by
  induction n with
  | zero =>
    intro hc i h hi
    obtain ⟨hc', hwrite, hends, hhas⟩ := h.write hi (w.coin i)
    exact ⟨hc', h.insertLoop_cons (hw i) hi hwrite [], hhas⟩
  | succ n ih =>
    intro hc i h hi
    obtain ⟨hc1, hwrite, hends, _⟩ := h.write (by omega) (w.coin i)
    obtain ⟨hc', hrest, hhas⟩ := ih hends (by omega)
    refine ⟨hc', ?_, ?_⟩
    · rw [range'_succ, map_cons]
      exact (h.insertLoop_cons (hw i) (by omega) hwrite _).trans hrest
    · rw [show i + (n + 1) + 1 = i + 1 + n + 1 by omega]
      exact hhas

/-! ## Importing a batch -/

/-- A header that a call of `InsertHeaderChain` writes at a place where it asks for
the seal is well sealed. -/
def ImportsSealed (draw : Nat → Nat) (n : Nat) (checkFreq : Int) : Prop :=
  ∀ (w : World) (badHashes : List Hash) (headers : List Header) (hc : HeaderChain) (db : NodeDatabase)
    (seals : List Bool), w.draw = draw → headers.length = n →
    requestedSeals draw n checkFreq = .ok seals →
    ∀ i header, seals[i]? = some true → headers[i]? = some header →
      hc.hasHeader header.hash (uint64 header.number) = false →
      (stateAfter (insertHeaderChain w badHashes headers checkFreq) hc).hasHeader header.hash
        (uint64 header.number) = true →
      checkSeal db hc.reader header (headers.take i) = .ok ()

omit [Crypto] in
/-- The seal of the last header is always asked for. -/
theorem requestedSeals_last (draw : Nat → Nat) {checkFreq : Int} (hn : n ≠ 0) (hfreq : checkFreq ≠ 0) :
    ∃ seals, requestedSeals draw n checkFreq = .ok seals ∧ seals[n - 1]? = some true := by
  have hlength : ∀ (is : List Nat) (seals : List Bool),
      (is.foldl (fun seals i => seals.set (min (i * checkFreq.toNat + draw i) (n - 1)) true)
        seals).length = seals.length := by
    intro is
    induction is with
    | nil => intro seals; rfl
    | cons i is ih => intro seals; rw [foldl_cons, ih, length_set]
  refine ⟨_, if_neg (by simp [hn, hfreq]), ?_⟩
  rw [List.getElem?_set_self]
  rw [hlength, length_replicate]
  omega

theorem nonContiguous_unsignedChain (n : Nat) :
    ∀ i j, nonContiguous j ((List.range' i n).map fun k => unsignedChain (k + 1)) = none := by
  induction n with
  | zero => intro i j; rfl
  | succ n ih =>
    intro i j
    cases n with
    | zero => rfl
    | succ n =>
      have hrest := ih (i + 1) (j + 1)
      rw [range'_succ, map_cons] at hrest ⊢
      rw [range'_succ, map_cons]
      have hnumber : uint64 (unsignedChain (i + 1 + 1)).number =
          (uint64 (unsignedChain (i + 1)).number + 1) % 2 ^ 64 := by
        simp only [unsignedChain_number, uint64]
        omega
      rw [nonContiguous, if_neg]
      · exact hrest
      · intro hor
        rcases hor with hne | hne
        · exact hne hnumber
        · exact hne rfl

/-- Nothing stops a batch in which the engine has found nothing wrong. -/
theorem validateLoop_ok (w : World) (hw : ∀ i, w.interrupted i = false) :
    ∀ (results : List (Header × Option Dpos.Error)) (i : Nat), (∀ r ∈ results, r.2 = none) →
      validateLoop w [] i results = .ok () := by
  intro results
  induction results with
  | nil => intro i _; rfl
  | cons r results ih =>
    intro i hnone
    obtain ⟨header, verified⟩ := r
    cases hnone _ mem_cons_self
    rw [validateLoop, if_neg (by rw [hw]; exact Bool.false_ne_true), if_neg not_mem_nil]
    exact ih (i + 1) fun r hr => hnone r (mem_cons_of_mem _ hr)

/-- A world in which the clock shows the time of each unsigned header and nothing
interrupts the import. -/
def quietWorld (draw : Nat → Nat) : World :=
  ⟨fun i => 10 * (i + 1), draw, fun _ => false, fun _ => false, fun _ => false⟩

/-- `InsertHeaderChain` imports a batch of unsigned headers. -/
theorem insertHeaderChain_unsignedBatch (draw : Nat → Nat) {checkFreq : Int} (hn : n + 1 < 2 ^ 63)
    (hfreq : checkFreq ≠ 0) :
    ∃ hc', insertHeaderChain (quietWorld draw) [] (unsignedBatch (n + 1)) checkFreq unsignedGenesis =
        .ok () hc' ∧ hc'.hasHeader (unsignedChain (n + 1)).hash (n + 1) = true := by
  obtain ⟨seals, hseals, _⟩ := requestedSeals_last draw (Nat.succ_ne_zero n) hfreq
  have hbatch : unsignedBatch (n + 1) = (List.range' 0 (n + 1)).map fun k => unsignedChain (k + 1) := by
    rw [unsignedBatch, range_eq_range']
  have hlength : (unsignedBatch (n + 1)).length = n + 1 := by simp [unsignedBatch]
  have hvalid : unsignedGenesis.validateHeaderChain (quietWorld draw) [] (unsignedBatch (n + 1)) checkFreq =
      .ok () := by
    unfold validateHeaderChain
    rw [hlength, show (quietWorld draw).draw = draw from rfl, hseals, hbatch,
      nonContiguous_unsignedChain, ← hbatch]
    refine validateLoop_ok _ (fun _ => rfl) _ 0 fun r hr => ?_
    exact verifyHeaders_unsignedBatch unsignedGenesis_getHeader (n + 1) seals rfl r.2 (of_mem_zip hr).2
  obtain ⟨hc', hloop, hhas⟩ := insertLoop_unsignedChain (quietWorld draw) (fun _ => rfl) n
    EndsIn.genesis (by omega)
  refine ⟨hc', ?_, by simpa using hhas⟩
  unfold insertHeaderChain
  simp only [bind, EStateM.bind, MonadState.get, getThe, MonadStateOf.get, EStateM.get, hvalid]
  rw [hbatch]
  exact hloop

theorem importsSealed_iff (draw : Nat → Nat) (checkFreq : Int) (hn : n < 2 ^ 63) :
    ImportsSealed draw n checkFreq ↔ n = 0 ∨ checkFreq = 0 := by
  constructor
  · intro hsealed
    by_contra hnot
    obtain ⟨hn0, hfreq⟩ := not_or.mp hnot
    obtain ⟨m, rfl⟩ := Nat.exists_eq_succ_of_ne_zero hn0
    obtain ⟨seals, hseals, hlast⟩ := requestedSeals_last draw hn0 hfreq
    obtain ⟨hc', himport, hhas⟩ := insertHeaderChain_unsignedBatch draw hn hfreq
    have hnumber := @uint64_unsignedChain _ (m + 1) (by omega)
    have hok := hsealed (quietWorld draw) [] (unsignedBatch (m + 1)) unsignedGenesis ⟨fun _ _ => none, 0⟩
      seals rfl (by simp [unsignedBatch]) hseals m (unsignedChain (m + 1)) hlast
      (unsignedBatch_getElem? (Nat.lt_succ_self m)) ?_ ?_
    · rw [unsignedBatch_take (Nat.le_succ m)] at hok
      exact checkSeal_unsignedChain unsignedGenesis_getHeader m hok
    · rw [hnumber, hasHeader, EndsIn.genesis.fresh _ _ (Nat.succ_pos m)]
      rfl
    · rw [hnumber, stateAfter, himport]
      exact hhas
  · intro hor w badHashes headers hc db seals _ _ hseals
    rw [requestedSeals, if_pos hor.symm] at hseals
    cases hseals

/-- **The seals of a batch are checked exactly when none is asked for.** Asked to
check seals, `VerifyHeaders` passes a batch of unsigned headers, and unless it
panics, `InsertHeaderChain` always asks for one and imports such a batch. -/
theorem seals_checked_iff (seals : List Bool) (draw : Nat → Nat) (n : Nat) (checkFreq : Int) (hn : n < 2 ^ 63) :
    (ChecksSeals seals ↔ true ∉ seals) ∧ (ImportsSealed draw n checkFreq ↔ n = 0 ∨ checkFreq = 0) :=
  ⟨checksSeals_iff seals, importsSealed_iff draw checkFreq hn⟩

end HeaderChain

end

/-! ## One unsigned header -/

section
open Dpos.Sample HeaderChain

theorem seals_checked_iff_one : (1 : Nat) < 2 ^ 63 ∧ ((ChecksSeals [true] ↔ true ∉ [true]) ∧
    (ImportsSealed (fun _ => 0) 1 1 ↔ (1 : Nat) = 0 ∨ (1 : Int) = 0)) :=
  ⟨by decide, seals_checked_iff [true] (fun _ => 0) 1 1 (by decide)⟩

/-- The seal of the only header is asked for, the header has none, the engine finds
nothing wrong with it, and it is imported. -/
theorem unsigned_header_imported : requestedSeals (fun _ => 0) 1 1 = .ok [true] ∧
      verifyHeaders (fun i => 10 * (i + 1)) unsignedGenesis.reader (unsignedBatch 1) [true] = [none] ∧
      checkSeal nodes unsignedGenesis.reader (unsignedChain 1) [] ≠ .ok () ∧
      (stateAfter (insertHeaderChain (quietWorld fun _ => 0) [] (unsignedBatch 1) 1)
        unsignedGenesis).hasHeader (unsignedChain 1).hash 1 = true := by
  refine ⟨rfl, ?_, checkSeal_unsignedChain unsignedGenesis_getHeader 0, ?_⟩
  · have hnone := verifyHeaders_unsignedBatch unsignedGenesis_getHeader 1 [true] rfl
    exact eq_replicate_iff.mpr ⟨rfl, hnone⟩
  · have hfreq : (1 : Int) ≠ 0 := by decide
    obtain ⟨hc', himport, hhas⟩ := insertHeaderChain_unsignedBatch (fun _ => 0) (n := 0) (by decide) hfreq
    rw [stateAfter, himport]
    exact hhas

end

end Bgmchain.Core
