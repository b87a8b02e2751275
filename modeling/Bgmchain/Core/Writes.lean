import Bgmchain.Core.BlockChain
import Bgmchain.Lib.Hoare

/-! # What a write does to the total difficulties

`WriteHeader` and `WriteBlockAndState` enter one total difficulty, that of the
parent plus the header's own, and choose the canonical chain by comparing it with
that of the current header or block. -/
namespace Bgmchain.Core
open Common
open Dpos (predUint64)
open Lib.Hoare (Triple Keeps except_bind_ok_iff)

/-- The total difficulties with one more entry. -/
def enterTd (tds : Hash → Nat → Option Int) (hash : Hash) (number : Nat) (td : Int) :
    Hash → Nat → Option Int :=
  fun h n => if h = hash ∧ n = number then some td else tds h n

variable {number : Nat} {hc hc' : HeaderChain} {coin : Bool}

theorem enterTd_eq_some {tds : Hash → Nat → Option Int} {hash h : Hash} {n : Nat} {td t : Int}
    (ht : enterTd tds hash number td h n = some t) : (h = hash ∧ n = number ∧ t = td) ∨ tds h n = some t := by
  unfold enterTd at ht
  split at ht
  next hkey =>
    exact .inl ⟨hkey.1, hkey.2, (Option.some.inj ht).symm⟩
  · exact .inr ht

theorem enterTd_self (tds : Hash → Nat → Option Int) (hash : Hash) (number : Nat) (td : Int) :
    enterTd tds hash number td hash number = some td := if_pos ⟨rfl, rfl⟩

theorem HeaderChain.writeTd_ok_iff {hash : Hash} {td : Int} :
    hc.writeTd hash number td = .ok hc' ↔
      0 ≤ td ∧ hc' = { hc with tds := enterTd hc.tds hash number td } := by
  unfold writeTd
  by_cases h : td < 0
  · rw [if_pos h]
    exact iff_of_false (by simp) fun hok => not_le.mpr h hok.1
  · rw [if_neg h]
    constructor
    · intro hok
      cases hok
      exact ⟨not_lt.mp h, rfl⟩
    · intro ⟨_, hhc'⟩
      subst hhc'
      rfl

theorem HeaderChain.prefers_eq_true {externTd localTd : Int} :
    prefers coin externTd localTd = true ↔ localTd < externTd ∨ externTd = localTd ∧ coin = true := by
  simp only [prefers, Bool.or_eq_true, Bool.and_eq_true, decide_eq_true_eq, gt_iff_lt]

section
variable [Crypto]

namespace HeaderChain

/-- The chain with a header and its total difficulty, before the fork choice. -/
def entered (hc : HeaderChain) (header : Header) (td : Int) : HeaderChain :=
  ({ hc with tds := enterTd hc.tds header.hash (uint64 header.number) td }).storeHeader header

@[simp] theorem entered_canonical (hc : HeaderChain) (header : Header) (td : Int) :
    (hc.entered header td).canonical = hc.canonical := rfl

theorem entered_headers (hc : HeaderChain) (header : Header) (td : Int) (h : Hash) (n : Nat) :
    (hc.entered header td).headers h n =
      if h = header.hash ∧ n = uint64 header.number then some header else hc.headers h n := rfl

/-- The canonical hashes once the header has been chosen for head. -/
def rewired (hc : HeaderChain) (header : Header) : Except Error Canonical :=
  let number := uint64 header.number
  hc.makeCanonical (number + 2) header.parentHash (predUint64 number)
    (hc.canonical.deleteFrom (hc.canonical.top + 1) ((number + 1) % 2 ^ 64))

/-- What a successful `WriteHeader` has read, entered and chosen. -/
theorem writeHeader_ok_iff {header : Header}
    {status : WriteStatus} :
    hc.writeHeader coin header = .ok (status, hc') ↔
      ∃ ptd localTd, hc.getTd header.parentHash (predUint64 (uint64 header.number)) = some ptd ∧
        hc.getTd hc.currentHeader.hash (uint64 hc.currentHeader.number) = some localTd ∧
        0 ≤ header.difficulty + ptd ∧ encodable header = .ok () ∧
        if prefers coin (header.difficulty + ptd) localTd then
          status = .canonStatTy ∧
            ∃ c, (hc.entered header (header.difficulty + ptd)).rewired header = .ok c ∧
              hc' = { hc.entered header (header.difficulty + ptd) with
                canonical := c.write header.hash (uint64 header.number), currentHeader := header }
        else status = .sideStatTy ∧ hc' = hc.entered header (header.difficulty + ptd) := by
  unfold writeHeader
  dsimp only
  cases hp : hc.getTd header.parentHash (predUint64 (uint64 header.number)) with
  | none => exact iff_of_false (fun h => by cases h) fun ⟨_, _, h, _⟩ => by cases h
  | some ptd =>
    cases hl : hc.getTd hc.currentHeader.hash (uint64 hc.currentHeader.number) with
    | none => exact iff_of_false (fun h => by cases h) fun ⟨_, _, _, h, _⟩ => by cases h
    | some localTd =>
      simp only [except_bind_ok_iff, writeTd_ok_iff]
      constructor
      · intro ⟨hc1, ⟨hnonneg, htd⟩, _, henc, hrest⟩
        subst htd
        refine ⟨ptd, localTd, rfl, rfl, hnonneg, henc, ?_⟩
        split at hrest
        next hpref =>
          rw [if_pos hpref]
          obtain ⟨c, hc, hret⟩ := except_bind_ok_iff.mp hrest
          cases hret
          exact ⟨rfl, c, hc, rfl⟩
        next hpref =>
          rw [if_neg hpref]
          cases hrest
          exact ⟨rfl, rfl⟩
      · intro ⟨ptd', localTd', hp', hl', hnonneg, henc, hrest⟩
        cases hp'
        cases hl'
        refine ⟨_, ⟨hnonneg, rfl⟩, (), henc, ?_⟩
        split at hrest
        next hpref =>
          rw [if_pos hpref]
          obtain ⟨hstatus, c, hc, hhc'⟩ := hrest
          subst hstatus hhc'
          exact except_bind_ok_iff.mpr ⟨c, hc, rfl⟩
        next hpref =>
          rw [if_neg hpref]
          obtain ⟨hstatus, hhc'⟩ := hrest
          subst hstatus hhc'
          rfl

theorem writeHeader_ok {header : Header} {status : WriteStatus}
    (h : hc.writeHeader coin header = .ok (status, hc')) :
    ∃ ptd localTd, hc.getTd header.parentHash (predUint64 (uint64 header.number)) = some ptd ∧
      hc.getTd hc.currentHeader.hash (uint64 hc.currentHeader.number) = some localTd ∧
      hc'.tds = enterTd hc.tds header.hash (uint64 header.number) (header.difficulty + ptd) ∧
      (status = .canonStatTy ↔ prefers coin (header.difficulty + ptd) localTd = true) := by
  obtain ⟨ptd, localTd, hptd, hlocal, _, _, hrest⟩ := writeHeader_ok_iff.mp h
  refine ⟨ptd, localTd, hptd, hlocal, ?_⟩
  split at hrest
  next hpref =>
    obtain ⟨hstatus, c, _, hhc'⟩ := hrest
    subst hhc'
    exact ⟨rfl, iff_of_true hstatus hpref⟩
  next hpref =>
    obtain ⟨hstatus, hhc'⟩ := hrest
    subst hstatus hhc'
    exact ⟨rfl, iff_of_false (by simp) hpref⟩

end HeaderChain

end

theorem BlockChain.prefers_eq_true {externTd localTd : Int} {current : Nat} :
    prefers coin externTd localTd number current = true ↔
      localTd < externTd ∨ externTd = localTd ∧ (number < current ∨ number = current ∧ coin = true) := by
  simp only [prefers, Bool.or_eq_true, Bool.and_eq_true, decide_eq_true_eq, gt_iff_lt]

namespace BlockChain

variable {σ : Type} [Execution σ] [Crypto]

theorem insert_tds (bc : BlockChain σ) (block : Block σ) : (bc.insert block).hc.tds = bc.hc.tds := by
  unfold insert
  dsimp only
  split <;> rfl

omit [Crypto] in
theorem check_keeps {I : BlockChain σ → Prop} {α : Type} (r : Except Error α) :
    Keeps I (check r : Import σ α) := by
  cases r with
  | ok a => exact Keeps.pure a
  | error e => exact Keeps.throw e

/-- `reorg` leaves the total difficulties alone. -/
theorem reorg_keeps_tds (tds : Hash → Nat → Option Int) (oldBlock newBlock : Block σ) :
    Keeps (fun bc => bc.hc.tds = tds) (reorg oldBlock newBlock) := by
  have hfold : ∀ (blocks : List (Block σ)) (bc : BlockChain σ), bc.hc.tds = tds →
      (blocks.foldl (fun bc block => (bc.insert block).writeTxLookupEntries block) bc).hc.tds = tds := by
    intro blocks
    induction blocks with
    | nil => intro bc h; exact h
    | cons block blocks ih => intro bc h; exact ih _ ((insert_tds bc block).trans h)
  refine Keeps.get_bind fun bc => Keeps.bind (check_keeps _) fun chains => ?_
  refine Keeps.bind (Keeps.modify _ fun bc' h => hfold chains.2 bc' h) fun _ => ?_
  exact Keeps.modify _ fun bc' h => h

/-- The batch keeps the total difficulties, and its status is the fork choice. -/
theorem writeBatch_spec (tds : Hash → Nat → Option Int) (canonical : Bool) (block : Block σ)
    (d : DposContext) (state : σ) : Triple (fun bc => bc.hc.tds = tds) (writeBatch canonical block d state)
      (fun status bc' => bc'.hc.tds = tds ∧ (status = .canonStatTy ↔ canonical = true))
      (fun _ bc' => bc'.hc.tds = tds) := by
  refine Triple.bind (check_keeps _) fun _ => Triple.get_bind fun bc hbc => ?_
  refine Triple.conseq (P := fun bc => bc.hc.tds = tds) ?_ (fun s hs => hs ▸ hbc) (fun _ _ h => h)
    fun _ _ h => h
  refine Triple.ite (fun hc => ?_) fun hc => ?_
  · have hwrite : Triple (fun bc => bc.hc.tds = tds)
        ((modify fun bc => (((bc.writeTxLookupEntries block).storeBlock block d state).insert
          block).unqueue block : Import σ Unit) >>= fun _ => pure WriteStatus.canonStatTy)
        (fun status bc' => bc'.hc.tds = tds ∧ (status = .canonStatTy ↔ canonical = true))
        (fun _ bc' => bc'.hc.tds = tds) :=
      fun bc h => ⟨(insert_tds _ block).trans h, iff_of_true rfl hc⟩
    refine Triple.ite (fun _ => Triple.bind (reorg_keeps_tds tds _ _) fun _ => hwrite) fun _ => hwrite
  · exact fun bc h => ⟨h, iff_of_false (by simp) hc⟩

/-- What `WriteBlockAndState` has entered, on success and on failure, and what it
has chosen. -/
theorem writeBlockAndState_spec (coin : Bool) (block : Block σ) (d : DposContext) (state : σ)
    (bc : BlockChain σ) : Triple (· = bc) (writeBlockAndState coin block d state)
      (fun status bc' => ∃ ptd localTd,
        bc.hc.getTd block.header.parentHash (predUint64 block.number) = some ptd ∧
        bc.hc.getTd bc.currentBlock.hash bc.currentBlock.number = some localTd ∧
        bc'.hc.tds = enterTd bc.hc.tds block.hash block.number (block.header.difficulty + ptd) ∧
        (status = .canonStatTy ↔ prefers coin (block.header.difficulty + ptd) localTd block.number
          bc.currentBlock.number = true)) (fun _ bc' => bc'.hc.tds = bc.hc.tds ∨ ∃ ptd,
        bc.hc.getTd block.header.parentHash (predUint64 block.number) = some ptd ∧
        bc'.hc.tds = enterTd bc.hc.tds block.hash block.number (block.header.difficulty + ptd)) := by
  refine Triple.get_bind fun s hs => ?_
  subst hs
  split
  · exact fun s hs => .inl (congrArg (·.hc.tds) hs)
  next ptd hptd =>
    split
    · exact fun s hs => .inl (congrArg (·.hc.tds) hs)
    next localTd hlocal =>
      refine Triple.bind (Q := fun hc1 _ => hc1.tds = enterTd s.hc.tds block.hash block.number
        (block.header.difficulty + ptd)) ?_ fun hc1 => ?_
      · intro s1 hs1
        cases hw : s.hc.writeTd block.hash block.number (block.header.difficulty + ptd) with
        | error e => exact .inl (congrArg (·.hc.tds) hs1)
        | ok hc1 => exact congrArg (·.tds) (HeaderChain.writeTd_ok_iff.mp hw).2
      -- from here on the entry stays, whatever fails
      refine Triple.bind (Q := fun _ (s1 : BlockChain σ) => s1.hc.tds = enterTd s.hc.tds block.hash block.number
        (block.header.difficulty + ptd)) (fun _ h => h) fun _ => ?_
      exact (writeBatch_spec _ _ block d state).conseq (fun _ h => h)
        (fun status s' h => ⟨ptd, localTd, hptd, hlocal, h.1, h.2⟩) fun e s' h => .inr ⟨ptd, hptd, h⟩

end BlockChain

end Bgmchain.Core
