import Bgmchain.Common.Types
import Bgmchain.Lib.Hoare

/-! # The memory of a contract and what it costs

`core/vm/memory.go`, `toWordSize` and `memoryGasCost`: a contract pays for its memory when
it grows, the difference of a fee that is quadratic in the number of words. Fees are
`uint64`. The bound on the sizes that are accepted does not keep the square of the number
of words below 2^64. -/
namespace Bgmchain.Vm
open Common List

/-- The errors of the virtual machine. The opcode of an invalid jump destination is left out. -/
inductive VmError where
  | outOfGas
  | codeStoreOutOfGas
  | depth
  | insufficientBalance
  | contractAddressCollision
  | gasUintOverflow
  | writeProtection
  | returnDataOutOfBounds
  | executionReverted
  | maxCodeSizeExceeded
  | invalidOpcode (op : UInt8)
  | stackUnderflow (len required : Nat)
  | stackLimit (len : Nat)
  | invalidJump (pos : Nat)
deriving DecidableEq, Repr

/-- `math.MaxUint64` -/
def maxUint64 : UInt64 := 18446744073709551615

/-- `SafeAdd`, none for an overflow. -/
def safeAdd (x y : UInt64) : Option UInt64 := if maxUint64 - x < y then none else some (x + y)

/-- `SafeMul`, none for an overflow. -/
def safeMul (x y : UInt64) : Option UInt64 :=
  if x = 0 ∨ y = 0 then some 0 else if maxUint64 / x < y then none else some (x * y)

/-- `toWordSize` -/
def toWordSize (size : UInt64) : UInt64 :=
  if maxUint64 - 31 < size then maxUint64 / 32 + 1 else (size + 31) / 32

structure Memory where
  store : Bytes
  lastGasCost : UInt64
deriving DecidableEq

namespace Memory

/-- `NewMemory` -/
def new : Memory := ⟨[], 0⟩

/-- `Len` -/
def len (m : Memory) : UInt64 := .ofNat m.store.length

/-- `Resize` -/
def resize (m : Memory) (size : UInt64) : Memory :=
  if m.len < size then { m with store := m.store ++ List.replicate (size - m.len).toNat 0 } else m

end Memory

/-- `memoryGasCost` -/
def memoryGasCost (mem : Memory) (newMemSize : UInt64) : Except VmError (UInt64 × Memory) :=
  if newMemSize = 0 then .ok (0, mem)
  else if 0xffffffffe0 < newMemSize then .error .gasUintOverflow
  else
    let newMemSizeWords := toWordSize newMemSize
    let newMemSize := newMemSizeWords * 32
    if mem.len < newMemSize then
      let square := newMemSizeWords * newMemSizeWords
      let linCoef := newMemSizeWords * 3
      let quadCoef := square / 512
      let newTotalFee := linCoef + quadCoef
      .ok (newTotalFee - mem.lastGasCost, { mem with lastGasCost := newTotalFee })
    else .ok (0, mem)

/-- How `Run` makes the size that an operation asks for a whole number of words. -/
def memorySizeOf (memSize : Nat) : Except VmError UInt64 :=
  if 2 ^ 64 ≤ memSize then .error .gasUintOverflow
  else
    match safeMul (toWordSize (.ofNat memSize)) 32 with
    | none => .error .gasUintOverflow
    | some memorySize => .ok memorySize

/-- The memory part of a round of `Run`: the fee, and the memory for the operation. -/
def expand (mem : Memory) (memSize : Nat) : Except VmError (UInt64 × Memory) := do
  let memorySize ← memorySizeOf memSize
  let (fee, mem) ← memoryGasCost mem memorySize
  .ok (fee, if 0 < memorySize then mem.resize memorySize else mem)

/-! ## In numbers -/

theorem toNat_maxUint64 : maxUint64.toNat = 2 ^ 64 - 1 := rfl

theorem toNat_toWordSize (size : UInt64) : (toWordSize size).toNat = (size.toNat + 31) / 32 := by
  have hlt := size.toNat_lt
  have hmax : (maxUint64 - 31).toNat = 2 ^ 64 - 32 := rfl
  unfold toWordSize
  split
  next hbig =>
    rw [UInt64.lt_iff_toNat_lt, hmax] at hbig
    have : (maxUint64 / 32 + 1).toNat = 2 ^ 59 := rfl
    omega
  next hsmall =>
    rw [UInt64.lt_iff_toNat_lt, hmax] at hsmall
    simp only [UInt64.toNat_div, UInt64.toNat_add, UInt64.reduceToNat]
    omega

theorem safeMul_eq_some {x y z : UInt64} (h : safeMul x y = some z) : z.toNat = x.toNat * y.toNat := by
  unfold safeMul at h
  split at h
  next hzero =>
    cases h
    rcases hzero with rfl | rfl
    · simp
    · simp
  next hne =>
    split at h
    · cases h
    next hle =>
      cases h
      push Not at hne
      rw [UInt64.lt_iff_toNat_lt, UInt64.toNat_div, toNat_maxUint64, not_lt] at hle
      have hmul := (Nat.mul_le_mul_left x.toNat hle).trans (Nat.mul_div_le _ _)
      rw [UInt64.toNat_mul]
      exact Nat.mod_eq_of_lt (by omega)

variable {memSize : Nat} {m mem mem' : Memory} {size fee : UInt64}

theorem memorySizeOf_eq_ok {memorySize : UInt64} (h : memorySizeOf memSize = .ok memorySize) :
    memorySize.toNat = (memSize + 31) / 32 * 32 := by
  unfold memorySizeOf at h
  split at h
  · cases h
  next hlt =>
    split at h
    · cases h
    next hmul =>
      cases h
      rw [safeMul_eq_some hmul, toNat_toWordSize, UInt64.toNat_ofNat_of_lt' (Nat.lt_of_not_le hlt)]
      rfl

/-- The fee for so many words. -/
def memoryFee (words : Nat) : Nat := 3 * words + words * words / 512

/-- A memory of whole words that has been paid for, small enough for its fee to be computed. -/
structure Memory.Paid (mem : Memory) (words : Nat) : Prop where
  length : mem.store.length = 32 * words
  small : words < 2 ^ 32
  paid : mem.lastGasCost.toNat = memoryFee words

theorem Memory.paid_new : Memory.new.Paid 0 := ⟨rfl, by decide, rfl⟩

theorem Memory.toNat_len (hlt : m.store.length < 2 ^ 64) : m.len.toNat = m.store.length :=
  UInt64.toNat_ofNat_of_lt' hlt

theorem Memory.lastGasCost_resize (m : Memory) (size : UInt64) : (m.resize size).lastGasCost = m.lastGasCost := by
  unfold Memory.resize
  split
  · rfl
  · rfl

theorem Memory.resize_of_le (hlt : m.store.length < 2 ^ 64) (h : size.toNat ≤ m.store.length) :
    m.resize size = m := by
  unfold Memory.resize
  rw [if_neg]
  rw [UInt64.lt_iff_toNat_lt, Memory.toNat_len hlt]
  omega

theorem Memory.length_resize_of_lt (hlt : m.store.length < 2 ^ 64)
    (h : m.store.length < size.toNat) : (m.resize size).store.length = size.toNat := by
  have hlen := Memory.toNat_len hlt
  have hlt' : m.len < size := UInt64.lt_iff_toNat_lt.mpr (by omega)
  unfold Memory.resize
  rw [if_pos hlt', length_append, length_replicate, UInt64.toNat_sub_of_le _ _ (UInt64.le_of_lt hlt'), hlen]
  omega

/-- What `memoryGasCost` does with a whole number of words it accepts. -/
theorem memoryGasCost_eq_ok {words : Nat} (hsize : size.toNat = words * 32)
    (hlt : mem.store.length < 2 ^ 64) (h : memoryGasCost mem size = .ok (fee, mem')) :
    words < 2 ^ 35 ∧ if mem.store.length < words * 32 then mem'.store = mem.store ∧
          mem'.lastGasCost.toNat = 3 * words + words * words % 2 ^ 64 / 512 ∧ fee = mem'.lastGasCost - mem.lastGasCost
      else fee = 0 ∧ mem' = mem := by
  have hlen := Memory.toNat_len hlt
  unfold memoryGasCost at h
  split at h
  next hzero =>
    rw [hzero] at hsize
    cases h
    have : words = 0 := by simpa using hsize.symm
    rw [this]
    exact ⟨by omega, by simp⟩
  · split at h
    · cases h
    next hle =>
      have hmax : (0xffffffffe0 : UInt64).toNat = 0xffffffffe0 := rfl
      rw [UInt64.lt_iff_toNat_lt, hsize, hmax] at hle
      have hwords : words < 2 ^ 35 := by omega
      have hword : (toWordSize size).toNat = words := by
        rw [toNat_toWordSize, hsize]
        omega
      have hround : (toWordSize size * 32).toNat = words * 32 := by
        have h32 : (32 : UInt64).toNat = 32 := rfl
        rw [UInt64.toNat_mul, hword, h32]
        omega
      refine ⟨hwords, ?_⟩
      dsimp only at h
      rw [← hround, ← hlen]
      simp only [← UInt64.lt_iff_toNat_lt]
      split at h
      next hgrow =>
        cases h
        rw [if_pos hgrow]
        refine ⟨rfl, ?_, rfl⟩
        simp only [UInt64.toNat_add, UInt64.toNat_mul, UInt64.toNat_div, hword, UInt64.reduceToNat]
        omega
      next hgrow =>
        cases h
        rw [if_neg hgrow]
        exact ⟨rfl, rfl⟩

/-! ## Expansions -/

/-- One request of a run, with the memory before and after it. -/
structure Expansion where
  memSize : Nat
  before : Memory
  fee : UInt64
  after : Memory

/-- Requests one after the other, until one is refused. -/
def expandAll : Memory → List Nat → Except VmError (List Expansion × Memory)
  | mem, [] => .ok ([], mem)
  | mem, memSize :: sizes => do
    let (fee, mem') ← expand mem memSize
    let (rest, last) ← expandAll mem' sizes
    .ok (⟨memSize, mem, fee, mem'⟩ :: rest, last)

def Memory.words (m : Memory) : Nat := m.store.length / 32

/-- The fee is the difference of the fees of the memories. -/
def Expansion.Exact (e : Expansion) : Prop := (e.fee.toNat : Int) = memoryFee e.after.words - memoryFee e.before.words

/-- No product, sum or difference leaves the range of a `uint64`. -/
def Expansion.NoWrap (e : Expansion) : Prop :=
  e.after.words * e.after.words < 2 ^ 64 ∧ memoryFee e.after.words < 2 ^ 64 ∧
    e.before.lastGasCost.toNat ≤ e.after.lastGasCost.toNat

theorem memoryFee_mono {a b : Nat} (h : a ≤ b) : memoryFee a ≤ memoryFee b := by
  have := Nat.mul_le_mul h h
  unfold memoryFee
  omega

variable {words : Nat}

theorem memoryFee_lt (h : words < 2 ^ 32) : words * words < 2 ^ 64 ∧ memoryFee words < 2 ^ 64 := by
  have hsq : words * words < 2 ^ 32 * 2 ^ 32 := Nat.mul_lt_mul'' h h
  unfold memoryFee
  omega

theorem Memory.Paid.words_eq (h : mem.Paid words) : mem.words = words := by
  unfold Memory.words
  rw [h.length]
  omega

/-- What an expansion makes of a memory that has been paid for. -/
theorem Memory.Paid.expand (hpaid : mem.Paid words) (h : expand mem memSize = .ok (fee, mem')) :
    mem'.words = max words ((memSize + 31) / 32) ∧ mem'.store.length = 32 * mem'.words ∧ (memSize + 31) / 32 < 2 ^ 35 ∧
      if words < (memSize + 31) / 32 then
        mem'.lastGasCost.toNat = 3 * mem'.words + mem'.words * mem'.words % 2 ^ 64 / 512 ∧ fee = mem'.lastGasCost - mem.lastGasCost
      else fee = 0 ∧ mem' = mem := by
  obtain ⟨memorySize, hsize, h⟩ := Lib.Hoare.except_bind_ok_iff.mp h
  obtain ⟨⟨fee', mem1⟩, hcost, h⟩ := Lib.Hoare.except_bind_ok_iff.mp h
  cases h
  have hlength := hpaid.length
  have hsmall := hpaid.small
  have hto := memorySizeOf_eq_ok hsize
  obtain ⟨hwords, hspec⟩ := memoryGasCost_eq_ok hto (by omega) hcost
  have hlt : mem.store.length < 2 ^ 64 := by omega
  by_cases hgrow : words < (memSize + 31) / 32
  · rw [if_pos (by omega)] at hspec
    obtain ⟨hstore, hlast, hfee⟩ := hspec
    have hlength' : (mem1.resize memorySize).store.length = (memSize + 31) / 32 * 32 := by
      rw [Memory.length_resize_of_lt (by rw [hstore]; exact hlt) (by rw [hstore]; omega), hto]
    rw [if_pos (UInt64.lt_iff_toNat_lt.mpr (by rw [hto]; exact Nat.mul_pos (by omega) (by omega))), if_pos hgrow,
      Memory.lastGasCost_resize]
    have hwords' : (mem1.resize memorySize).words = (memSize + 31) / 32 := by
      unfold Memory.words
      omega
    rw [hwords']
    exact ⟨by omega, by omega, hwords, hlast, hfee⟩
  · rw [if_neg (by omega)] at hspec
    obtain ⟨rfl, rfl⟩ := hspec
    have hsame : (if 0 < memorySize then mem1.resize memorySize else mem1) = mem1 := by
      split
      · exact Memory.resize_of_le hlt (by omega)
      · rfl
    rw [hsame, if_neg hgrow, hpaid.words_eq]
    exact ⟨by omega, hlength, hwords, rfl, rfl⟩

/-- **A small expansion costs what it should**, and leaves a memory that has been paid for. -/
theorem Memory.Paid.expand_small (hpaid : mem.Paid words)
    (h : Vm.expand mem memSize = .ok (fee, mem')) (hsmall : (memSize + 31) / 32 < 2 ^ 32) :
    mem'.Paid mem'.words ∧ Expansion.Exact ⟨memSize, mem, fee, mem'⟩ ∧ Expansion.NoWrap ⟨memSize, mem, fee, mem'⟩ := by
  obtain ⟨hwords, hlength, _, hspec⟩ := hpaid.expand h
  have hpaidWords := hpaid.small
  have hsmall : mem'.words < 2 ^ 32 := by omega
  obtain ⟨hsq, hfit⟩ := memoryFee_lt hsmall
  have hmono : memoryFee words ≤ memoryFee mem'.words := memoryFee_mono (by omega)
  unfold Expansion.Exact Expansion.NoWrap
  dsimp only
  rw [hpaid.words_eq]
  split at hspec
  · obtain ⟨hlast, rfl⟩ := hspec
    rw [Nat.mod_eq_of_lt hsq] at hlast
    have hle : mem.lastGasCost ≤ mem'.lastGasCost := by
      rw [UInt64.le_iff_toNat_le, hlast, hpaid.paid]
      exact hmono
    refine ⟨⟨hlength, by omega, hlast⟩, ?_, hsq, hfit, UInt64.le_iff_toNat_le.mp hle⟩
    rw [UInt64.toNat_sub_of_le _ _ hle, hlast, hpaid.paid]
    unfold memoryFee at hmono ⊢
    omega
  · obtain ⟨rfl, rfl⟩ := hspec
    rw [hpaid.words_eq] at hsq hfit ⊢
    exact ⟨hpaid, by simp, hsq, hfit, le_rfl⟩

/-- **A large one does not**: the square of the number of words has wrapped around. -/
theorem Memory.Paid.not_exact (hpaid : mem.Paid words)
    (h : Vm.expand mem memSize = .ok (fee, mem')) (hlarge : 2 ^ 32 ≤ (memSize + 31) / 32) :
    ¬ Expansion.Exact ⟨memSize, mem, fee, mem'⟩ := by
  obtain ⟨hwords, _, hbound, hspec⟩ := hpaid.expand h
  have hpaidWords := hpaid.small
  rw [if_pos (by omega)] at hspec
  obtain ⟨hlast, rfl⟩ := hspec
  unfold Expansion.Exact
  dsimp only
  rw [hpaid.words_eq]
  have hlow : 2 ^ 32 * 2 ^ 32 ≤ mem'.words * mem'.words := Nat.mul_le_mul (by omega) (by omega)
  have hhigh : mem'.words * mem'.words < 2 ^ 35 * 2 ^ 35 := Nat.mul_lt_mul'' (by omega) (by omega)
  have hmono : memoryFee words ≤ memoryFee mem'.words := memoryFee_mono (by omega)
  have hpaidFee := hpaid.paid
  intro hexact
  rw [UInt64.toNat_sub, hlast, hpaidFee] at hexact
  unfold memoryFee at hexact hmono hpaidFee
  omega

/-- **Expansions are charged exactly as long as they stay below 2^32 words.** -/
theorem Memory.Paid.expandAll {sizes : List Nat} :
    ∀ {mem last : Memory} {words : Nat} {run : List Expansion}, mem.Paid words → Vm.expandAll mem sizes = .ok (run, last) →
      ((∀ e ∈ run, e.Exact) → ∀ memSize ∈ sizes, memSize ≤ 0x1fffffffe0) ∧
        ((∀ memSize ∈ sizes, memSize ≤ 0x1fffffffe0) → (∀ e ∈ run, e.Exact ∧ e.NoWrap) ∧
          memoryFee words + (run.map fun e => e.fee.toNat).sum = memoryFee last.words) := by
  induction sizes with
  | nil =>
    intro mem last words run hpaid h
    cases h
    rw [hpaid.words_eq]
    exact ⟨nofun, fun _ => ⟨nofun, rfl⟩⟩
  | cons memSize sizes ih =>
    intro mem last words run hpaid h
    obtain ⟨⟨fee, mem'⟩, hexpand, h⟩ := Lib.Hoare.except_bind_ok_iff.mp h
    obtain ⟨⟨rest, last'⟩, hrest, h⟩ := Lib.Hoare.except_bind_ok_iff.mp h
    cases h
    by_cases hsmall : memSize ≤ 0x1fffffffe0
    · obtain ⟨hpaid', hexact, hnowrap⟩ := hpaid.expand_small hexpand (by omega)
      obtain ⟨hforth, hback⟩ := ih hpaid' hrest
      refine ⟨fun hall m hm => ?_, fun hall => ?_⟩
      · rcases mem_cons.mp hm with rfl | hm
        · exact hsmall
        · exact hforth (fun e he => hall e (mem_cons_of_mem _ he)) m hm
      · obtain ⟨hsteps, hsum⟩ := hback fun m hm => hall m (mem_cons_of_mem _ hm)
        refine ⟨forall_mem_cons.mpr ⟨⟨hexact, hnowrap⟩, hsteps⟩, ?_⟩
        unfold Expansion.Exact at hexact
        rw [hpaid.words_eq] at hexact
        rw [map_cons, sum_cons]
        dsimp only at hexact ⊢
        omega
    · refine ⟨fun hall => ?_, fun hall => absurd (hall memSize mem_cons_self) hsmall⟩
      exact absurd (hall _ mem_cons_self) (hpaid.not_exact hexpand (by omega))

/-- **Memory is charged exactly when no more than 2^32 - 1 words are asked for.** For every
run of requests that are accepted, from a new memory. -/
theorem expansions_exact_iff {sizes : List Nat} {run : List Expansion} {mem : Memory}
    (h : expandAll .new sizes = .ok (run, mem)) :
    (∀ e ∈ run, e.Exact ∧ e.NoWrap) ∧ (run.map fun e => e.fee.toNat).sum = memoryFee mem.words ↔
      ∀ memSize ∈ sizes, memSize ≤ 0x1fffffffe0 := by
  obtain ⟨hforth, hback⟩ := Memory.paid_new.expandAll h
  refine ⟨fun hrun => hforth fun e he => (hrun.1 e he).1, fun hsmall => ?_⟩
  obtain ⟨hsteps, hsum⟩ := hback hsmall
  exact ⟨hsteps, by simpa [memoryFee] using hsum⟩

theorem two_expansions_exact :
    ∃ run mem, expandAll .new [1, 70] = .ok (run, mem) ∧ run.map (fun e => e.fee) = [3, 6] ∧
      (run.map fun e => e.fee.toNat).sum = memoryFee mem.words := by
  obtain ⟨⟨run, mem⟩, hrun⟩ : ∃ r, expandAll .new [1, 70] = .ok r := ⟨_, rfl⟩
  refine ⟨run, mem, hrun, ?_, ?_⟩
  · cases hrun
    rfl
  · exact ((expansions_exact_iff hrun).mpr (by decide)).2

/-- The fee for 2^32 words lacks the quadratic part. -/
theorem large_memory_undercharged : memoryGasCost .new 0x2000000000 = .ok (0x300000000, ⟨[], 0x300000000⟩) ∧
      memoryFee (2 ^ 32) = 0x300000000 + 2 ^ 55 := by
  exact ⟨by decide, by decide⟩

end Bgmchain.Vm
