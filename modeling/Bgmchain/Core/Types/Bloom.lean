import Bgmchain.Core.Types.Receipt
import Bgmchain.Lib.RlpHead

/-! # Blooms

`core/types/bloom9.go`: the filter of 2048 bits that a block has for the addresses and topics of
its logs. -/
namespace Bgmchain.Core
open Common Lib Rlp BigEndian Crypto List

abbrev Bloom := FixedBytes 256

/-- `Big` -/
def Bloom.big (b : Bloom) : Nat := decode b.bytes

/-- `BytesToBloom`; none where it panics. -/
def bytesToBloom (b : Bytes) : Option Bloom := if 256 < b.length then none else some (.ofBytes 256 b)

theorem testBit_foldl {α : Type} {step : Nat → α → Nat} {p : α → Bool} {i : Nat}
    (h : ∀ bin x, (step bin x).testBit i = (bin.testBit i || p x)) (l : List α) (bin : Nat) :
    (l.foldl step bin).testBit i = (bin.testBit i || l.any p) := by
  induction l generalizing bin with
  | nil => simp
  | cons x l ih => rw [foldl_cons, ih, h, any_cons, Bool.or_assoc]

theorem testBit_foldl_or {α : Type} (f : α → Nat) (l : List α) (bin i : Nat) :
    (l.foldl (fun bin x => bin ||| f x) bin).testBit i = (bin.testBit i || l.any fun x => (f x).testBit i) :=
  testBit_foldl (fun bin x => Nat.testBit_or bin (f x) i) l bin

theorem decode_ofBytes {n : Nat} {b : Bytes} (h : b.length ≤ n) : decode (FixedBytes.ofBytes n b).bytes = decode b := by
  have hzeros (k : Nat) : decode (replicate k 0 ++ b) = decode b := by
    induction k with
    | zero => rfl
    | succ k ih => exact ih
  show decode (replicate (n - b.length) 0 ++ b.drop (b.length - n)) = _
  rw [Nat.sub_eq_zero_of_le h, drop_zero, hzeros]

section
variable [Crypto]

/-- `bloom9` -/
def bloom9 (b : Bytes) : Nat :=
  let b := (keccak256 b).bytes
  [0, 2, 4].foldl (fun r i => r ||| 1 <<< (((b.getD (i + 1) 0).toNat + (b.getD i 0).toNat <<< 8) &&& 2047)) 0

/-- `LogsBloom` -/
def logsBloom (logs : List Log) : Nat :=
  logs.foldl (fun bin log => log.topics.foldl (fun bin b => bin ||| bloom9 b.bytes) (bin ||| bloom9 log.address.bytes)) 0

/-- `CreateBloom`; none where it panics. -/
def createBloom (receipts : List Receipt) : Option Bloom :=
  bytesToBloom (minimal (receipts.foldl (fun bin receipt => bin ||| logsBloom receipt.logs) 0))

/-- `BloomLookup`, of the bytes that a topic gives. -/
def bloomLookup (bin : Bloom) (topic : Bytes) : Bool := bin.big &&& bloom9 topic = bloom9 topic

/-- `TestBytes`, by way of `Test`. -/
def Bloom.testBytes (b : Bloom) (test : Bytes) : Bool := bloomLookup b (minimal (decode test))

/-- The addresses and topics of the logs. -/
def loggedItems (receipts : List Receipt) : List Bytes :=
  receipts.flatMap fun r => r.logs.flatMap fun l => l.address.bytes :: l.topics.map (·.bytes)

theorem bloom9_lt {b : Bytes} {i : Nat} (h : (bloom9 b).testBit i) : i < 2048 := by
  simp only [bloom9] at h
  rw [testBit_foldl_or] at h
  simp only [Nat.zero_testBit, Bool.false_or, any_eq_true, Nat.one_shiftLeft, Nat.testBit_two_pow, decide_eq_true_eq] at h
  obtain ⟨_, -, rfl⟩ := h
  exact Nat.and_lt_two_pow (n := 11) _ (by decide)

theorem testBit_logsBloom (logs : List Log) (i : Nat) : (logsBloom logs).testBit i =
    logs.any fun l => (bloom9 l.address.bytes).testBit i || l.topics.any fun t => (bloom9 t.bytes).testBit i := by
  refine (testBit_foldl (fun bin l => ?_) logs 0).trans (by rw [Nat.zero_testBit, Bool.false_or])
  rw [testBit_foldl_or, Nat.testBit_or, Bool.or_assoc]

/-- **The bits of a bloom are those of the items.** -/
theorem createBloom_eq (receipts : List Receipt) : ∃ bloom, createBloom receipts = some bloom ∧
    ∀ i, bloom.big.testBit i = (loggedItems receipts).any fun x => (bloom9 x).testBit i := by
  have hbits (i : Nat) : (receipts.foldl (fun bin receipt => bin ||| logsBloom receipt.logs) 0).testBit i =
      (loggedItems receipts).any fun x => (bloom9 x).testBit i := by
    rw [testBit_foldl_or]
    simp [loggedItems, testBit_logsBloom, any_flatMap, Function.comp_def]
  have hlt : receipts.foldl (fun bin receipt => bin ||| logsBloom receipt.logs) 0 < (2 ^ 8) ^ 256 := by
    rw [← Nat.pow_mul]
    refine Nat.lt_pow_two_of_testBit _ fun i hi => ?_
    rw [hbits, any_eq_false]
    exact fun x _ hx => absurd (bloom9_lt hx) (by omega)
  have hlen := length_minimal_le hlt
  refine ⟨_, if_neg (by omega), fun i => ?_⟩
  rw [← hbits, Bloom.big, decode_ofBytes hlen, decode_minimal]

theorem bloomLookup_iff {bin : Bloom} {x : Bytes} :
    bloomLookup bin x ↔ ∀ i, (bloom9 x).testBit i → bin.big.testBit i := by
  simp only [bloomLookup, decide_eq_true_eq, Nat.eq_iff_testBit_eq, Nat.testBit_and]
  exact forall_congr' fun i => by cases bin.big.testBit i <;> cases (bloom9 x).testBit i <;> simp

end

namespace ByLength

/-- A hash that tells strings apart by their lengths. -/
scoped instance : Crypto where
  keccak256 b := .ofBytes 32 (replicate 32 (UInt8.ofNat b.length))
  keccak512 _ := .zero 64
  ecrecover _ _ := none

/-- A log of the address 1. -/
def receipt : Receipt := { Receipt.new with logs := [.ofRLP ⟨bytesToAddress [1], [], []⟩] }

end ByLength

end Bgmchain.Core
