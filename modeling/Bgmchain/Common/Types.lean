import Bgmchain.Lib.BigEndian

/-! # Bytes, fixed-size values and machine integers

The value types of `common`: byte strings, the 20-byte address and the 32-byte
hash, and what Go's conversions between `big.Int`, `int64`, `uint64` and eight
big-endian bytes do. Big integers are `Int`; an `int64` is an `Int` too, and
every operation that can leave its range goes through `int64`. -/
namespace Bgmchain.Common
open Lib BigEndian

abbrev Bytes := List UInt8

/-- `[]byte(s)` of a string of ASCII characters. -/
def ascii (s : String) : Bytes := s.toList.map fun c => UInt8.ofNat c.toNat

/-- A byte array of fixed length, as Go's `[n]byte`. -/
structure FixedBytes (n : Nat) where
  bytes : Bytes
  length_eq : bytes.length = n
deriving DecidableEq

abbrev Address := FixedBytes 20
abbrev Hash := FixedBytes 32

instance : LawfulBEq Address := inferInstance
instance : LawfulBEq Hash := inferInstance

variable {n : Nat} {a b : FixedBytes n}

@[ext] theorem FixedBytes.ext (h : a.bytes = b.bytes) : a = b := by
  cases a; cases b; cases h; rfl

theorem FixedBytes.bytes_inj : a.bytes = b.bytes ↔ a = b :=
  ⟨FixedBytes.ext, congrArg _⟩

/-- The bytes, with their number. -/
def FixedBytes.sized (b : FixedBytes n) : { bs : Bytes // bs.length = n } := ⟨b.bytes, b.length_eq⟩

/-- The array of zero bytes, Go's zero value. -/
def FixedBytes.zero (n : Nat) : FixedBytes n := ⟨List.replicate n 0, by simp⟩

/-- `SetBytes`: the last `n` bytes, zero bytes in front when there are fewer. -/
def FixedBytes.ofBytes (n : Nat) (b : Bytes) : FixedBytes n :=
  ⟨List.replicate (n - b.length) 0 ++ b.drop (b.length - n), by simp; omega⟩

/-- `common.BytesToAddress` -/
def bytesToAddress (b : Bytes) : Address := .ofBytes 20 b

/-- `common.BytesToHash` -/
def bytesToHash (b : Bytes) : Hash := .ofBytes 32 b

theorem ofBytes_of_length {b : Bytes} (h : b.length = n) : FixedBytes.ofBytes n b = ⟨b, h⟩ := by
  apply FixedBytes.ext
  simp [FixedBytes.ofBytes, h]

@[simp] theorem bytesToAddress_bytes (a : Address) : bytesToAddress a.bytes = a := by
  rw [bytesToAddress, ofBytes_of_length a.length_eq]

/-- Two fixed-size halves of one key determine it, and are determined by it. -/
theorem append_bytes_inj {x y : Bytes} : a.bytes ++ x = b.bytes ++ y ↔ a = b ∧ x = y := by
  constructor
  · intro h
    obtain ⟨h1, h2⟩ := List.append_inj h (by rw [a.length_eq, b.length_eq])
    exact ⟨FixedBytes.ext h1, h2⟩
  · rintro ⟨rfl, rfl⟩
    rfl

theorem FixedBytes.bytes_ne_nil (a : FixedBytes (n + 1)) : a.bytes ≠ [] := by
  intro h
  have := a.length_eq
  rw [h] at this
  simp at this

/-! ## Machine integers -/

/-- Reduction to the range of `int64`, as `(*big.Int).Int64` and wrapping
arithmetic do it. -/
def int64 (x : Int) : Int := (x + 2 ^ 63) % 2 ^ 64 - 2 ^ 63

/-- `(*big.Int).Uint64`: the low 64 bits of the absolute value. -/
def uint64 (x : Int) : Nat := x.natAbs % 2 ^ 64

/-- Go's conversion from `int64` to `uint64`. -/
def uint64OfInt64 (x : Int) : Nat := (x % 2 ^ 64).toNat

def IsInt64 (x : Int) : Prop := -2 ^ 63 ≤ x ∧ x < 2 ^ 63

theorem int64_isInt64 (x : Int) : IsInt64 (int64 x) := by
  unfold IsInt64 int64
  omega

theorem int64_of_isInt64 {x : Int} (h : IsInt64 x) : int64 x = x := by
  unfold IsInt64 at h
  unfold int64
  omega

theorem uint64OfInt64_inj {x y : Int} (hx : IsInt64 x) (hy : IsInt64 y)
    (h : uint64OfInt64 x = uint64OfInt64 y) : x = y := by
  unfold IsInt64 at hx hy
  unfold uint64OfInt64 at h
  omega

theorem uint64OfInt64_lt (x : Int) : uint64OfInt64 x < 2 ^ 64 := by
  unfold uint64OfInt64
  omega

theorem uint64_of_lt {x : Int} (h0 : 0 ≤ x) (h : x < 2 ^ 64) : (uint64 x : Int) = x := by
  unfold uint64
  omega

theorem uint64_natCast (h : n < 2 ^ 64) : uint64 (n : Int) = n := by
  unfold uint64
  omega

/-- `binary.BigEndian.PutUint64` into a fresh eight-byte slice. -/
def putUint64 (n : Nat) : Bytes := encode 8 n

/-- `binary.BigEndian.Uint64`, which reads the first eight bytes and panics on
fewer. -/
def getUint64 (b : Bytes) : Option Nat :=
  if b.length < 8 then none else some (decode (b.take 8))

@[simp] theorem length_putUint64 (n : Nat) : (putUint64 n).length = 8 :=
  length_encode 8 n

theorem putUint64_ne_nil (n : Nat) : putUint64 n ≠ [] := by
  intro h
  have := length_putUint64 n
  rw [h] at this
  simp at this

theorem getUint64_putUint64 (h : n < 2 ^ 64) : getUint64 (putUint64 n) = some n := by
  have ht : (putUint64 n).take 8 = putUint64 n := rfl
  rw [getUint64, ht]
  simp only [length_putUint64, Nat.lt_irrefl, if_false, Option.some.injEq]
  exact decode_encode_of_lt (by simpa using h)

theorem putUint64_inj {m : Nat} (hm : m < 2 ^ 64) (hn : n < 2 ^ 64) (h : putUint64 m = putUint64 n) : m = n :=
  encode_inj (by simpa using hm) (by simpa using hn) h

end Bgmchain.Common
