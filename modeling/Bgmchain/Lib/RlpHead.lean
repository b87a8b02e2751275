import Bgmchain.Lib.Rlp

/-! # Headers of items

A single byte below `0x80` is an item of its own; every other item begins with a header
that gives its kind and size. A size is written in one way only. -/
namespace Lib.Rlp
open BigEndian List

inductive Head where
  | byte (b : UInt8)
  | string (n : Nat)
  | list (n : Nat)

namespace Head

def bytes : Head → List UInt8
  | byte b => [b]
  | string n => sizeHeader 0x80 n
  | list n => sizeHeader 0xC0 n

/-- How many bytes follow the header. -/
def size : Head → Nat
  | byte _ => 0
  | string n => n
  | list n => n

/-- What can be written: the byte is no header, and the size has at most eight bytes. -/
def Valid : Head → Prop
  | byte b => b.toNat < 0x80
  | string n => n < 256 ^ 8
  | list n => n < 256 ^ 8

end Head

/-- Bytes without a zero in front are those of the number they stand for. -/
theorem minimal_decode {bs : List UInt8} (h : bs.head? ≠ some 0) : minimal (decode bs) = bs := by
  have hlt : ∀ d ∈ bs.reverse.map UInt8.toNat, d < 256 := by
    intro d hd
    obtain ⟨b, _, rfl⟩ := mem_map.mp hd
    exact b.toNat_lt
  have hdigits : decode bs = Nat.ofDigits 256 (bs.reverse.map UInt8.toNat) := by
    have hmap : (bs.reverse.map UInt8.toNat).reverse.map UInt8.ofNat = bs := by
      simp [map_reverse, Function.comp_def]
    rw [← decode_digits hlt, hmap]
  have hlast : ∀ hne : bs.reverse.map UInt8.toNat ≠ [], (bs.reverse.map UInt8.toNat).getLast hne ≠ 0 := by
    intro hne hzero
    cases bs with
    | nil => exact hne rfl
    | cons b bs =>
      have hb : b.toNat = 0 := by simpa using hzero
      exact h (congrArg some (UInt8.toNat_inj.mp hb))
  unfold minimal
  rw [hdigits, Nat.digits_ofDigits 256 (by omega) _ hlt hlast]
  simp [map_reverse, Function.comp_def]

/-- Bytes that are read as a number lose the zeros in front. -/
theorem minimal_decode_eq (bs : List UInt8) : minimal (decode bs) = bs.dropWhile (· = 0) := by
  induction bs with
  | nil => simp [decode, minimal]
  | cons b bs ih =>
    by_cases hb : b = 0
    · have hdecode : decode (b :: bs) = decode bs := by simp [decode, hb]
      rw [hdecode, ih, dropWhile_cons_of_pos (by simpa using hb)]
    · rw [minimal_decode (by simpa using hb), dropWhile_cons_of_neg (by simpa using hb)]

theorem exists_replicate_minimal (bs : List UInt8) :
    ∃ k, bs = replicate k 0 ++ minimal (decode bs) := by
  have hzeros : bs.takeWhile (· = 0) = replicate (bs.takeWhile (· = 0)).length 0 :=
    eq_replicate_of_mem fun b hb => by simpa using all_eq_true.mp all_takeWhile b hb
  refine ⟨(bs.takeWhile (· = 0)).length, ?_⟩
  rw [minimal_decode_eq, ← hzeros, takeWhile_append_dropWhile]

theorem sizeHeader_small {off n : Nat} (h : n < 56) : sizeHeader off n = [UInt8.ofNat (off + n)] := if_pos h

theorem sizeHeader_large {off n : Nat} (h : ¬ n < 56) :
    sizeHeader off n = UInt8.ofNat (off + 55 + (minimal n).length) :: minimal n := if_neg h

end Lib.Rlp
