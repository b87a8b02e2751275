import Bgmchain.Lib.Patricia
import Bgmchain.Common.Types

/-! # Key encodings of the trie

Trie keys are stored one nibble a step with a terminator at the end
(`keybytesToHex`). A byte prefix of a key becomes a nibble prefix once its own
terminator is cut off, which is how the iterators select keys. -/
namespace Bgmchain
open Common Lib.Patricia Fin

/-- One step of a path: a nibble, or the terminator 16. -/
abbrev Nibble := Digit 16

/-- The trees a trie stands for once every node has been read. -/
abbrev TrieTree := Lib.Patricia.Tree 16 Bytes

def highNibble (b : UInt8) : Nibble := ⟨b.toNat / 16, by have := b.toNat_lt; omega⟩
def lowNibble (b : UInt8) : Nibble := ⟨b.toNat % 16, by omega⟩

/-- The nibbles of a byte string, without terminator. -/
def nibbles : Bytes → List Nibble
  | [] => []
  | b :: bs => highNibble b :: lowNibble b :: nibbles bs

def keybytesToHex (str : Bytes) : List Nibble := nibbles str ++ [last 16]

/-- `hasTerm`: the last element is the terminator. -/
def hasTerm (s : List Nibble) : Bool := s.getLast? == some (last 16)

theorem highNibble_ne_last (b : UInt8) : highNibble b ≠ last 16 := by
  intro h
  have := congrArg val h
  have hb := b.toNat_lt
  simp only [highNibble, val_last] at this
  omega

theorem lowNibble_ne_last (b : UInt8) : lowNibble b ≠ last 16 := by
  intro h
  have := congrArg val h
  simp only [lowNibble, val_last] at this
  omega

theorem last_notMem_nibbles (str : Bytes) : last 16 ∉ nibbles str := by
  induction str with
  | nil => simp [nibbles]
  | cons b bs ih =>
    simp only [nibbles, List.mem_cons, not_or]
    exact ⟨(highNibble_ne_last b).symm, (lowNibble_ne_last b).symm, ih⟩

theorem terminated_keybytesToHex (str : Bytes) : Terminated (keybytesToHex str) :=
  terminated_concat (last_notMem_nibbles str)

theorem byte_ext {a b : UInt8} (hh : highNibble a = highNibble b) (hl : lowNibble a = lowNibble b) : a = b := by
  have h1 := congrArg val hh
  have h2 := congrArg val hl
  simp only [highNibble, lowNibble] at h1 h2
  apply UInt8.toNat_inj.mp
  omega

theorem nibbles_prefix_iff {a b : Bytes} : nibbles a <+: nibbles b ↔ a <+: b := by
  induction a generalizing b with
  | nil => simp [nibbles]
  | cons x xs ih =>
    cases b with
    | nil => simp [nibbles]
    | cons y ys =>
      simp only [nibbles, List.cons_prefix_cons, ih]
      constructor
      · rintro ⟨hh, hl, hp⟩
        exact ⟨byte_ext hh hl, hp⟩
      · rintro ⟨rfl, hp⟩
        exact ⟨rfl, rfl, hp⟩

theorem nibbles_append (a b : Bytes) : nibbles (a ++ b) = nibbles a ++ nibbles b := by
  induction a with
  | nil => rfl
  | cons x xs ih => simp [nibbles, ih]

/-- A key has the nibbles of a byte string as prefix exactly when it has the
byte string as prefix. -/
theorem nibbles_prefix_hex {a b : Bytes} : nibbles a <+: keybytesToHex b ↔ a <+: b := by
  rw [← nibbles_prefix_iff, keybytesToHex, List.prefix_concat_iff]
  constructor
  · intro h
    refine h.resolve_left fun he => last_notMem_nibbles a ?_
    rw [he]
    simp
  · exact .inr

theorem keybytesToHex_inj {a b : Bytes} : keybytesToHex a = keybytesToHex b ↔ a = b := by
  constructor
  · intro h
    have hn := List.append_cancel_right h
    have hab : a <+: b := nibbles_prefix_iff.mp (hn ▸ List.prefix_refl _)
    have hba : b <+: a := nibbles_prefix_iff.mp (hn ▸ List.prefix_refl _)
    exact hab.eq_of_length (Nat.le_antisymm hab.length_le hba.length_le)
  · exact congrArg _

theorem hasTerm_keybytesToHex (str : Bytes) : hasTerm (keybytesToHex str) = true := by
  simp [hasTerm, keybytesToHex]

end Bgmchain
