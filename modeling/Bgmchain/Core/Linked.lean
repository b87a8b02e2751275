import Bgmchain.Core.Writes
import Bgmchain.Lib.Lineage

/-! # What is stored under hashes and numbers

Headers and blocks are kept alike: under their own hash and number, with their ancestors
down to the genesis and with their total difficulties. The canonical hashes of a chain
are those of one such branch. -/
namespace Bgmchain.Core
open Common
open Dpos (predUint64)
open Lib.Lineage (Branch)

namespace Canonical

/-- There is a hash for each number up to the length of the list, and no other. -/
def Follows (c : Canonical) (hashes : List Hash) : Prop := ∀ n, c.hash? n = hashes[n]?

variable {c : Canonical} {hashes : List Hash}

theorem Follows.get (h : c.Follows hashes) (n : Nat) :
    c.get n = hashes[n]?.getD (.zero 32) := by rw [Canonical.get, h n]

theorem Follows.length_le (h : c.Follows hashes) : hashes.length ≤ c.top + 1 := by
  by_contra hlt
  have habove := c.above (hashes.length - 1) (by omega)
  rw [h, List.getElem?_eq_none_iff] at habove
  omega

theorem Follows.ext {c' : Canonical} (h : c.Follows hashes) (h' : c'.Follows hashes)
    (htop : c.top = c'.top) : c = c' := by
  have hhash : c.hash? = c'.hash? := funext fun n => (h n).trans (h' n).symm
  cases c
  cases c'
  simp only at htop hhash
  subst htop hhash
  rfl

/-- The hashes up to the length of the list, whatever there is above. -/
def Covers (c : Canonical) (hashes : List Hash) : Prop := ∀ n < hashes.length, c.hash? n = hashes[n]?

theorem Follows.covers (h : c.Follows hashes) : c.Covers hashes :=
  fun n _ => h n

theorem Covers.of_append {above : List Hash} (h : c.Covers (hashes ++ above)) : c.Covers hashes := by
  intro n hn
  rw [h n (by rw [List.length_append]; omega), List.getElem?_append_left hn]

/-- One more hash on top. -/
theorem Covers.write (h : c.Covers hashes) (hash : Hash) :
    (c.write hash hashes.length).Covers (hashes ++ [hash]) := by
  intro n hn
  rw [List.length_append, List.length_singleton] at hn
  by_cases htop : n = hashes.length
  · subst htop
    rw [List.getElem?_concat_length]
    exact Function.update_self ..
  · rw [List.getElem?_append_left (by omega)]
    exact (Function.update_of_ne htop ..).trans (h n (by omega))

theorem Follows.write (h : c.Follows hashes) (hash : Hash) :
    (c.write hash hashes.length).Follows (hashes ++ [hash]) := by
  intro n
  by_cases hn : n < (hashes ++ [hash]).length
  · exact h.covers.write hash n hn
  · rw [List.getElem?_eq_none (by omega)]
    rw [List.length_append, List.length_singleton] at hn
    refine (Function.update_of_ne (by omega) ..).trans ((h n).trans ?_)
    exact List.getElem?_eq_none (by omega)

end Canonical

section
variable [Crypto] {α : Type} (header : α → Header)

/-- Items that are stored, each by its header: under their own hash and number, with
their ancestors down to the one genesis and with their total difficulties. Block
numbers end before they wrap around, and no hash is the zero hash that stands for none. -/
structure Linked (get : Hash → Nat → Option α) (tds : Hash → Nat → Option Int) : Prop where
  keyed : ∀ {h n a}, get h n = some a → (header a).hash = h ∧ uint64 (header a).number = n
  branch : ∀ {h n a}, get h n = some a → ∃ l, Branch get (fun a => (header a).parentHash) h n l
  root : ∀ {h h' a a'}, get h 0 = some a → get h' 0 = some a' → h = h'
  hash_ne : ∀ {h n a}, get h n = some a → h ≠ .zero 32
  number_lt : ∀ {h n a}, get h n = some a → n < 2 ^ 64 - 1
  td : ∀ {h n a}, get h n = some a → ∃ td, tds h n = some td ∧ 0 ≤ td

/-- An item that can be stored: its parent is known, its header can be encoded, its
number is not the last one, and nothing else is stored under its hash and number. -/
structure Writable (get : Hash → Nat → Option α) (a : α) : Prop where
  parent : ∃ p, get (header a).parentHash (predUint64 (uint64 (header a).number)) = some p
  encoded : (header a).encode.isSome
  number_lt : uint64 (header a).number < 2 ^ 64 - 1
  hash_ne : (header a).hash ≠ .zero 32
  unclashed : ∀ b, get (header a).hash (uint64 (header a).number) = some b → b = a

/-- One more item. -/
def put (get : Hash → Nat → Option α) (a : α) : Hash → Nat → Option α :=
  fun h n => if h = (header a).hash ∧ n = uint64 (header a).number then some a else get h n

variable {header} {get : Hash → Nat → Option α} {tds : Hash → Nat → Option Int}

theorem put_self (get : Hash → Nat → Option α) (a : α) :
    put header get a (header a).hash (uint64 (header a).number) = some a := if_pos ⟨rfl, rfl⟩

variable {a : α} {n : Nat}

theorem put_eq_some {b : α} {h : Hash} (hb : put header get a h n = some b) :
    (h = (header a).hash ∧ n = uint64 (header a).number ∧ b = a) ∨ get h n = some b := by
  unfold put at hb
  split at hb
  next hkey =>
    cases hb
    exact .inl ⟨hkey.1, hkey.2, rfl⟩
  · exact .inr hb

theorem Linked.keys (h : Linked header get tds) :
    ∀ k n a, get k n = some a → (header a).hash = k := fun _ _ _ ha => (h.keyed ha).1

variable {k : Hash} {l : List α}

section
variable (h : Linked header get tds) (hb : Branch get (fun a => (header a).parentHash) k n l)
include h hb

theorem Linked.mem_branch {m : Nat} (ha : l[m]? = some a) : get (header a).hash m = some a := by
  have hlow := hb.lower h.keys ha
  rw [← hlow.getElem?_top, List.getElem?_take_of_lt (by omega), ha]

theorem Linked.number_of_branch {m : Nat} (ha : l[m]? = some a) :
    uint64 (header a).number = m := (h.keyed (h.mem_branch hb ha)).2

theorem Linked.zero_notMem : .zero 32 ∉ l.map fun a => (header a).hash := by
  intro hmem
  obtain ⟨a, ha, hzero⟩ := List.mem_map.mp hmem
  obtain ⟨m, hm⟩ := List.mem_iff_getElem?.mp ha
  exact h.hash_ne (h.mem_branch hb hm) hzero

theorem Linked.top : n < 2 ^ 64 - 1 ∧ ∃ a, get k n = some a := by
  have htop := hb.getElem?_top
  rw [List.getElem?_eq_getElem (by rw [hb.length]; omega)] at htop
  exact ⟨h.number_lt htop.symm, _, htop.symm⟩

end

/-- All branches start at the genesis. -/
theorem Linked.root_eq (h : Linked header get tds) {k' : Hash} {n' : Nat} {l' : List α}
    (hb : Branch get (fun a => (header a).parentHash) k n l)
    (hb' : Branch get (fun a => (header a).parentHash) k' n' l') : l[0]? = l'[0]? := by
  have ha := List.getElem?_eq_getElem (show 0 < l.length by rw [hb.length]; omega)
  have ha' := List.getElem?_eq_getElem (show 0 < l'.length by rw [hb'.length]; omega)
  have hstored := h.mem_branch hb ha
  rw [h.root hstored (h.mem_branch hb' ha'), h.mem_branch hb' ha'] at hstored
  rw [ha, ha', hstored]

/-- The number of the parent, and its ancestors. -/
theorem Writable.branch (h : Linked header get tds) (hw : Writable header get a) :
    ∃ n l, uint64 (header a).number = n + 1 ∧ predUint64 (uint64 (header a).number) = n ∧
      Branch get (fun a => (header a).parentHash) (header a).parentHash n l := by
  obtain ⟨p, hp⟩ := hw.parent
  have hlt := h.number_lt hp
  have hnum := hw.number_lt
  obtain ⟨l, hl⟩ := h.branch hp
  have hpred : uint64 (header a).number = predUint64 (uint64 (header a).number) + 1 := by
    unfold predUint64 at hlt ⊢
    omega
  exact ⟨_, l, hpred, rfl, hl⟩

/-- What was stored stays stored. -/
theorem Writable.mono (hw : Writable header get a) :
    ∀ k n b, get k n = some b → put header get a k n = some b := by
  intro k n b hb
  unfold put
  split
  next hkey =>
    obtain ⟨rfl, rfl⟩ := hkey
    rw [hw.unclashed b hb]
  · exact hb

/-- The branch of an item that has been stored on top of its parent. -/
theorem Writable.put_branch (hw : Writable header get a) (hnum : uint64 (header a).number = n + 1)
    (hb : Branch get (fun a => (header a).parentHash) (header a).parentHash n l) :
    Branch (put header get a) (fun a => (header a).parentHash) (header a).hash (uint64 (header a).number)
      (l ++ [a]) := by
  have hself : put header get a (header a).hash (uint64 (header a).number) = some a := put_self get a
  rw [hnum] at hself ⊢
  exact .step hself (hb.mono hw.mono)

/-- The store with one more item. -/
theorem Linked.put (h : Linked header get tds) (hw : Writable header get a) {td : Int} (htd : 0 ≤ td) :
    Linked header (put header get a) (enterTd tds (header a).hash (uint64 (header a).number) td) := by
  obtain ⟨n, lp, hnum, _, hlp⟩ := hw.branch h
  refine ⟨?_, ?_, ?_, ?_, ?_, ?_⟩
  · intro k m b hb
    rcases put_eq_some hb with ⟨rfl, rfl, rfl⟩ | hb
    · exact ⟨rfl, rfl⟩
    · exact h.keyed hb
  · intro k m b hb
    rcases put_eq_some hb with ⟨rfl, rfl, rfl⟩ | hb
    · exact ⟨_, hw.put_branch hnum hlp⟩
    · obtain ⟨l, hl⟩ := h.branch hb
      exact ⟨l, hl.mono hw.mono⟩
  · intro k k' b b' hb hb'
    rcases put_eq_some hb with ⟨_, hzero, _⟩ | hb
    · omega
    · rcases put_eq_some hb' with ⟨_, hzero, _⟩ | hb'
      · omega
      · exact h.root hb hb'
  · intro k m b hb
    rcases put_eq_some hb with ⟨rfl, _, _⟩ | hb
    · exact hw.hash_ne
    · exact h.hash_ne hb
  · intro k m b hb
    rcases put_eq_some hb with ⟨_, rfl, _⟩ | hb
    · exact hw.number_lt
    · exact h.number_lt hb
  · intro k m b hb
    unfold enterTd
    split
    · exact ⟨td, rfl, htd⟩
    next hkey =>
      rcases put_eq_some hb with ⟨hk, hm, _⟩ | hb
      · exact absurd ⟨hk, hm⟩ hkey
      · exact h.td hb

/-- What is known of the total difficulty of an item on its parent. -/
theorem Writable.td (h : Linked header get tds) (hw : Writable header get a) :
    ∃ ptd, tds (header a).parentHash (predUint64 (uint64 (header a).number)) = some ptd ∧ 0 ≤ ptd ∧
      0 ≤ (header a).difficulty + ptd ∧ HeaderChain.encodable (header a) = .ok () := by
  obtain ⟨p, hp⟩ := hw.parent
  obtain ⟨ptd, hptd, hptd0⟩ := h.td hp
  obtain ⟨enc, henc⟩ := Option.isSome_iff_exists.mp hw.encoded
  have hdiff : 0 ≤ (header a).difficulty := (Header.encode_eq_some henc).1.1
  exact ⟨ptd, hptd, hptd0, by omega, by rw [HeaderChain.encodable, henc]⟩

/-- A store that holds a genesis only. -/
theorem linked_root {genesis : α} (hnum : uint64 (header genesis).number = 0)
    (hne : (header genesis).hash ≠ .zero 32) {td : Int} (htd : 0 ≤ td)
    (hget : ∀ h n, get h n = if h = (header genesis).hash ∧ n = 0 then some genesis else none)
    (htds : tds (header genesis).hash 0 = some td) : Linked header get tds ∧
      Branch get (fun a => (header a).parentHash) (header genesis).hash (uint64 (header genesis).number) [genesis] := by
  have hall : ∀ {h n a}, get h n = some a → h = (header genesis).hash ∧ n = 0 ∧ a = genesis := by
    intro h n a ha
    rw [hget] at ha
    split at ha
    next hkey =>
      cases ha
      exact ⟨hkey.1, hkey.2, rfl⟩
    · cases ha
  have hbranch : Branch get (fun a => (header a).parentHash) (header genesis).hash 0 [genesis] :=
    .root (by rw [hget, if_pos ⟨rfl, rfl⟩])
  refine ⟨⟨?_, ?_, ?_, ?_, ?_, ?_⟩, hnum ▸ hbranch⟩
  · intro h n a ha
    obtain ⟨rfl, rfl, rfl⟩ := hall ha
    exact ⟨rfl, hnum⟩
  · intro h n a ha
    obtain ⟨rfl, rfl, rfl⟩ := hall ha
    exact ⟨_, hbranch⟩
  · intro h h' a a' ha ha'
    rw [(hall ha).1, (hall ha').1]
  · intro h n a ha
    rw [(hall ha).1]
    exact hne
  · intro h n a ha
    rw [(hall ha).2.1]
    decide
  · intro h n a ha
    obtain ⟨rfl, rfl, rfl⟩ := hall ha
    exact ⟨td, htds, htd⟩

end

end Bgmchain.Core
