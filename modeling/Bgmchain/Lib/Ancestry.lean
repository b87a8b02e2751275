import Mathlib

/-! # Ancestors

Items that each have one parent at most, and a key. `Descends parent key a k`: the
item `a` or an ancestor of it has the key `k`. -/
namespace Lib.Ancestry

variable {α κ : Type} {parent : α → Option α} {key : α → κ}

inductive Descends (parent : α → Option α) (key : α → κ) : α → κ → Prop
  | here (a : α) : Descends parent key a (key a)
  | step {a p : α} {k : κ} : parent a = some p → Descends parent key p k → Descends parent key a k

/-- A walk from parent to parent that ends in `c` and meets the key `k` nowhere. -/
inductive Avoids (parent : α → Option α) (key : α → κ) (k : κ) : α → α → Prop
  | here {a : α} : key a ≠ k → Avoids parent key k a a
  | step {a p c : α} : key a ≠ k → parent a = some p → Avoids parent key k p c → Avoids parent key k a c

/-- What is not met on the way lies beyond, or nowhere. -/
theorem Avoids.descends_iff {k : κ} {a c : α} (h : Avoids parent key k a c) :
    Descends parent key c k ↔ Descends parent key a k := by
  induction h with
  | here _ => exact Iff.rfl
  | step hne hp _ ih =>
    rw [ih]
    constructor
    · intro hd
      exact .step hp hd
    · intro hd
      cases hd with
      | here _ => exact absurd rfl hne
      | step hp' hd =>
        rw [hp] at hp'
        cases hp'
        exact hd

/-- An item and its ancestors, or none if there are more than the fuel. -/
def line (parent : α → Option α) : Nat → α → Option (List α)
  | 0, _ => none
  | f + 1, a =>
    match parent a with
    | none => some [a]
    | some p => (line parent f p).map (a :: ·)

theorem Descends.exists_mem_line {a : α} {k : κ} (h : Descends parent key a k) :
    ∀ {f : Nat} {l : List α}, line parent f a = some l → ∃ x ∈ l, key x = k := by
  intro f
  induction h generalizing f with
  | here a =>
    intro l hl
    obtain _ | f := f
    · cases hl
    unfold line at hl
    split at hl
    · cases hl
      exact ⟨a, List.mem_cons_self, rfl⟩
    · obtain ⟨l', -, rfl⟩ := Option.map_eq_some_iff.mp hl
      exact ⟨a, List.mem_cons_self, rfl⟩
  | step hp _ ih =>
    intro l hl
    obtain _ | f := f
    · cases hl
    rw [line, hp] at hl
    obtain ⟨l', hl', rfl⟩ := Option.map_eq_some_iff.mp hl
    obtain ⟨x, hx, hk⟩ := ih hl'
    exact ⟨x, List.mem_cons_of_mem _ hx, hk⟩

end Lib.Ancestry
