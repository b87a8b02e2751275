import Mathlib

/-! # Taking steps back

A system that can take its last step back, by a partial function `pop`. A transitive relation that
`pop` respects says when a state is as good as another one; a state is back at another one if taking
so many steps back gives a state as good as it. -/
namespace Lib.Rewind

variable {S : Type*} (pop : S → Option S)

/-- The last `n` steps taken back. -/
def popN : Nat → S → Option S
  | 0, s => some s
  | n + 1, s => (pop s).bind (popN n)

variable {pop} {n : Nat} {s t t' : S}

theorem popN_add (m n : Nat) (s : S) : popN pop (m + n) s = (popN pop m s).bind (popN pop n) := by
  induction m generalizing s with
  | zero => simp [popN]
  | succ m ih =>
    rw [Nat.succ_add]
    cases h : pop s with
    | none => simp [popN, h]
    | some t => simp [popN, h, ih]

/-- What every step back keeps is kept by all of them. -/
theorem popN_invariant {P : S → Prop} (hP : ∀ s t, P s → pop s = some t → P t)
    (hs : P s) (h : popN pop n s = some t) : P t := by
  induction n generalizing s with
  | zero =>
    simp only [popN, Option.some.injEq] at h
    exact h ▸ hs
  | succ n ih =>
    obtain ⟨u, hu, h⟩ := Option.bind_eq_some_iff.1 h
    exact ih (hP s u hs hu) h

section
variable {R Q : S → S → Prop}

theorem rel_bind {f g : S → Option S} : ∀ {x y : Option S}, Option.Rel R x y →
    (∀ a b, x = some a → y = some b → R a b → Option.Rel Q (f a) (g b)) → Option.Rel Q (x.bind f) (y.bind g)
  | _, _, .none, _ => .none
  | _, _, .some h, hfg => hfg _ _ rfl rfl h

/-- Two states from which every step back goes alike. -/
theorem popN_rel (hR : ∀ s t, R s t → Option.Rel R (pop s) (pop t)) (n : Nat) (h : R s t) :
    Option.Rel R (popN pop n s) (popN pop n t) := by
  induction n generalizing s t with
  | zero => exact .some h
  | succ n ih => exact rel_bind (hR s t h) fun _ _ _ _ => ih

end

variable (pop)

/-- `R` is transitive, and taking a step back respects it. -/
structure Respects (R : S → S → Prop) : Prop where
  trans : ∀ s t u, R s t → R t u → R s u
  pop : ∀ s t t', R s t → pop t = some t' → ∃ s', pop s = some s' ∧ R s' t'

/-- Taking `n` steps back from `t` gives a state as good as `s`. -/
def Back (R : S → S → Prop) (n : Nat) (t s : S) : Prop := ∃ u, popN pop n t = some u ∧ R u s

variable {pop} {R : S → S → Prop}

namespace Respects

theorem popN (h : Respects pop R) (hst : R s t) (ht : popN pop n t = some t') :
    ∃ s', Rewind.popN pop n s = some s' ∧ R s' t' := by
  induction n generalizing s t with
  | zero =>
    simp only [Rewind.popN, Option.some.injEq] at ht
    exact ⟨s, rfl, ht ▸ hst⟩
  | succ n ih =>
    obtain ⟨u, hu, ht⟩ := Option.bind_eq_some_iff.1 ht
    obtain ⟨v, hv, hvu⟩ := h.pop s t u hst hu
    obtain ⟨s', hs', hR⟩ := ih hvu ht
    exact ⟨s', Option.bind_eq_some_iff.2 ⟨v, hv, hs'⟩, hR⟩

end Respects

namespace Back

theorem zero (h : R t s) : Back pop R 0 t s := ⟨t, rfl, h⟩

theorem left (h : Respects pop R) {u : S} (hut : R u t) (hts : Back pop R n t s) : Back pop R n u s := by
  obtain ⟨v, hv, hvs⟩ := hts
  obtain ⟨w, hw, hwv⟩ := h.popN hut hv
  exact ⟨w, hw, h.trans _ _ _ hwv hvs⟩

/-- More steps, which can be taken back to where they start. -/
theorem extend (h : Respects pop R) {m : Nat} (hst : Back pop R n t s)
    (htt : Back pop R m t' t) : Back pop R (m + n) t' s := by
  obtain ⟨u, hu, hus⟩ := hst
  obtain ⟨v, hv, hvt⟩ := htt
  obtain ⟨w, hw, hwu⟩ := h.popN hvt hu
  exact ⟨w, by rw [popN_add, hv, Option.bind_some, hw], h.trans _ _ _ hwu hus⟩

/-- Some of the steps taken back. -/
theorem cut {m : Nat} (h : Back pop R (m + n) t s) (ht : popN pop m t = some t') : Back pop R n t' s := by
  obtain ⟨u, hu, hus⟩ := h
  rw [popN_add, ht, Option.bind_some] at hu
  exact ⟨u, hu, hus⟩

end Back

end Lib.Rewind
