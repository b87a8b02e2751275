import Mathlib

/-! # Programs that only add to their state

`Grows I x Q`: from a state with `I` the program ends in a greater one that has `I`
again, and if it returns, what it returns has `Q` there. A failure may come after a part
of the additions. `forFin` runs a program for each of finitely many places in turn;
what one place has established then has to outlast the others. -/
namespace Lib.Growing

variable {ε σ α β : Type} [Preorder σ] {I : σ → Prop}

def Grows (I : σ → Prop) (x : EStateM ε σ α) (Q : α → σ → Prop) : Prop :=
  ∀ s, I s →
    match x s with
    | .ok a s' => s ≤ s' ∧ I s' ∧ Q a s'
    | .error _ s' => s ≤ s' ∧ I s'

variable {Q : α → σ → Prop}

theorem Grows.pure {a : α} (h : ∀ s, I s → Q a s) : Grows I (pure a : EStateM ε σ α) Q :=
  fun s hs => ⟨le_rfl, hs, h s hs⟩

variable {x : EStateM ε σ α}

theorem Grows.bind {f : α → EStateM ε σ β} {R : β → σ → Prop}
    (hx : Grows I x Q) (hf : ∀ a, ∀ s, I s → Q a s → Grows (fun s' => I s' ∧ s ≤ s') (f a) R) :
    Grows I (x >>= f) R := by
  intro s hs
  have hxs := hx s hs
  show match (match x s with | .ok a s' => f a s' | .error e s' => .error e s') with
    | .ok a s' => s ≤ s' ∧ I s' ∧ R a s'
    | .error _ s' => s ≤ s' ∧ I s'
  cases hr : x s with
  | error e s' =>
    rw [hr] at hxs
    exact hxs
  | ok a s' =>
    rw [hr] at hxs
    obtain ⟨hle, hI, hQ⟩ := hxs
    have hfs := hf a s' hI hQ s' ⟨hI, le_rfl⟩
    dsimp only
    cases hr' : f a s' with
    | error e s'' =>
      rw [hr'] at hfs
      exact ⟨hle.trans hfs.1, hfs.2.1⟩
    | ok b s'' =>
      rw [hr'] at hfs
      exact ⟨hle.trans hfs.1, hfs.2.1.1, hfs.2.2⟩

section
variable (h : Grows I x Q)
include h

/-- A program that grows from one state on also grows from there. -/
theorem Grows.from (s : σ) : Grows (fun s' => I s' ∧ s ≤ s') x Q := by
  intro s1 hs1
  have hx := h s1 hs1.1
  cases hr : x s1 with
  | error e s2 =>
    rw [hr] at hx
    exact ⟨hx.1, hx.2, hs1.2.trans hx.1⟩
  | ok a s2 =>
    rw [hr] at hx
    exact ⟨hx.1, ⟨hx.2.1, hs1.2.trans hx.1⟩, hx.2.2⟩

theorem Grows.congr {J : σ → Prop} (hIJ : ∀ s, I s ↔ J s) : Grows J x Q := by
  obtain rfl : I = J := funext fun s => propext (hIJ s)
  exact h

theorem Grows.conseq {Q' : α → σ → Prop} (hQ : ∀ a s, I s → Q a s → Q' a s) : Grows I x Q' := by
  intro s hs
  have hx := h s hs
  cases hr : x s with
  | error e s' =>
    rw [hr] at hx
    exact hx
  | ok a s' =>
    rw [hr] at hx
    exact ⟨hx.1, hx.2.1, hQ a s' hx.2.1 hx.2.2⟩

theorem Grows.ok {s s' : σ} {a : α} (hs : I s) (hx : x s = .ok a s') : s ≤ s' ∧ I s' ∧ Q a s' := by
  have := h s hs
  rwa [hx] at this

theorem Grows.error {s s' : σ} {e : ε} (hs : I s) (hx : x s = .error e s') : s ≤ s' ∧ I s' := by
  have := h s hs
  rwa [hx] at this

end

/-- The program for each place, from the first on. -/
def forFin : {n : Nat} → (Fin n → EStateM ε σ α) → EStateM ε σ (Fin n → α)
  | 0, _ => Pure.pure Fin.elim0
  | _ + 1, f => do
    let a ← f 0
    let rest ← forFin fun i => f i.succ
    Pure.pure (Fin.cons a rest)

/-- **What every place establishes holds at the end**, if it outlasts growth. -/
theorem Grows.forFin {n : Nat} {f : Fin n → EStateM ε σ α} {Q : Fin n → α → σ → Prop}
    (hf : ∀ i, Grows I (f i) (Q i)) (hQ : ∀ i a s s', s ≤ s' → Q i a s → Q i a s') :
    Grows I (forFin f) (fun g s => ∀ i, Q i (g i) s) := by
  induction n with
  | zero => exact Grows.pure fun _ _ i => i.elim0
  | succ n ih =>
    refine Grows.bind (hf 0) fun a s hs ha => ?_
    refine Grows.bind ((ih (fun i => hf i.succ) fun i => hQ i.succ).from s) fun rest s' hs' hrest => ?_
    refine Grows.pure fun s'' hs'' i => ?_
    refine Fin.cases ?_ (fun i => ?_) i
    · exact hQ 0 a s s'' hs''.1.2 ha
    · exact hQ i.succ (rest i) s' s'' hs''.2 (hrest i)

end Lib.Growing
