import Mathlib

/-! # Pre- and postconditions of stateful programs that can fail

`Triple P x Q E`: run where `P` holds, `x` either returns with `Q` or fails with
`E`, which also speaks about the state a failure leaves behind. `Keeps I x` is
the case of an invariant. The rules follow the constructs of `do` blocks in
`EStateM`. -/
namespace Lib.Hoare
open MonadExcept

variable {ε σ α β : Type}

def Triple (P : σ → Prop) (x : EStateM ε σ α) (Q : α → σ → Prop) (E : ε → σ → Prop) : Prop :=
  ∀ s, P s →
    match x s with
    | .ok a s' => Q a s'
    | .error e s' => E e s'

/-- The program keeps an invariant, whether it returns or fails. -/
def Keeps (I : σ → Prop) (x : EStateM ε σ α) : Prop := Triple I x (fun _ => I) (fun _ => I)

variable {P I : σ → Prop} {Q : α → σ → Prop} {R : β → σ → Prop} {E : ε → σ → Prop} {x : EStateM ε σ α} {s s' : σ} {a : α}

theorem Triple.ok (h : Triple P x Q E) (hs : P s) (hx : x s = .ok a s') : Q a s' := by
  have := h s hs
  rwa [hx] at this

variable {e : ε}

theorem Triple.error (h : Triple P x Q E) (hs : P s) (hx : x s = .error e s') : E e s' := by
  have := h s hs
  rwa [hx] at this

theorem Triple.conseq {P' : σ → Prop} {Q' : α → σ → Prop} {E' : ε → σ → Prop}
    (h : Triple P x Q E) (hP : ∀ s, P' s → P s) (hQ : ∀ a s, Q a s → Q' a s)
    (hE : ∀ e s, E e s → E' e s) : Triple P' x Q' E' := by
  intro s hs
  have := h s (hP s hs)
  cases hx : x s with
  | ok a s' =>
    rw [hx] at this
    exact hQ a s' this
  | error e s' =>
    rw [hx] at this
    exact hE e s' this

theorem Triple.pure (a : α) (h : ∀ s, P s → Q a s) : Triple P (Pure.pure a) Q E := h

theorem Triple.throw (e : ε) (h : ∀ s, P s → E e s) :
    Triple P (throw e : EStateM ε σ α) Q E := h

variable {f : α → EStateM ε σ β}

theorem Triple.bind (hx : Triple P x Q E) (hf : ∀ a, Triple (Q a) (f a) R E) : Triple P (x >>= f) R E := by
  intro s hs
  have h1 := hx s hs
  show match EStateM.bind x f s with
    | .ok b s' => R b s'
    | .error e s' => E e s'
  unfold EStateM.bind
  cases hr : x s with
  | ok a s' =>
    rw [hr] at h1
    exact hf a s' h1
  | error e s' =>
    rw [hr] at h1
    exact h1

/-- Reading the state: what follows may use it by name. -/
theorem Triple.get_bind {f : σ → EStateM ε σ β} (hf : ∀ s, P s → Triple (· = s) (f s) R E) :
    Triple P (get >>= f) R E := fun s hs => hf s hs s rfl

variable {c : Prop}

theorem Triple.ite [Decidable c] {y : EStateM ε σ α} (hx : c → Triple P x Q E)
    (hy : ¬ c → Triple P y Q E) : Triple P (if c then x else y) Q E := by
  by_cases h : c
  · rw [if_pos h]
    exact hx h
  · rw [if_neg h]
    exact hy h

theorem Keeps.pure (a : α) : Keeps I (Pure.pure a : EStateM ε σ α) := fun _ h => h

theorem Keeps.throw (e : ε) : Keeps I (throw e : EStateM ε σ α) := fun _ h => h

theorem Keeps.bind (hx : Keeps I x)
    (hf : ∀ a, Keeps I (f a)) : Keeps I (x >>= f) := Triple.bind hx hf

theorem Keeps.get_bind {f : σ → EStateM ε σ β} (hf : ∀ s, Keeps I (f s)) : Keeps I (get >>= f) :=
  fun s hs => hf s s hs

theorem Keeps.modify (f : σ → σ) (h : ∀ s, I s → I (f s)) :
    Keeps I (MonadState.modifyGet (fun s => (PUnit.unit, f s)) : EStateM ε σ PUnit) := h

/-! ## What a run that has returned has done -/

theorem bind_of_ok {s1 : σ} (h : x s = .ok a s1) : (x >>= f) s = f a s1 := by
  show EStateM.bind x f s = f a s1
  rw [EStateM.bind, h]

theorem bind_of_error {s1 : σ} (h : x s = .error e s1) : (x >>= f) s = .error e s1 := by
  show EStateM.bind x f s = _
  rw [EStateM.bind, h]

theorem get_bind {f : σ → EStateM ε σ β} (s : σ) : (MonadState.get >>= f) s = f s s := rfl

theorem bind_ok_iff {b : β} : (x >>= f) s = .ok b s' ↔ ∃ a s1, x s = .ok a s1 ∧ f a s1 = .ok b s' := by
  show EStateM.bind x f s = .ok b s' ↔ _
  unfold EStateM.bind
  cases x s with
  | ok a s1 | error e s1 => simp

theorem pure_ok_iff {b : α} : (Pure.pure a : EStateM ε σ α) s = .ok b s' ↔ a = b ∧ s = s' := by
  show EStateM.Result.ok a s = .ok b s' ↔ _
  simp

theorem throw_ok_iff {b : α} : (throw e : EStateM ε σ α) s = .ok b s' ↔ False := by
  show EStateM.Result.error e s = .ok b s' ↔ _
  simp

theorem get_ok_iff {a : σ} : (MonadState.get : EStateM ε σ σ) s = .ok a s' ↔ s = a ∧ s = s' := by
  show EStateM.Result.ok s s = .ok a s' ↔ _
  simp

theorem set_ok_iff {t : σ} {u : PUnit} : (MonadStateOf.set t : EStateM ε σ PUnit) s = .ok u s' ↔ t = s' := by
  show EStateM.Result.ok PUnit.unit t = .ok u s' ↔ _
  simp

theorem except_bind_ok_iff {x : Except ε α} {f : α → Except ε β} {b : β} :
    (x >>= f) = .ok b ↔ ∃ a, x = .ok a ∧ f a = .ok b := by
  cases x with
  | ok a | error e => simp [Bind.bind, Except.bind]

/-- A check at the head of a sequence of checks has passed. -/
theorem except_bind_ok {x : Except ε α} {f : α → Except ε β} {b : β} (hx : x = .ok a) (hf : f a = .ok b) :
    x >>= f = .ok b :=
  except_bind_ok_iff.mpr ⟨a, hx, hf⟩

/-- The second computation gives what the first gives, where the first one does not fail. -/
def Extends (x y : Except ε α) : Prop := ∀ ⦃a⦄, x = .ok a → y = .ok a

theorem Extends.refl (x : Except ε α) : Extends x x := fun _ h => h

theorem Extends.bind {x y : Except ε α} {f g : α → Except ε β} (hxy : Extends x y) (hfg : ∀ a, Extends (f a) (g a)) :
    Extends (x >>= f) (y >>= g) := by
  intro b h
  obtain ⟨a, hx, hf⟩ := except_bind_ok_iff.mp h
  exact except_bind_ok (hxy hx) (hfg a hf)

theorem Extends.ite [Decidable c] {x y x' y' : Except ε α} (h : Extends x y) (h' : Extends x' y') :
    Extends (if c then x else x') (if c then y else y') := by
  split
  · exact h
  · exact h'

theorem guard_bind_ok_iff [Decidable c] {k : PUnit → Except ε α} :
    (if c then throw e >>= k else k PUnit.unit) = .ok a ↔ ¬ c ∧ k PUnit.unit = .ok a := by
  by_cases h : c
  · simp [h, Bind.bind, Except.bind, throw, throwThe, MonadExceptOf.throw]
  · simp [h]

/-- A last check has passed. -/
theorem guard_ok_iff [Decidable c] {u : PUnit} :
    (if c then throw e else Pure.pure PUnit.unit : Except ε PUnit) = .ok u ↔ ¬ c := by
  by_cases h : c
  · simp [h, throw, throwThe, MonadExceptOf.throw]
  · simp [h, Pure.pure, Except.pure]

theorem except_toOption_eq_some_iff {x : Except ε α} : x.toOption = some a ↔ x = .ok a := by
  cases x with
  | ok b | error e => simp [Except.toOption]

/-- The state a program leaves, whether it returns or fails. -/
def stateAfter (x : EStateM ε σ α) (s : σ) : σ :=
  match x s with
  | .ok _ s' => s'
  | .error _ s' => s'

theorem Triple.stateAfter {R : σ → Prop} (h : Triple P x (fun _ => R) (fun _ => R))
    (hs : P s) : R (stateAfter x s) := by
  have hx := h s hs
  unfold Hoare.stateAfter
  cases hr : x s with
  | ok a s' | error e s' =>
    rw [hr] at hx
    exact hx

/-! ## Loops over a list -/

/-- A loop whose every turn succeeds succeeds, and what its turns establish of the
items seen so far holds of them all. -/
theorem exists_foldlM_ok {f : σ → α → Except ε σ} {P : List α → σ → Prop} (items : List α)
    (hstep : ∀ seen s a, a ∈ items → P seen s → ∃ s', f s a = .ok s' ∧ P (seen ++ [a]) s') :
    ∀ seen s, P seen s → ∃ s', items.foldlM f s = .ok s' ∧ P (seen ++ items) s' := by
  induction items with
  | nil =>
    intro seen s hs
    exact ⟨s, rfl, by simpa using hs⟩
  | cons a items ih =>
    intro seen s hs
    obtain ⟨s1, hf, h1⟩ := hstep seen s a List.mem_cons_self hs
    obtain ⟨s2, hrest, h2⟩ := ih (fun seen s b hb => hstep seen s b (List.mem_cons_of_mem _ hb))
      (seen ++ [a]) s1 h1
    refine ⟨s2, ?_, by simpa using h2⟩
    rw [List.foldlM_cons, hf]
    exact hrest

end Lib.Hoare
