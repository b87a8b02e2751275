import Mathlib

/-! # Delegated voting with two indexes

What the DPoS context is for, without tries: accounts stand as candidates, an
account votes for at most one of them, and beside the vote of each account
there is a list of the accounts behind each candidate. The two indexes should
say the same. `Strays` are accounts listed behind themselves without a vote,
which is how a poll can be opened with candidates that back themselves; the
operations never add one. -/
namespace Bgmchain
open Function

@[ext] structure Poll (α : Type*) where
  candidates : Set α
  /-- `listed c a`: account `a` is listed behind candidate `c`. -/
  listed : α → α → Prop
  vote : α → Option α

namespace Poll

variable {α : Type*} [DecidableEq α]

def becomeCandidate (p : Poll α) (c : α) : Poll α :=
  { p with candidates := insert c p.candidates }

/-- Take a candidate out, with everything said about it. -/
def kickoutCandidate (p : Poll α) (c : α) : Poll α where
  candidates := p.candidates \ {c}
  listed c' a := c' ≠ c ∧ p.listed c' a
  vote a := if p.vote a = some c then none else p.vote a

open Classical in
/-- Move the vote of `a` to `c`; nothing happens unless `c` is a candidate. -/
noncomputable def delegate (p : Poll α) (a c : α) : Poll α :=
  if c ∈ p.candidates then
    { p with
      listed := fun c' a' => (c' = c ∧ a' = a) ∨ (p.listed c' a' ∧ ¬ (a' = a ∧ p.vote a = some c'))
      vote := update p.vote a (some c) }
  else p

open Classical in
/-- Withdraw the vote of `a` for `c`; nothing happens unless there is one. -/
noncomputable def unDelegate (p : Poll α) (a c : α) : Poll α :=
  if c ∈ p.candidates ∧ p.vote a = some c then
    { p with
      listed := fun c' a' => p.listed c' a' ∧ ¬ (c' = c ∧ a' = a)
      vote := update p.vote a none }
  else p

inductive Op (α : Type*) where
  | becomeCandidate (c : α)
  | kickoutCandidate (c : α)
  | delegate (a c : α)
  | unDelegate (a c : α)
deriving DecidableEq

noncomputable def step (p : Poll α) : Op α → Poll α
  | .becomeCandidate c => p.becomeCandidate c
  | .kickoutCandidate c => p.kickoutCandidate c
  | .delegate a c => p.delegate a c
  | .unDelegate a c => p.unDelegate a c

/-- The two indexes agree but for the strays, and votes are for candidates. -/
structure Agrees (strays : Set α) (p : Poll α) : Prop where
  listed_iff : ∀ c a, p.listed c a ↔ p.vote a = some c ∨ (c = a ∧ a ∈ strays)
  candidate_of_vote : ∀ {a c}, p.vote a = some c → c ∈ p.candidates
  stray : ∀ a ∈ strays, a ∈ p.candidates ∧ p.vote a ≠ some a

/-- The operations after which `v` is not a stray. -/
def Op.Settles (v : α) : Op α → Prop
  | .kickoutCandidate c => c = v
  | .delegate a c => a = v ∧ c = v
  | _ => False

variable {p : Poll α} {strays : Set α}

section
variable (h : p.Agrees strays)
include h

omit [DecidableEq α] in
theorem Agrees.becomeCandidate (c : α) : (p.becomeCandidate c).Agrees strays where
  listed_iff := h.listed_iff
  candidate_of_vote hv := .inr (h.candidate_of_vote hv)
  stray a ha := ⟨.inr (h.stray a ha).1, (h.stray a ha).2⟩

theorem Agrees.kickoutCandidate (c : α) : (p.kickoutCandidate c).Agrees (strays \ {c}) where
  listed_iff c' a := by
    simp only [Poll.kickoutCandidate, h.listed_iff, Set.mem_sdiff, Set.mem_singleton_iff]
    by_cases hv : p.vote a = some c
    · simp only [hv, if_true, Option.some.injEq, reduceCtorEq, false_or]
      constructor
      · intro ⟨hne, hor⟩
        rcases hor with he | ⟨rfl, ha⟩
        · exact absurd he.symm hne
        · exact ⟨rfl, ha, hne⟩
      · intro ⟨he, ha, hne⟩
        exact ⟨he ▸ hne, .inr ⟨he, ha⟩⟩
    · simp only [hv, if_false]
      constructor
      · intro ⟨hne, hor⟩
        rcases hor with he | ⟨rfl, ha⟩
        · exact .inl he
        · exact .inr ⟨rfl, ha, hne⟩
      · intro hor
        rcases hor with he | ⟨rfl, ha, hne⟩
        · refine ⟨?_, .inl he⟩
          intro hc
          exact hv (hc ▸ he)
        · exact ⟨hne, .inr ⟨rfl, ha⟩⟩
  candidate_of_vote {a c'} hv := by
    simp only [Poll.kickoutCandidate] at hv
    split at hv
    · cases hv
    next hne =>
      refine ⟨h.candidate_of_vote hv, ?_⟩
      intro hc
      exact hne (Set.mem_singleton_iff.mp hc ▸ hv)
  stray a ha := by
    refine ⟨⟨(h.stray a ha.1).1, ha.2⟩, ?_⟩
    simp only [Poll.kickoutCandidate]
    split
    · simp
    · exact (h.stray a ha.1).2

theorem Agrees.delegate (a c : α) : (p.delegate a c).Agrees {v ∈ strays | ¬ (a = v ∧ c = v)} := by
  by_cases hc : c ∈ p.candidates
  · simp only [Poll.delegate, if_pos hc]
    refine ⟨?_, ?_, ?_⟩
    · intro c' a'
      by_cases ha : a' = a
      · subst ha
        simp only [h.listed_iff, and_true, true_and, update_self, Option.some.injEq,
          Set.mem_ofPred_eq]
        constructor
        · intro hor
          rcases hor with he | ⟨hv | ⟨he, hs⟩, hn⟩
          · exact .inl he.symm
          · exact absurd hv hn
          · by_cases hcc : c = c'
            · exact .inl hcc
            · exact .inr ⟨he, hs, fun h => hcc (h.trans he.symm)⟩
        · intro hor
          rcases hor with he | ⟨he, hs, _⟩
          · exact .inl he.symm
          · -- a stray does not vote for itself, so the old entry is not its own
            subst he
            exact .inr ⟨.inr ⟨rfl, hs⟩, (h.stray _ hs).2⟩
      · simp only [h.listed_iff, ha, and_false, false_or, not_false_iff, and_true, false_and,
          update_of_ne, ne_eq, Set.mem_ofPred_eq, Ne.symm ha]
    · intro a' c' hv
      by_cases ha : a' = a
      · simp only [ha, update_self, Option.some.injEq] at hv
        exact hv ▸ hc
      · simp only [update_of_ne ha] at hv
        exact h.candidate_of_vote hv
    · intro v ⟨hs, hn⟩
      refine ⟨(h.stray v hs).1, ?_⟩
      by_cases ha : v = a
      · subst ha
        simp only [update_self, ne_eq, Option.some.injEq]
        exact fun h => hn ⟨rfl, h⟩
      · simp only [update_of_ne ha]
        exact (h.stray v hs).2
  · -- every stray is a candidate, so a refused vote settles none
    have hstrays : {v ∈ strays | ¬ (a = v ∧ c = v)} = strays := by
      apply Set.sep_eq_self_iff_mem_true.mpr
      intro v hs hav
      exact hc (hav.2 ▸ (h.stray v hs).1)
    rw [hstrays, Poll.delegate, if_neg hc]
    exact h

theorem Agrees.unDelegate (a c : α) : (p.unDelegate a c).Agrees strays := by
  unfold Poll.unDelegate
  split
  next hcv =>
    obtain ⟨_, hv⟩ := hcv
    refine ⟨?_, ?_, ?_⟩
    · intro c' a'
      by_cases ha : a' = a
      · subst ha
        simp only [h.listed_iff, hv, update_self, reduceCtorEq, false_or, and_true,
          Option.some.injEq]
        constructor
        · intro ⟨hor, hne⟩
          exact hor.resolve_left fun h => hne h.symm
        · intro ⟨he, hs⟩
          refine ⟨.inr ⟨he, hs⟩, ?_⟩
          intro hc
          exact (h.stray _ hs).2 (hv.trans (congrArg some (hc.symm.trans he)))
      · simp only [h.listed_iff, ha, and_false, not_false_iff, and_true, update_of_ne, ne_eq]
    · intro a' c' hv'
      by_cases ha : a' = a
      · simp [ha] at hv'
      · simp only [update_of_ne ha] at hv'
        exact h.candidate_of_vote hv'
    · intro v hs
      refine ⟨(h.stray v hs).1, ?_⟩
      by_cases ha : v = a
      · simp [ha]
      · simp only [update_of_ne ha]
        exact (h.stray v hs).2
  · exact h

/-- **One operation keeps the indexes in agreement** and settles the strays it names. -/
theorem Agrees.step (op : Op α) : (p.step op).Agrees {v ∈ strays | ¬ op.Settles v} := by
  cases op with
  | becomeCandidate c => simpa [Op.Settles, Poll.step] using h.becomeCandidate c
  | kickoutCandidate c =>
    have hs : {v ∈ strays | ¬ (Op.kickoutCandidate c).Settles v} = strays \ {c} := by
      ext v
      simp [Op.Settles, eq_comm]
    rw [hs]
    exact h.kickoutCandidate c
  | delegate a c => exact h.delegate a c
  | unDelegate a c => simpa [Op.Settles, Poll.step] using h.unDelegate a c

omit [DecidableEq α] in
/-- The indexes agree outright exactly when no stray is left. -/
theorem Agrees.vote_iff_listed : (∀ a c, p.vote a = some c ↔ p.listed c a) ↔ strays = ∅ := by
  constructor
  · intro hall
    apply Set.eq_empty_of_forall_notMem
    intro v hs
    exact (h.stray v hs).2 ((hall v v).mpr ((h.listed_iff v v).mpr (.inr ⟨rfl, hs⟩)))
  · intro he a c
    simp [h.listed_iff, he]

end

end Poll

end Bgmchain
