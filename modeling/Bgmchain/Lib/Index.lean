import Mathlib

/-! # Indexes

An index is a partial function that entries are written to and keys are erased from.
`Lists m l`: the index holds the entries of `l` and nothing else. Where no key occurs
twice, an index follows a list that grows, and one whose upper part is exchanged for
another. -/
namespace Lib.Index
open List

variable {κ ν : Type} [DecidableEq κ] {m : κ → Option ν} {l l' : List (κ × ν)} {k : κ} {v : ν}

/-- Entries written one after the other. -/
def enter (m : κ → Option ν) (l : List (κ × ν)) : κ → Option ν :=
  l.foldl (fun m e => Function.update m e.1 (some e.2)) m

def erase (m : κ → Option ν) (gone : List κ) : κ → Option ν := fun k => if k ∈ gone then none else m k

def Lists (m : κ → Option ν) (l : List (κ × ν)) : Prop := ∀ k v, m k = some v ↔ (k, v) ∈ l

theorem enter_append (m : κ → Option ν) (l l' : List (κ × ν)) : enter m (l ++ l') = enter (enter m l) l' :=
  foldl_append

theorem enter_of_notMem (h : k ∉ l.map Prod.fst) : enter m l k = m k := by
  induction l generalizing m with
  | nil => rfl
  | cons e l ih =>
    rw [map_cons, mem_cons, not_or] at h
    exact (ih h.2).trans (Function.update_of_ne h.1 ..)

theorem enter_of_mem (hnodup : (l.map Prod.fst).Nodup) (h : (k, v) ∈ l) : enter m l k = some v := by
  induction l generalizing m with
  | nil => cases h
  | cons e l ih =>
    rw [map_cons, nodup_cons] at hnodup
    rcases mem_cons.mp h with rfl | h
    · exact (enter_of_notMem hnodup.1).trans (Function.update_self ..)
    · exact ih hnodup.2 h

omit [DecidableEq κ] in
/-- A key that occurs once has one value. -/
theorem eq_of_mem (hnodup : (l.map Prod.fst).Nodup) {v' : ν} (h : (k, v) ∈ l) (h' : (k, v') ∈ l) : v = v' :=
  congrArg Prod.snd (inj_on_of_nodup_map hnodup h h' rfl)

/-- What a list of entries with its own keys leaves of an index. -/
theorem enter_eq_some (hnodup : (l.map Prod.fst).Nodup) :
    enter m l k = some v ↔ (k, v) ∈ l ∨ k ∉ l.map Prod.fst ∧ m k = some v := by
  by_cases hk : k ∈ l.map Prod.fst
  · obtain ⟨⟨k', v'⟩, hmem, rfl⟩ := mem_map.mp hk
    rw [enter_of_mem hnodup hmem, Option.some.injEq]
    constructor
    · intro heq
      exact .inl (heq ▸ hmem)
    · intro h
      rcases h with h | ⟨hnot, _⟩
      · exact eq_of_mem hnodup hmem h
      · exact absurd hk hnot
  · rw [enter_of_notMem hk]
    constructor
    · intro h
      exact .inr ⟨hk, h⟩
    · intro h
      rcases h with h | ⟨_, h⟩
      · exact absurd (mem_map_of_mem h) hk
      · exact h

/-- The list grows by entries with new keys. -/
theorem Lists.enter (h : Lists m l) (hnodup : ((l ++ l').map Prod.fst).Nodup) :
    Lists (enter m l') (l ++ l') := by
  intro k v
  rw [map_append, nodup_append] at hnodup
  obtain ⟨_, hnodup', hapart⟩ := hnodup
  rw [enter_eq_some hnodup', h k v, mem_append]
  constructor
  · intro hor
    exact hor.elim .inr fun hold => .inl hold.2
  · intro hor
    rcases hor with hold | hnew
    · refine .inr ⟨?_, hold⟩
      intro hk
      exact hapart k (mem_map_of_mem hold) k hk rfl
    · exact .inl hnew

/-- Writing entries again changes nothing. -/
theorem Lists.reenter (h : Lists m l) (hnodup : (l.map Prod.fst).Nodup) (hnodup' : (l'.map Prod.fst).Nodup)
    (hsub : ∀ e ∈ l', e ∈ l) : Lists (Index.enter m l') l := by
  intro k v
  rw [enter_eq_some hnodup', h k v]
  constructor
  · intro hor
    exact hor.elim (hsub _) And.right
  · intro hmem
    by_cases hk : k ∈ l'.map Prod.fst
    · obtain ⟨⟨k', v'⟩, hmem', rfl⟩ := mem_map.mp hk
      obtain rfl := eq_of_mem hnodup hmem (hsub _ hmem')
      exact .inl hmem'
    · exact .inr ⟨hk, hmem⟩

/-- **The upper part of the list is exchanged**: the new entries are written, in any
order, and the keys of the old ones that are not among the new are erased. -/
theorem Lists.exchange {old new new' : List (κ × ν)} {gone : List κ} (h : Lists m (l ++ old))
    (hnodup : ((l ++ old).map Prod.fst).Nodup) (hnodup' : ((l ++ new).map Prod.fst).Nodup)
    (hnew : new'.Perm new) (hgone : ∀ k, k ∈ gone ↔ k ∈ old.map Prod.fst ∧ k ∉ new.map Prod.fst) :
    Lists (erase (Index.enter m new') gone) (l ++ new) := by
  intro k v
  rw [map_append, nodup_append] at hnodup hnodup'
  have hkeys : k ∈ new'.map Prod.fst ↔ k ∈ new.map Prod.fst := (hnew.map Prod.fst).mem_iff
  have hnodupNew : (new'.map Prod.fst).Nodup := (hnew.map Prod.fst).nodup_iff.mpr hnodup'.2.1
  unfold erase
  by_cases hk : k ∈ gone
  · rw [if_pos hk]
    obtain ⟨hold, hnot⟩ := (hgone k).mp hk
    refine iff_of_false (by simp) fun hmem => ?_
    rcases mem_append.mp hmem with hlow | hnewMem
    · exact hnodup.2.2 k (mem_map_of_mem hlow) k hold rfl
    · exact hnot (mem_map_of_mem hnewMem)
  · rw [if_neg hk, enter_eq_some hnodupNew, hnew.mem_iff, hkeys, h k v, mem_append, mem_append]
    constructor
    · intro hor
      rcases hor with hnewMem | ⟨hnot, hlow | hold⟩
      · exact .inr hnewMem
      · exact .inl hlow
      · exact absurd ((hgone k).mpr ⟨mem_map_of_mem hold, hnot⟩) hk
    · intro hor
      rcases hor with hlow | hnewMem
      · exact .inr ⟨fun hnewKey => hnodup'.2.2 k (mem_map_of_mem hlow) k hnewKey rfl, .inl hlow⟩
      · exact .inl hnewMem

end Lib.Index
