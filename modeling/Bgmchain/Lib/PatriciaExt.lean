import Bgmchain.Lib.Patricia

/-! # Trees in normal form are determined by what they hold

A tree in normal form has no other form that holds the same entries: an edge is as
long as all keys below it allow, and a branch stands where two keys part. -/
namespace Lib.Patricia
open List

variable {w : Nat} {β : Type}

/-- A tree that is not empty holds something. -/
theorem WF.exists_lookup {t : Tree w β} (h : WF t) (hne : t ≠ .nil) :
    ∃ key v, Terminated key ∧ lookup t key = some v := by
  induction h with
  | nil => exact absurd rfl hne
  | @leaf k v hk =>
    refine ⟨k, v, hk, ?_⟩
    simp [lookup]
  | @ext k cs _ hl _ ih =>
    obtain ⟨key, v, hkey, hv⟩ := ih fun h => by cases h
    refine ⟨k ++ key, v, (terminated_append hl).mpr hkey, ?_⟩
    rw [lookup_short_append, hv]
  | @full cs hc hlast htwo ih =>
    obtain ⟨i, _, _, hi, _⟩ := htwo
    by_cases hi' : i = Fin.last w
    · subst hi'
      rcases hlast with hnil | ⟨v, hv⟩
      · exact absurd hnil hi
      · exact ⟨[Fin.last w], v, by simp, by simp [lookup, hv]⟩
    · obtain ⟨key, v, hkey, hv⟩ := ih i hi' hi
      exact ⟨i :: key, v, (terminated_cons hi').mpr hkey, hv⟩

variable {cs : Digit w → Tree w β}

/-- A child that is not empty holds something behind its digit. -/
theorem WF.exists_lookup_child (h : WF (.full cs)) {i : Digit w} (hi : cs i ≠ .nil) :
    ∃ key v, Terminated (i :: key) ∧ lookup (cs i) key = some v := by
  have hc := (wf_full_iff.mp h).1 i
  by_cases hlast : i = Fin.last w
  · subst hlast
    rcases wfAt_last.mp hc with hnil | ⟨v, hv⟩
    · exact absurd hnil hi
    · exact ⟨[], v, by simp, by simp [lookup, hv]⟩
  · obtain ⟨key, v, hkey, hv⟩ := ((wfAt_of_ne hlast).mp hc).exists_lookup hi
    exact ⟨key, v, (terminated_cons hlast).mpr hkey, hv⟩

/-- Two entries of a branch part at their first digit. -/
theorem WF.exists_lookup_two (h : WF (.full cs)) :
    ∃ i j x y, i ≠ j ∧ Terminated (i :: x) ∧ Terminated (j :: y) ∧
      lookup (.full cs) (i :: x) ≠ none ∧ lookup (.full cs) (j :: y) ≠ none := by
  obtain ⟨i, j, hij, hi, hj⟩ := (wf_full_iff.mp h).2
  obtain ⟨x, a, hx, ha⟩ := h.exists_lookup_child hi
  obtain ⟨y, b, hy, hb⟩ := h.exists_lookup_child hj
  exact ⟨i, j, x, y, hij, hx, hy, by simp [lookup, ha], by simp [lookup, hb]⟩

variable {k : List (Digit w)}

theorem prefix_of_lookup {key : List (Digit w)} {c : Tree w β} (h : lookup (.short k c) key ≠ none) : k <+: key := by
  by_contra hp
  exact h (by simp [lookup, hp])

/-- A common prefix of two keys lies before the digit at which they part. -/
theorem prefix_of_fork {k' x y : List (Digit w)} {i j : Digit w} (hij : i ≠ j) (hx : k' <+: k ++ i :: x)
    (hy : k' <+: k ++ j :: y) : k' <+: k := by
  rcases prefix_or_prefix_of_prefix hx (prefix_append k (i :: x)) with h | ⟨r, rfl⟩
  · exact h
  · rw [prefix_append_right_inj] at hx hy
    cases r with
    | nil => simp
    | cons a r =>
      obtain ⟨rfl, _⟩ := cons_prefix_cons.mp hx
      obtain ⟨rfl, _⟩ := cons_prefix_cons.mp hy
      exact absurd rfl hij

/-- What an edge leads to in a tree in normal form. -/
theorem WF.short_cases {c : Tree w β} (h : WF (.short k c)) :
    (Terminated k ∧ ∃ v, c = .leaf v) ∨ (k ≠ [] ∧ Fin.last w ∉ k ∧ ∃ cs, c = .full cs ∧ WF (.full cs)) := by
  cases h with
  | leaf hk => exact .inl ⟨hk, _, rfl⟩
  | ext hk hl hf => exact .inr ⟨hk, hl, _, rfl, hf⟩

/-- An edge to a branch is the longest prefix that its keys share. -/
theorem WF.edge_prefix {k' : List (Digit w)} {c' : Tree w β} (hl : Fin.last w ∉ k)
    (hf : WF (.full cs)) (h : ∀ key, Terminated key → lookup (.short k (.full cs)) key = lookup (.short k' c') key) :
    k' <+: k := by
  obtain ⟨i, j, x, y, hij, hx, hy, hi, hj⟩ := hf.exists_lookup_two
  have hother : ∀ {key : List (Digit w)}, Terminated key → lookup (.full cs) key ≠ none →
      lookup (.short k' c') (k ++ key) ≠ none := by
    intro key hkey hne
    rwa [← h _ ((terminated_append hl).mpr hkey), lookup_short_append]
  exact prefix_of_fork hij (prefix_of_lookup (hother hx hi)) (prefix_of_lookup (hother hy hj))

/-- A leaf holds one entry, a branch two. -/
theorem WF.leaf_ne (k' : List (Digit w)) {v : β} (hl : Fin.last w ∉ k') (hf : WF (.full cs))
    (h : ∀ key, Terminated key → lookup (.short k (.leaf v)) key = lookup (graft k' (.full cs)) key) : False := by
  obtain ⟨i, j, x, y, hij, hx, hy, hi, hj⟩ := hf.exists_lookup_two
  have honly : ∀ {key : List (Digit w)}, Terminated key → lookup (.full cs) key ≠ none → k' ++ key = k := by
    intro key hkey hne
    rw [← lookup_graft_append k' key, ← h _ ((terminated_append hl).mpr hkey)] at hne
    obtain ⟨r, hr⟩ := prefix_of_lookup hne
    rw [← hr, lookup_short_append] at hne
    have hnil : r = [] := by
      by_contra hne'
      simp [lookup, hne'] at hne
    rw [← hr, hnil, append_nil]
  have heq := (honly hx hi).trans (honly hy hj).symm
  exact hij (cons.inj (append_cancel_left heq)).1

/-- **Trees in normal form that hold the same entries are the same.** -/
theorem WF.ext_lookup {t t' : Tree w β} (ht : WF t) (ht' : WF t')
    (h : ∀ key, Terminated key → lookup t key = lookup t' key) : t = t' := by
  have hnil : ∀ {s : Tree w β}, WF s → (∀ key, Terminated key → lookup s key = none) → s = .nil := by
    intro s hs hnone
    by_contra hne
    obtain ⟨key, v, hkey, hv⟩ := hs.exists_lookup hne
    rw [hnone key hkey] at hv
    cases hv
  induction t generalizing t' with
  | nil => exact (hnil ht' fun key hkey => (h key hkey).symm).symm
  | leaf v => cases ht
  | short k c ih =>
    cases t' with
    | nil => exact hnil ht h
    | leaf v => cases ht'
    | full cs' =>
      exfalso
      rcases ht.short_cases with ⟨_, v, rfl⟩ | ⟨hk, hl, cs, rfl, hf⟩
      · exact WF.leaf_ne [] (by simp) ht' h
      · obtain ⟨i, j, x, y, hij, hx, hy, hi, hj⟩ := ht'.exists_lookup_two
        rw [← h _ hx] at hi
        rw [← h _ hy] at hj
        exact hk (prefix_nil.mp (prefix_of_fork hij (prefix_of_lookup hi) (prefix_of_lookup hj)))
    | short k' c' =>
      rcases ht.short_cases with ⟨hk, v, rfl⟩ | ⟨hk, hl, cs, rfl, hf⟩
      · rcases ht'.short_cases with ⟨hk', v', rfl⟩ | ⟨hk', hl', cs', rfl, hf'⟩
        · have hself : lookup (.short k (.leaf v)) k = some v := by simp [lookup]
          have hother := h k hk
          rw [hself] at hother
          obtain rfl := (hk'.prefix_eq hk (prefix_of_lookup (c := .leaf v') (by rw [← hother]; simp)))
          simp only [lookup, prefix_refl, if_true, drop_length, Option.some.injEq] at hother
          rw [hother]
        · have hgraft : graft k' (.full cs') = .short k' (.full cs') := if_neg hk'
          rw [← hgraft] at h
          exact (WF.leaf_ne k' hl' hf' h).elim
      · rcases ht'.short_cases with ⟨hk', v', rfl⟩ | ⟨hk', hl', cs', rfl, hf'⟩
        · have hgraft : graft k (.full cs) = .short k (.full cs) := if_neg hk
          rw [← hgraft] at h
          exact (WF.leaf_ne k hl hf fun key hkey => (h key hkey).symm).elim
        · have hkk : k = k' := List.IsPrefix.eq_of_length_le
            (WF.edge_prefix hl' hf' fun key hkey => (h key hkey).symm) (WF.edge_prefix hl hf h).length_le
          subst hkk
          rw [ih hf hf' fun key hkey => ?_]
          have := h (k ++ key) ((terminated_append hl).mpr hkey)
          rwa [lookup_short_append, lookup_short_append] at this
  | full cs ih =>
    cases t' with
    | nil => exact hnil ht h
    | leaf v => cases ht'
    | short k' c' =>
      exfalso
      rcases ht'.short_cases with ⟨_, v, rfl⟩ | ⟨hk, hl, cs', rfl, hf⟩
      · exact WF.leaf_ne [] (by simp) ht fun key hkey => (h key hkey).symm
      · obtain ⟨i, j, x, y, hij, hx, hy, hi, hj⟩ := ht.exists_lookup_two
        rw [h _ hx] at hi
        rw [h _ hy] at hj
        exact hk (prefix_nil.mp (prefix_of_fork hij (prefix_of_lookup hi) (prefix_of_lookup hj)))
    | full cs' =>
      refine congrArg Tree.full (funext fun i => ?_)
      have hc := (wf_full_iff.mp ht).1 i
      have hc' := (wf_full_iff.mp ht').1 i
      by_cases hlast : i = Fin.last w
      · subst hlast
        have hval := h [Fin.last w] (by simp)
        rcases wfAt_last.mp hc with hn | ⟨v, hv⟩
        · rcases wfAt_last.mp hc' with hn' | ⟨v', hv'⟩
          · rw [hn, hn']
          · simp [hn, hv', lookup] at hval
        · rcases wfAt_last.mp hc' with hn' | ⟨v', hv'⟩
          · simp [hv, hn', lookup] at hval
          · simp only [hv, hv', lookup, if_true, Option.some.injEq] at hval
            rw [hv, hv', hval]
      · exact ih i ((wfAt_of_ne hlast).mp hc) ((wfAt_of_ne hlast).mp hc') fun key hkey =>
          h (i :: key) ((terminated_cons hlast).mpr hkey)

/-! ## The way of a key -/

/-- The edges and branches that a key passes. -/
def along : Tree w β → List (Digit w) → List (Tree w β)
  | .short k c, key => .short k c :: if k <+: key then along c (key.drop k.length) else []
  | .full cs, i :: key => .full cs :: along (cs i) key
  | .full _, [] => []
  | .nil, _ => []
  | .leaf _, _ => []

theorem along_short_append (k key : List (Digit w)) (c : Tree w β) :
    along (.short k c) (k ++ key) = .short k c :: along c key := by
  rw [along, if_pos (prefix_append _ _), drop_left]

end Lib.Patricia
