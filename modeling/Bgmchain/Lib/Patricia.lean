import Mathlib

/-! # Patricia trees over terminated keys

Trees with compressed edges and branches of `w + 1` slots. The last digit is a
terminator: a key is a list of digits that ends with it and has it nowhere
else, so no key is a prefix of another and a leaf is reached exactly when its
key is used up. Lookup, insertion and deletion on whole trees, the normal form
they keep, and what they do to the finite map the tree stands for. -/
namespace Lib.Patricia
open Function List

/-- One step of a path: `w` ordinary digits and the terminator. -/
abbrev Digit (w : Nat) := Fin (w + 1)

inductive Tree (w : Nat) (β : Type) where
  | nil
  | leaf (v : β)
  | short (key : List (Digit w)) (child : Tree w β)
  | full (children : Digit w → Tree w β)

variable {w : Nat} {β : Type}

/-- Ends with the terminator and has it nowhere before. -/
def Terminated : List (Digit w) → Prop
  | [] => False
  | i :: key => if i = Fin.last w then key = [] else Terminated key

def lookup : Tree w β → List (Digit w) → Option β
  | .nil, _ => none
  | .leaf v, key => if key = [] then some v else none
  | .short k c, key => if k <+: key then lookup c (key.drop k.length) else none
  | .full _, [] => none
  | .full cs, i :: key => lookup (cs i) key

/-! ## Common prefixes -/

/-- The number of leading digits two keys share. -/
def prefixLen : List (Digit w) → List (Digit w) → Nat
  | a :: as, b :: bs => if a = b then prefixLen as bs + 1 else 0
  | _, _ => 0

/-- The shared part and the two rests, whose first digits differ. -/
theorem prefixLen_split (a b : List (Digit w)) : ∃ p x y, a = p ++ x ∧ b = p ++ y ∧ prefixLen a b = p.length ∧
      ∀ i x' j y', x = i :: x' → y = j :: y' → i ≠ j := by
  induction a generalizing b with
  | nil => exact ⟨[], [], b, rfl, rfl, by simp [prefixLen], by simp⟩
  | cons i as ih =>
    cases b with
    | nil => exact ⟨[], i :: as, [], rfl, rfl, by simp [prefixLen], by simp⟩
    | cons j bs =>
      by_cases hij : i = j
      · subst hij
        obtain ⟨p, x, y, ha, hb, hl, hd⟩ := ih bs
        exact ⟨i :: p, x, y, by simp [ha], by simp [hb], by simp [prefixLen, hl], hd⟩
      · refine ⟨[], i :: as, j :: bs, rfl, rfl, by simp [prefixLen, hij], ?_⟩
        intro i' x' j' y' hx hy
        cases hx; cases hy
        exact hij

theorem prefixLen_append (p x y : List (Digit w)) : prefixLen (p ++ x) (p ++ y) = p.length + prefixLen x y := by
  induction p with
  | nil => simp
  | cons i p ih => simp [prefixLen, ih]; omega

/-! ## Terminated keys -/

variable {key : List (Digit w)}

theorem Terminated.ne_nil (h : Terminated key) : key ≠ [] := by
  rintro rfl
  exact h

variable {p x : List (Digit w)}

theorem terminated_append (hp : Fin.last w ∉ p) : Terminated (p ++ x) ↔ Terminated x := by
  induction p with
  | nil => simp
  | cons i p ih =>
    have hi : i ≠ Fin.last w := fun he => hp (by simp [he])
    simp [Terminated, hi, ih (fun hm => hp (by simp [hm]))]

theorem terminated_concat (hp : Fin.last w ∉ p) : Terminated (p ++ [Fin.last w]) := by
  rw [terminated_append hp]
  simp [Terminated]

/-- Only the empty list follows a terminated key. -/
theorem Terminated.append_eq (h : Terminated (p ++ x)) (hp : Fin.last w ∈ p) : x = [] := by
  induction p with
  | nil => simp at hp
  | cons i p ih =>
    by_cases hi : i = Fin.last w
    · simp only [cons_append, Terminated, hi, if_true] at h
      exact (append_eq_nil_iff.mp h).2
    · simp only [cons_append, Terminated, hi, if_false] at h
      exact ih h (by simpa [Ne.symm hi] using hp)

theorem Terminated.last_mem (h : Terminated key) : Fin.last w ∈ key := by
  induction key with
  | nil => exact h.elim
  | cons i key ih =>
    by_cases hi : i = Fin.last w
    · simp [hi]
    · simp only [Terminated, hi, if_false] at h
      exact mem_cons_of_mem _ (ih h)

/-- A terminated key is not a proper prefix of another. -/
theorem Terminated.prefix_eq {a b : List (Digit w)} (ha : Terminated a) (hb : Terminated b)
    (h : a <+: b) : a = b := by
  obtain ⟨x, rfl⟩ := h
  rw [hb.append_eq ha.last_mem, append_nil]

variable {i : Digit w}

theorem terminated_cons (hi : i ≠ Fin.last w) :
    Terminated (i :: key) ↔ Terminated key := by simp [Terminated, hi]

@[simp] theorem terminated_last :
    Terminated (Fin.last w :: key) ↔ key = [] := by simp [Terminated]

theorem Terminated.exists_concat (h : Terminated key) : ∃ p, Fin.last w ∉ p ∧ key = p ++ [Fin.last w] := by
  induction key with
  | nil => exact h.elim
  | cons i key ih =>
    by_cases hi : i = Fin.last w
    · subst hi
      exact ⟨[], not_mem_nil, by rw [terminated_last.mp h]; rfl⟩
    · obtain ⟨p, hp, rfl⟩ := ih ((terminated_cons hi).mp h)
      exact ⟨i :: p, by simp only [mem_cons, not_or]; exact ⟨Ne.symm hi, hp⟩, rfl⟩

/-! ## Normal form -/

/-- What insertion and deletion keep: leaves sit at the end of terminated keys,
an edge without terminator leads to a branch, and a branch has two children. -/
inductive WF : Tree w β → Prop
  | nil : WF .nil
  | leaf {k v} : Terminated k → WF (.short k (.leaf v))
  | ext {k cs} : k ≠ [] → Fin.last w ∉ k → WF (.full cs) → WF (.short k (.full cs))
  | full {cs} : (∀ i, i ≠ Fin.last w → WF (cs i)) →
      (cs (Fin.last w) = .nil ∨ ∃ v, cs (Fin.last w) = .leaf v) →
      (∃ i j, i ≠ j ∧ cs i ≠ .nil ∧ cs j ≠ .nil) → WF (.full cs)

/-- A tree below an edge: a node in normal form, or a leaf once the terminator
has been passed. -/
def WFAt (i : Digit w) (t : Tree w β) : Prop :=
  if i = Fin.last w then t = .nil ∨ ∃ v, t = .leaf v else WF t

variable {t : Tree w β}

theorem wfAt_of_ne (hi : i ≠ Fin.last w) : WFAt i t ↔ WF t := by
  simp [WFAt, hi]

theorem wfAt_last :
    WFAt (Fin.last w) t ↔ t = .nil ∨ ∃ v, t = .leaf v := by simp [WFAt]

variable {cs : Digit w → Tree w β}

theorem wf_full_iff : WF (.full cs) ↔ (∀ i, WFAt i (cs i)) ∧ ∃ i j, i ≠ j ∧ cs i ≠ .nil ∧ cs j ≠ .nil := by
  constructor
  · intro h
    cases h with
    | full hc hl ht =>
      refine ⟨fun i => ?_, ht⟩
      by_cases hi : i = Fin.last w
      · subst hi; exact wfAt_last.mpr hl
      · exact (wfAt_of_ne hi).mpr (hc i hi)
  · rintro ⟨hc, ht⟩
    exact .full (fun i hi => (wfAt_of_ne hi).mp (hc i)) (wfAt_last.mp (hc _)) ht

/-- A tree and a remaining key at one position: a leaf (or nothing) where the
key is used up, a tree in normal form where a terminated key is left. -/
def Fits (t : Tree w β) (key : List (Digit w)) : Prop :=
  (key = [] ∧ (t = .nil ∨ ∃ v, t = .leaf v)) ∨ (Terminated key ∧ WF t)

theorem WF.fits (h : WF t) (hk : Terminated key) :
    Fits t key := .inr ⟨hk, h⟩

theorem Fits.full_child (h : Fits (.full cs) (i :: key)) : Fits (cs i) key := by
  rcases h with ⟨hk, _⟩ | ⟨hk, hw⟩
  · cases hk
  · have hc := (wf_full_iff.mp hw).1 i
    by_cases hi : i = Fin.last w
    · subst hi
      exact .inl ⟨terminated_last.mp hk, wfAt_last.mp hc⟩
    · exact .inr ⟨(terminated_cons hi).mp hk, (wfAt_of_ne hi).mp hc⟩

variable {k : List (Digit w)} {c : Tree w β}

theorem Fits.short_child (h : Fits (.short k c) (k ++ key)) : Fits c key := by
  rcases h with ⟨_, hc⟩ | ⟨hk, hw⟩
  · simp at hc
  · cases hw with
    | leaf ht => exact .inl ⟨hk.append_eq ht.last_mem, .inr ⟨_, rfl⟩⟩
    | ext _ hl hf => exact .inr ⟨(terminated_append hl).mp hk, hf⟩

theorem Fits.key_ne_nil (h : Fits (.short k c) key) : Terminated key ∧ WF (.short k c) := by
  rcases h with ⟨_, hc⟩ | h
  · simp at hc
  · exact h

theorem Fits.leaf_key {v : β} (h : Fits (.leaf v) key) : key = [] := by
  rcases h with ⟨hk, _⟩ | ⟨_, hw⟩
  · exact hk
  · cases hw

theorem Fits.full_key (h : Fits (.full cs) key) : Terminated key ∧ WF (.full cs) := by
  rcases h with ⟨_, hc⟩ | h
  · simp at hc
  · exact h

/-- A key that fits under an edge either runs along the whole edge or leaves it
at a digit of its own. -/
theorem Fits.split (h : Fits (.short k c) key) : (∃ rest, key = k ++ rest) ∨
      ∃ p a ka b kb, key = p ++ a :: ka ∧ k = p ++ b :: kb ∧ a ≠ b := by
  obtain ⟨p, x, y, hx, hy, _, hd⟩ := prefixLen_split key k
  obtain ⟨hk, hw⟩ := h.key_ne_nil
  cases y with
  | nil => exact .inl ⟨x, by rw [hx, hy]; simp⟩
  | cons b kb =>
    cases x with
    | cons a ka => exact .inr ⟨p, a, ka, b, kb, hx, hy, hd _ _ _ _ rfl rfl⟩
    | nil =>
      -- the key would end inside the edge, where no terminator can stand
      exfalso
      rw [append_nil] at hx
      subst hx
      cases hw with
      | leaf ht => exact absurd ((hy ▸ ht).append_eq hk.last_mem) (by simp)
      | ext _ hl _ => exact hl (by rw [hy]; simp [hk.last_mem])

/-- Only terminated keys have values. -/
theorem lookup_terminated {v : β} (h : WF t) (hl : lookup t key = some v) : Terminated key := by
  induction h generalizing key with
  | nil => cases hl
  | @leaf k _ ht =>
    simp only [lookup] at hl
    split at hl
    next hp =>
      obtain ⟨x, rfl⟩ := hp
      split at hl
      next hx =>
        rw [drop_left] at hx
        simpa [hx] using ht
      · cases hl
    · cases hl
  | @ext k cs _ hlast _ ih =>
    rw [lookup] at hl
    split at hl
    next hp =>
      obtain ⟨x, rfl⟩ := hp
      rw [drop_left] at hl
      exact (terminated_append hlast).mpr (ih hl)
    · cases hl
  | @full cs _ hlast _ ih =>
    cases key with
    | nil => cases hl
    | cons i key =>
      by_cases hi : i = Fin.last w
      · subst hi
        rw [lookup] at hl
        rcases hlast with hn | ⟨v', hv'⟩
        · simp [hn, lookup] at hl
        · simp only [hv', lookup] at hl
          split at hl
          · simpa using ‹key = []›
          · cases hl
      · exact (terminated_cons hi).mpr (ih i hi hl)

/-! ## Edges -/

/-- A tree below an edge that may be empty. -/
def graft (k : List (Digit w)) (t : Tree w β) : Tree w β := if k = [] then t else .short k t

section
variable (k key : List (Digit w)) (t : Tree w β)

theorem lookup_graft : lookup (graft k t) key = if k <+: key then lookup t (key.drop k.length) else none := by
  by_cases hk : k = []
  · simp [graft, hk]
  · simp [graft, hk, lookup]

theorem lookup_graft_append :
    lookup (graft k t) (k ++ key) = lookup t key := by simp [lookup_graft]

theorem lookup_short_append :
    lookup (.short k t) (k ++ key) = lookup t key := by simp [lookup]

/-- Put an edge above a tree, merging it with the tree's own edge. -/
def prepend (k : List (Digit w)) : Tree w β → Tree w β
  | .short k' c => .short (k ++ k') c
  | t => .short k t

theorem prefix_append_iff (k k' key : List (Digit w)) :
    k ++ k' <+: key ↔ k <+: key ∧ k' <+: key.drop k.length := by
  constructor
  · rintro ⟨x, rfl⟩
    exact ⟨⟨k' ++ x, by simp⟩, ⟨x, by simp⟩⟩
  · rintro ⟨⟨x, rfl⟩, h⟩
    simpa using h

theorem lookup_prepend :
    lookup (prepend k t) key = if k <+: key then lookup t (key.drop k.length) else none := by
  cases t with
  | short k' c =>
    simp only [prepend, lookup, prefix_append_iff, length_append, ← drop_drop]
    by_cases h : k <+: key <;> simp [h]
  | _ => rfl

theorem prepend_ne_nil (k : List (Digit w)) (t : Tree w β) : prepend k t ≠ .nil := by
  cases t <;> simp [prepend]

/-! ## Insertion -/

def insert : Tree w β → List (Digit w) → β → Tree w β
  | .nil, key, v => graft key (.leaf v)
  | .leaf _, _, v => .leaf v
  | .short k c, key, v =>
    let m := prefixLen key k
    if m = k.length then .short k (insert c (key.drop m) v)
    else match k.drop m, key.drop m with
      | b :: kb, a :: ka =>
        graft (key.take m) (.full (update
          (update (fun _ => .nil) b (graft kb c)) a (graft ka (.leaf v))))
      | _, _ => .short k c
  | .full cs, [], _ => .full cs
  | .full cs, i :: key, v => .full (update cs i (insert (cs i) key v))

/-- The branch insertion makes where a new key leaves an edge. -/
def fork (a : Digit w) (ka : List (Digit w)) (b : Digit w) (kb : List (Digit w))
    (c : Tree w β) (v : β) : Tree w β :=
  .full (update (update (fun _ => .nil) b (graft kb c)) a (graft ka (.leaf v)))

theorem insert_short_along (c : Tree w β) (v : β) :
    insert (.short k c) (k ++ key) v = .short k (insert c key v) := by
  have hm : prefixLen (k ++ key) k = k.length := by
    simpa [prefixLen] using prefixLen_append k key []
  simp [insert, hm]

end

variable {ka kb : List (Digit w)} {a b : Digit w}

theorem insert_short_fork (hab : a ≠ b) (c : Tree w β) (v : β) :
    insert (.short (p ++ b :: kb) c) (p ++ a :: ka) v = graft p (fork a ka b kb c v) := by
  have hm : prefixLen (p ++ a :: ka) (p ++ b :: kb) = p.length := by
    simp [prefixLen_append, prefixLen, hab]
  simp [insert, hm, fork]

theorem lookup_fork_self (c : Tree w β) (v : β) (key : List (Digit w)) :
    lookup (fork a ka b kb c v) (a :: key) = if key = ka then some v else none := by
  simp only [fork, lookup, update_self, lookup_graft]
  by_cases hk : ka <+: key
  · obtain ⟨x, rfl⟩ := hk
    simp [eq_comm]
  · have hne : key ≠ ka := by rintro rfl; exact hk (prefix_refl _)
    simp [hk, hne]

theorem lookup_fork_other (hi : i ≠ a) (c : Tree w β) (v : β) (key : List (Digit w)) :
    lookup (fork a ka b kb c v) (i :: key) =
      if b :: kb <+: i :: key then lookup c (key.drop kb.length) else none := by
  simp only [fork, lookup, update_of_ne hi, cons_prefix_cons]
  by_cases hb : i = b
  · subst hb
    simp [lookup_graft]
  · simp [update_of_ne hb, lookup, Ne.symm hb]

/-- **Insertion is a map update.** -/
theorem lookup_insert {key' : List (Digit w)} (v : β) (h : Fits t key) (h' : Fits t key') :
    lookup (insert t key v) key' = if key' = key then some v else lookup t key' := by
  induction t generalizing key key' with
  | nil =>
    simp only [insert, lookup_graft, lookup]
    by_cases hp : key <+: key'
    · obtain ⟨x, rfl⟩ := hp
      simp
    · have hne : key' ≠ key := by rintro rfl; exact hp (prefix_refl _)
      simp [hp, hne]
  | leaf v' => simp [insert, lookup, h.leaf_key, h'.leaf_key]
  | short k c ih =>
    rcases h.split with ⟨rest, rfl⟩ | ⟨p, a, ka, b, kb, rfl, rfl, hab⟩
    · rw [insert_short_along]
      rcases h'.split with ⟨rest', rfl⟩ | ⟨p, a', ka', b', kb', rfl, rfl, hab'⟩
      · simp [lookup_short_append, ih h.short_child h'.short_child]
      · have hn : ¬ p ++ b' :: kb' <+: p ++ a' :: ka' := by
          rw [prefix_append_right_inj, cons_prefix_cons]
          exact fun hc => hab' hc.1.symm
        have hne : p ++ a' :: ka' ≠ p ++ b' :: kb' ++ rest := by
          simp [append_assoc, hab']
        rw [if_neg hne]
        simp [lookup, hn]
    · rw [insert_short_fork hab, lookup_graft]
      by_cases hp : p <+: key'
      · obtain ⟨x, rfl⟩ := hp
        simp only [prefix_append, if_true, drop_left, append_cancel_left_eq]
        cases x with
        | nil =>
          -- the other key would end where this one branches off
          exfalso
          rw [append_nil] at h'
          simpa using h.key_ne_nil.1.append_eq h'.key_ne_nil.1.last_mem
        | cons i x =>
          by_cases hi : i = a
          · subst hi
            have hn : ¬ p ++ b :: kb <+: p ++ i :: x := by
              rw [prefix_append_right_inj, cons_prefix_cons]
              exact fun hc => hab hc.1.symm
            simp [lookup_fork_self, lookup, hn]
          · simp [lookup_fork_other hi, lookup, prefix_append_right_inj, hi]
      · have hne : key' ≠ p ++ a :: ka := by rintro rfl; exact hp (prefix_append _ _)
        have hn : ¬ p ++ b :: kb <+: key' := fun hc => hp ((prefix_append _ _).trans hc)
        simp [lookup, hp, hn, hne]
  | full cs ih =>
    cases key with
    | nil => exact (h.full_key.1).elim
    | cons i key =>
      cases key' with
      | nil => exact (h'.full_key.1).elim
      | cons j key' =>
        simp only [insert, lookup]
        by_cases hj : j = i
        · subst hj
          simp [ih j h.full_child h'.full_child]
        · simp [hj]

theorem graft_ne_nil (h : t ≠ .nil) : graft k t ≠ .nil := by
  unfold graft
  split
  · exact h
  · simp

theorem insert_ne_nil (v : β) : insert t key v ≠ .nil := by
  cases t with
  | nil => exact graft_ne_nil (by simp)
  | leaf _ => simp [insert]
  | short k c =>
    simp only [insert]
    split
    · simp
    · split
      · exact graft_ne_nil (by simp)
      · simp
  | full cs => cases key <;> simp [insert]

theorem wfAt_graft_leaf (v : β) (h : Terminated (a :: ka)) : WFAt a (graft ka (.leaf v)) := by
  by_cases ha : a = Fin.last w
  · subst ha
    rw [terminated_last.mp h]
    exact wfAt_last.mpr (.inr ⟨v, rfl⟩)
  · have hk := (terminated_cons ha).mp h
    rw [wfAt_of_ne ha, graft, if_neg hk.ne_nil]
    exact .leaf hk

/-- What is left below an edge after its first digits are cut off. -/
theorem wfAt_graft_tail (h : WF (.short (p ++ b :: kb) c)) (hp : Fin.last w ∉ p) : WFAt b (graft kb c) := by
  cases h with
  | leaf ht => exact wfAt_graft_leaf _ ((terminated_append hp).mp ht)
  | ext _ hl hf =>
    have hb : b ≠ Fin.last w := fun he => hl (by simp [he])
    rw [wfAt_of_ne hb, graft]
    split
    · exact hf
    · exact .ext ‹_› (fun hm => hl (by simp [hm])) hf

theorem wf_fork (v : β) (hab : a ≠ b)
    (ha : Terminated (a :: ka)) (hb : WFAt b (graft kb c)) (hc : c ≠ .nil) : WF (fork a ka b kb c v) := by
  refine wf_full_iff.mpr ⟨fun i => ?_, a, b, hab, ?_, ?_⟩
  · by_cases hi : i = a
    · subst hi
      simpa using wfAt_graft_leaf v ha
    · by_cases hj : i = b
      · subst hj
        simpa [hi] using hb
      · simp only [update_of_ne hi, update_of_ne hj]
        unfold WFAt
        split
        · exact .inl rfl
        · exact .nil
  · simpa using graft_ne_nil (by simp)
  · simpa [update_of_ne hab.symm] using graft_ne_nil hc

theorem wf_graft_fork {t : Digit w → Tree w β} (hp : Fin.last w ∉ p)
    (h : WF (.full t)) : WF (graft p (.full t)) := by
  unfold graft
  split
  · exact h
  · exact .ext ‹_› hp h

/-- A child that is changed keeps its place. -/
theorem wfAt_update {cs : Digit w → Tree w β} {i : Digit w} {c : Tree w β} (hk : Terminated (i :: key))
    (hall : ∀ j, WFAt j (cs j)) (hlast : key = [] → c = .nil ∨ ∃ v, c = .leaf v) (hwf : Terminated key → WF c)
    (j : Digit w) : WFAt j (update cs i c j) := by
  by_cases hj : j = i
  · subst hj
    rw [update_self]
    by_cases hl : j = Fin.last w
    · subst hl
      exact wfAt_last.mpr (hlast (terminated_last.mp hk))
    · exact (wfAt_of_ne hl).mpr (hwf ((terminated_cons hl).mp hk))
  · rw [update_of_ne hj]
    exact hall j

/-- Insertion keeps the normal form, and a leaf stays a leaf. -/
theorem insert_fits (v : β) (h : Fits t key) :
    (key = [] → insert t key v = .leaf v) ∧ (Terminated key → WF (insert t key v)) := by
  induction t generalizing key with
  | nil =>
    refine ⟨fun hk => by simp [insert, graft, hk], fun hk => ?_⟩
    rw [insert, graft, if_neg hk.ne_nil]
    exact .leaf hk
  | leaf v' =>
    refine ⟨fun _ => rfl, fun hk => absurd h.leaf_key hk.ne_nil⟩
  | short k c ih =>
    obtain ⟨hk, hw⟩ := h.key_ne_nil
    refine ⟨fun hn => absurd hn hk.ne_nil, fun _ => ?_⟩
    rcases h.split with ⟨rest, rfl⟩ | ⟨p, a, ka, b, kb, rfl, rfl, hab⟩
    · rw [insert_short_along]
      obtain ⟨ih1, ih2⟩ := ih h.short_child
      cases hw with
      | leaf ht =>
        rw [ih1 (hk.append_eq ht.last_mem)]
        exact .leaf ht
      | @ext k cs hkn hl hf =>
        have hr := (terminated_append hl).mp hk
        have hwf := ih2 hr
        cases rest with
        | nil => exact hr.elim
        | cons i rest => exact .ext hkn hl hwf
    · rw [insert_short_fork hab]
      have hp : Fin.last w ∉ p := fun hm => absurd (hk.append_eq hm) (by simp)
      have hc : c ≠ .nil := by rintro rfl; cases hw
      exact wf_graft_fork hp (wf_fork v hab ((terminated_append hp).mp hk)
        (wfAt_graft_tail hw hp) hc)
  | full cs ih =>
    obtain ⟨hk, hw⟩ := h.full_key
    cases key with
    | nil => exact hk.elim
    | cons i key =>
      refine ⟨by simp, fun _ => ?_⟩
      obtain ⟨hall, a, b, hab, ha, hb⟩ := wf_full_iff.mp hw
      have hne : ∀ j, cs j ≠ .nil → update cs i (insert (cs i) key v) j ≠ .nil := by
        intro j hj
        by_cases hji : j = i
        · subst hji; simpa using insert_ne_nil v
        · simpa [hji] using hj
      obtain ⟨ih1, ih2⟩ := ih i h.full_child
      exact wf_full_iff.mpr ⟨wfAt_update hk hall (fun hnil => .inr ⟨v, ih1 hnil⟩) ih2, a, b, hab, hne a ha, hne b hb⟩

theorem WF.insert (h : WF t) (hk : Terminated key)
    (v : β) : WF (insert t key v) := (insert_fits v (h.fits hk)).2 hk

/-! ## Deletion -/

def isNil : Tree w β → Bool
  | .nil => true
  | _ => false

theorem isNil_iff : isNil t = true ↔ t = .nil := by cases t <;> simp [isNil]

/-- The slots of a branch that are in use, in order. -/
def occupied (cs : Digit w → Tree w β) : List (Digit w) :=
  (finRange (w + 1)).filter fun i => !isNil (cs i)

theorem mem_occupied : i ∈ occupied cs ↔ cs i ≠ .nil := by
  simp [occupied, ← isNil_iff]

/-- A branch left with one child becomes an edge to it. -/
def collapse (cs : Digit w → Tree w β) : Tree w β :=
  match occupied cs with
  | [i] => prepend [i] (cs i)
  | _ => .full cs

/-- Deletion of a key; `none` when it is absent. -/
def erase : Tree w β → List (Digit w) → Option (Tree w β)
  | .nil, _ => none
  | .leaf _, _ => some .nil
  | .short k c, key =>
    let m := prefixLen key k
    if m < k.length then none
    else if m = key.length then some .nil
    else (erase c (key.drop k.length)).map (prepend k)
  | .full _, [] => none
  | .full cs, i :: key => (erase (cs i) key).map fun c => collapse (update cs i c)

section
variable (cs : Digit w → Tree w β)

theorem collapse_cases : (∃ i, collapse cs = prepend [i] (cs i) ∧ cs i ≠ .nil ∧ ∀ j, j ≠ i → cs j = .nil) ∨
      (collapse cs = .full cs ∧ ∀ i, occupied cs ≠ [i]) := by
  cases ho : occupied cs with
  | nil => exact .inr ⟨by simp [collapse, ho], by simp⟩
  | cons i rest =>
    cases rest with
    | cons j rest => exact .inr ⟨by simp [collapse, ho], by simp⟩
    | nil =>
      refine .inl ⟨i, by simp [collapse, ho], mem_occupied.mp (by simp [ho]), fun j hj => ?_⟩
      by_contra hn
      have hm := mem_occupied.mpr hn
      rw [ho] at hm
      exact hj (by simpa using hm)

theorem lookup_collapse (key : List (Digit w)) : lookup (collapse cs) key = lookup (.full cs) key := by
  rcases collapse_cases cs with ⟨i, hc, _, hn⟩ | ⟨hc, _⟩
  · rw [hc, lookup_prepend]
    cases key with
    | nil => simp [lookup]
    | cons j key =>
      by_cases hj : j = i
      · subst hj; simp [lookup]
      · simp [lookup, hn j hj, Ne.symm hj]
  · rw [hc]

theorem collapse_ne_nil : collapse cs ≠ .nil := by
  rcases collapse_cases cs with ⟨i, hc, _, _⟩ | ⟨hc, _⟩
  · rw [hc]; exact prepend_ne_nil _ _
  · rw [hc]; simp

end

theorem erase_short_along (k key : List (Digit w)) (c : Tree w β) : erase (.short k c) (k ++ key) =
      if key = [] then some .nil else (erase c key).map (prepend k) := by
  have hm : prefixLen (k ++ key) k = k.length := by
    simpa [prefixLen] using prefixLen_append k key []
  simp [erase, hm]

theorem erase_short_fork (hab : a ≠ b)
    (c : Tree w β) : erase (.short (p ++ b :: kb) c) (p ++ a :: ka) = none := by
  have hm : prefixLen (p ++ a :: ka) (p ++ b :: kb) = p.length := by
    simp [prefixLen_append, prefixLen, hab]
  simp [erase, hm]

/-- Nothing to delete: the key was absent. -/
theorem erase_none (h : Fits t key) (he : erase t key = none) : lookup t key = none := by
  induction t generalizing key with
  | nil => rfl
  | leaf v => simp [erase] at he
  | short k c ih =>
    rcases h.split with ⟨rest, rfl⟩ | ⟨p, a, ka, b, kb, rfl, rfl, hab⟩
    · rw [erase_short_along] at he
      split at he
      · cases he
      · rw [lookup_short_append]
        exact ih h.short_child (by simpa using he)
    · have hn : ¬ p ++ b :: kb <+: p ++ a :: ka := by
        rw [prefix_append_right_inj, cons_prefix_cons]
        exact fun hc => hab hc.1.symm
      simp [lookup, hn]
  | full cs ih =>
    cases key with
    | nil => rfl
    | cons i key => exact ih i h.full_child (by simpa [erase] using he)

variable {t' : Tree w β}

/-- **Deletion removes one key from the map.** -/
theorem lookup_erase {key' : List (Digit w)} (h : Fits t key) (h' : Fits t key') (he : erase t key = some t') :
    lookup t' key' = if key' = key then none else lookup t key' := by
  induction t generalizing key key' t' with
  | nil => simp [erase] at he
  | leaf v =>
    cases he
    simp [lookup, h.leaf_key, h'.leaf_key]
  | short k c ih =>
    rcases h.split with ⟨rest, rfl⟩ | ⟨p, a, ka, b, kb, rfl, rfl, hab⟩
    · rw [erase_short_along] at he
      split at he
      next hr =>
        cases he
        subst hr
        rw [append_nil] at h ⊢
        have hk := h.key_ne_nil.1
        by_cases hkk : key' = k
        · simp [hkk, lookup]
        · have hn : ¬ k <+: key' := fun hp => hkk (hk.prefix_eq h'.key_ne_nil.1 hp).symm
          simp [hkk, lookup, hn]
      · obtain ⟨c', hc', rfl⟩ := Option.map_eq_some_iff.mp he
        rw [lookup_prepend]
        by_cases hp : k <+: key'
        · obtain ⟨x, rfl⟩ := hp
          simp [lookup_short_append, ih h.short_child h'.short_child hc']
        · have hne : key' ≠ k ++ rest := by rintro rfl; exact hp (prefix_append _ _)
          simp [hp, hne, lookup]
    · rw [erase_short_fork hab] at he
      cases he
  | full cs ih =>
    cases key with
    | nil => cases he
    | cons i key =>
      obtain ⟨c', hc', rfl⟩ := Option.map_eq_some_iff.mp he
      rw [lookup_collapse]
      cases key' with
      | nil => exact (h'.full_key.1).elim
      | cons j key' =>
        simp only [lookup]
        by_cases hj : j = i
        · subst hj
          simp [ih j h.full_child h'.full_child hc']
        · simp [hj]

/-- An edge above a tree in normal form, merged with the tree's own edge. -/
theorem wf_prepend (hk : k ≠ []) (hl : Fin.last w ∉ k) (h : WF t) (hn : t ≠ .nil) : WF (prepend k t) := by
  cases h with
  | nil => exact absurd rfl hn
  | leaf ht => exact .leaf ((terminated_append hl).mpr ht)
  | ext _ hl' hf => exact .ext (by simp [hk]) (by simp [hl, hl']) hf
  | full hc hlast ht => exact .ext hk hl (.full hc hlast ht)

theorem wf_collapse (h : ∀ i, WFAt i (cs i)) (hne : ∃ i, cs i ≠ .nil) : WF (collapse cs) := by
  rcases collapse_cases cs with ⟨i, hc, hi, _⟩ | ⟨hc, hno⟩
  · rw [hc]
    by_cases hl : i = Fin.last w
    · subst hl
      rcases wfAt_last.mp (h _) with hn | ⟨v, hv⟩
      · exact absurd hn hi
      · rw [hv]
        exact .leaf (by simp)
    · exact wf_prepend (by simp) (by simpa using Ne.symm hl) ((wfAt_of_ne hl).mp (h i)) hi
  · rw [hc]
    refine wf_full_iff.mpr ⟨h, ?_⟩
    obtain ⟨i, hi⟩ := hne
    by_contra hn
    push Not at hn
    -- a single occupied slot would have been collapsed
    apply hno i
    have hall : ∀ j ∈ occupied cs, j = i := by
      intro j hj
      by_contra hji
      exact mem_occupied.mp hj (hn i j (Ne.symm hji) hi)
    have hmem : i ∈ occupied cs := mem_occupied.mpr hi
    have hnd : (occupied cs).Nodup := (nodup_finRange _).filter _
    rw [eq_replicate_iff.mpr ⟨rfl, hall⟩] at hnd ⊢
    have hle := nodup_replicate.mp hnd
    have hpos := length_pos_of_mem hmem
    rw [show (occupied cs).length = 1 by omega]
    rfl

/-- Deletion keeps the normal form. -/
theorem erase_fits (h : Fits t key) (he : erase t key = some t') :
    (key = [] → t' = .nil) ∧ (Terminated key → WF t') := by
  induction t generalizing key t' with
  | nil => simp [erase] at he
  | leaf v =>
    cases he
    exact ⟨fun _ => rfl, fun _ => .nil⟩
  | short k c ih =>
    obtain ⟨hk, hw⟩ := h.key_ne_nil
    refine ⟨fun hn => absurd hn hk.ne_nil, fun _ => ?_⟩
    rcases h.split with ⟨rest, rfl⟩ | ⟨p, a, ka, b, kb, rfl, rfl, hab⟩
    · rw [erase_short_along] at he
      split at he
      · cases he; exact .nil
      next hr =>
        obtain ⟨c', hc', rfl⟩ := Option.map_eq_some_iff.mp he
        cases hw with
        | leaf ht => exact absurd (hk.append_eq ht.last_mem) hr
        | @ext k cs hkn hl hf =>
          have hwf := (ih h.short_child hc').2 ((terminated_append hl).mp hk)
          refine wf_prepend hkn hl hwf ?_
          cases rest with
          | nil => exact absurd rfl hr
          | cons i rest =>
            obtain ⟨d, _, rfl⟩ := Option.map_eq_some_iff.mp hc'
            exact collapse_ne_nil _
    · rw [erase_short_fork hab] at he
      cases he
  | full cs ih =>
    obtain ⟨hk, hw⟩ := h.full_key
    cases key with
    | nil => exact hk.elim
    | cons i key =>
      refine ⟨by simp, fun _ => ?_⟩
      obtain ⟨c', hc', rfl⟩ := Option.map_eq_some_iff.mp he
      obtain ⟨hall, a, b, hab, ha, hb⟩ := wf_full_iff.mp hw
      obtain ⟨ih1, ih2⟩ := ih i h.full_child hc'
      refine wf_collapse (wfAt_update hk hall (fun hnil => .inl (ih1 hnil)) ih2) ?_
      · -- of two children at least one is not the one deleted from
        by_cases hai : a = i
        · exact ⟨b, by rw [update_of_ne (fun hbi => hab (hai.trans hbi.symm))]; exact hb⟩
        · exact ⟨a, by rw [update_of_ne hai]; exact ha⟩

theorem WF.erase (h : WF t) (hk : Terminated key)
    (he : erase t key = some t') : WF t' := (erase_fits (h.fits hk) he).2 hk

/-! ## The walk over a tree

The nodes of a tree with their paths, parents before children and children in
slot order. Paths come in increasing order, so the nodes below one prefix are
next to each other. -/

/-- A node whose path is `path` and all nodes below it. -/
def preorder (path : List (Digit w)) : Tree w β → List (List (Digit w) × Tree w β)
  | .nil => []
  | .leaf v => [(path, .leaf v)]
  | .short k c => (path, .short k c) :: preorder (path ++ k) c
  | .full cs => (path, .full cs) ::
      (finRange (w + 1)).flatMap fun i => preorder (path ++ [i]) (cs i)

/-- The part of the walk below a node that starts at slot `next`. -/
def below (next : Nat) (path : List (Digit w)) : Tree w β → List (List (Digit w) × Tree w β)
  | .short k c => if next = 0 then preorder (path ++ k) c else []
  | .full cs => ((finRange (w + 1)).drop next).flatMap fun i => preorder (path ++ [i]) (cs i)
  | _ => []

theorem preorder_eq (path : List (Digit w)) (h : t ≠ .nil) : preorder path t = (path, t) :: below 0 path t := by
  cases t <;> simp_all [preorder, below]

variable {path : List (Digit w)} {e : List (Digit w) × Tree w β}

theorem prefix_of_mem_preorder (h : e ∈ preorder path t) : path <+: e.1 := by
  induction t generalizing path with
  | nil => simp [preorder] at h
  | leaf v => simp only [preorder, mem_singleton] at h; simp [h]
  | short k c ih =>
    rcases mem_cons.mp h with rfl | h
    · exact prefix_refl _
    · exact (prefix_append _ _).trans (ih h)
  | full cs ih =>
    rcases mem_cons.mp h with rfl | h
    · exact prefix_refl _
    · obtain ⟨i, _, hi⟩ := mem_flatMap.mp h
      exact (prefix_append _ _).trans (ih i hi)

/-- The walk meets exactly the entries of the map. -/
theorem leaf_mem_preorder {q : List (Digit w)} {v : β} :
    (q, .leaf v) ∈ preorder path t ↔ ∃ key, q = path ++ key ∧ lookup t key = some v := by
  induction t generalizing path with
  | nil => simp [preorder, lookup]
  | leaf v' =>
    simp only [preorder, mem_singleton, Prod.mk.injEq, Tree.leaf.injEq, lookup]
    constructor
    · rintro ⟨rfl, rfl⟩
      exact ⟨[], by simp, by simp⟩
    · rintro ⟨key, rfl, h⟩
      split at h
      · simp_all
      · cases h
  | short k c ih =>
    simp only [preorder, mem_cons, Prod.mk.injEq, reduceCtorEq, and_false, false_or, ih,
      lookup]
    constructor
    · rintro ⟨key, rfl, h⟩
      exact ⟨k ++ key, by simp, by simpa using h⟩
    · rintro ⟨key, rfl, h⟩
      split at h
      next hp =>
        obtain ⟨x, rfl⟩ := hp
        exact ⟨x, by simp, by simpa using h⟩
      · cases h
  | full cs ih =>
    simp only [preorder, mem_cons, Prod.mk.injEq, reduceCtorEq, and_false, false_or,
      mem_flatMap, mem_finRange, true_and, ih]
    constructor
    · rintro ⟨i, key, rfl, h⟩
      exact ⟨i :: key, by simp, h⟩
    · rintro ⟨key, rfl, h⟩
      cases key with
      | nil => cases h
      | cons i key => exact ⟨i, key, by simp, h⟩

/-! Paths are compared digit by digit, a path before its extensions. -/

theorem lt_append_cons (p x : List (Digit w)) (i : Digit w) : p < p ++ i :: x := by
  have h : p ++ [] < p ++ i :: x := append_left_lt (nil_lt_cons i x)
  simpa using h

theorem append_cons_lt {y : List (Digit w)} {j : Digit w} (h : i < j) :
    p ++ i :: x < p ++ j :: y := append_left_lt (List.Lex.rel h)

/-- A path that is smaller than a key without being its prefix stays smaller
however it is extended. -/
theorem append_lt_of_lt (h : p < key) (hp : ¬ p <+: key) (x : List (Digit w)) : p ++ x < key := by
  induction p generalizing key with
  | nil => simp at hp
  | cons i p ih =>
    cases key with
    | nil => cases h
    | cons j key =>
      rcases cons_lt_cons_iff.mp h with hij | ⟨rfl, hlt⟩
      · exact List.Lex.rel hij
      · exact cons_lt_cons_iff.mpr (.inr ⟨rfl, ih hlt (by simpa using hp)⟩)

/-- What lies between a prefix and one of its extensions has that prefix. -/
theorem prefix_of_between {q : List (Digit w)} (h1 : ¬ p < key) (h2 : p < q) (hq : key <+: q) : key <+: p := by
  rcases List.le_iff_lt_or_eq.mp (List.not_lt.mp h1) with h | h
  · by_contra hn
    obtain ⟨x, rfl⟩ := hq
    exact List.lt_asymm h2 (append_lt_of_lt h hn x)
  · exact h ▸ List.prefix_refl _

/-- What hangs below an edge of a tree in normal form. -/
theorem WF.short_below (h : WF (.short k c)) : k ≠ [] ∧ c ≠ .nil ∧ (WF c ∨ ∃ v, c = .leaf v) := by
  cases h with
  | leaf ht => exact ⟨ht.ne_nil, by simp, .inr ⟨_, rfl⟩⟩
  | ext hk _ hf => exact ⟨hk, by simp, .inl hf⟩

/-- What hangs in a slot of a branch in normal form. -/
theorem WF.full_below (h : WF (.full cs)) (i : Digit w) : WF (cs i) ∨ ∃ v, cs i = .leaf v := by
  have hi := (wf_full_iff.mp h).1 i
  by_cases hl : i = Fin.last w
  · subst hl
    rcases wfAt_last.mp hi with hn | hv
    · exact .inl (hn ▸ .nil)
    · exact .inr hv
  · exact .inl ((wfAt_of_ne hl).mp hi)

section
variable (h : WF t ∨ ∃ v, t = .leaf v)
include h

/-- The walk visits paths in increasing order. -/
theorem preorder_sorted (path : List (Digit w)) : (preorder path t).Pairwise fun a b => a.1 < b.1 := by
  induction t generalizing path with
  | nil => exact .nil
  | leaf v => simp [preorder]
  | short k c ih =>
    obtain ⟨hk, _, hc⟩ := (h.resolve_right (by simp)).short_below
    refine pairwise_cons.mpr ⟨fun e he => ?_, ih hc _⟩
    obtain ⟨x, hx⟩ := prefix_of_mem_preorder he
    obtain ⟨i, k, rfl⟩ := exists_cons_of_ne_nil hk
    rw [← hx]
    simpa using lt_append_cons path (k ++ x) i
  | full cs ih =>
    have hc := (h.resolve_right (by simp)).full_below
    refine pairwise_cons.mpr ⟨fun e he => ?_,
      pairwise_flatMap.mpr ⟨fun i _ => ih i (hc i) _, ?_⟩⟩
    · obtain ⟨i, _, hi⟩ := mem_flatMap.mp he
      obtain ⟨x, hx⟩ := prefix_of_mem_preorder hi
      rw [← hx]
      simpa using lt_append_cons path x i
    · refine List.Pairwise.imp (fun {i j} hij a ha b hb => ?_) (pairwise_lt_finRange (w + 1))
      obtain ⟨x, hx⟩ := prefix_of_mem_preorder ha
      obtain ⟨y, hy⟩ := prefix_of_mem_preorder hb
      rw [← hx, ← hy]
      simpa using append_cons_lt (p := path) (x := x) (y := y) hij

theorem below_sorted (path : List (Digit w)) : (below 0 path t).Pairwise fun a b => a.1 < b.1 := by
  by_cases hn : t = .nil
  · simp [hn, below]
  · have hs := preorder_sorted h path
    rw [preorder_eq _ hn] at hs
    exact (pairwise_cons.mp hs).2

/-- The walk has passed a terminator only at a leaf. -/
theorem inner_of_mem_preorder (he : e ∈ preorder path t) :
    (∃ v, e.2 = .leaf v) ∨ ∃ x, e.1 = path ++ x ∧ Fin.last w ∉ x := by
  induction t generalizing path with
  | nil => simp [preorder] at he
  | leaf v =>
    simp only [preorder, mem_singleton] at he
    exact .inl ⟨v, by rw [he]⟩
  | short k c ih =>
    have hw := h.resolve_right (by simp)
    rcases mem_cons.mp he with rfl | he
    · exact .inr ⟨[], by simp⟩
    · rcases ih hw.short_below.2.2 he with hv | ⟨x, hx, hlast⟩
      · exact .inl hv
      · cases hw with
        | leaf _ =>
          simp only [preorder, mem_singleton] at he
          exact .inl ⟨_, by rw [he]⟩
        | ext _ hk _ => exact .inr ⟨k ++ x, by simp [hx], by simp [hk, hlast]⟩
  | full cs ih =>
    have hw := h.resolve_right (by simp)
    rcases mem_cons.mp he with rfl | he
    · exact .inr ⟨[], by simp⟩
    · obtain ⟨i, _, hi⟩ := mem_flatMap.mp he
      rcases ih i (hw.full_below i) hi with hv | ⟨x, hx, hlast⟩
      · exact .inl hv
      · by_cases hl : i = Fin.last w
        · subst hl
          rcases wfAt_last.mp ((wf_full_iff.mp hw).1 (Fin.last w)) with hn | ⟨v, hv⟩
          · simp [hn, preorder] at hi
          · simp only [hv, preorder, mem_singleton] at hi
            exact .inl ⟨v, by rw [hi]⟩
        · exact .inr ⟨i :: x, by simp [hx], by simp [Ne.symm hl, hlast]⟩

end

variable {next : Nat}

theorem prefix_of_mem_below (h : e ∈ below next path t) : path <+: e.1 := by
  cases t with
  | nil | leaf v => cases h
  | short k c =>
    simp only [below] at h
    split at h
    · exact (prefix_append _ _).trans (prefix_of_mem_preorder h)
    · cases h
  | full cs =>
    obtain ⟨i, _, hi⟩ := mem_flatMap.mp h
    exact (prefix_append _ _).trans (prefix_of_mem_preorder hi)

/-- Empty slots add nothing to the walk: it goes on at the first occupied one. -/
theorem below_full_none (path : List (Digit w))
    (h : ((finRange (w + 1)).drop next).find? (fun i => !isNil (cs i)) = none) :
    below next path (.full cs) = [] := by
  simp only [below, flatMap_eq_nil_iff]
  intro i hi
  have := find?_eq_none.mp h i hi
  cases hc : cs i <;> simp_all [isNil, preorder]

theorem below_full_some (path : List (Digit w))
    (h : ((finRange (w + 1)).drop next).find? (fun i => !isNil (cs i)) = some i) :
    cs i ≠ .nil ∧ below next path (.full cs) = below i.val path (.full cs) ∧ below i.val path (.full cs) =
        preorder (path ++ [i]) (cs i) ++ below (i.val + 1) path (.full cs) := by
  have hstep : ∀ j (hj : j < w + 1), below j path (.full cs) =
      preorder (path ++ [⟨j, hj⟩]) (cs ⟨j, hj⟩) ++ below (j + 1) path (.full cs) := by
    intro j hj
    simp only [below]
    rw [drop_eq_getElem_cons (by simpa using hj)]
    simp
  refine ⟨?_, ?_, hstep i.val i.isLt⟩
  · have := find?_some h
    intro hn
    simp [hn, isNil] at this
  · -- skip empty slots one at a time
    induction hd : w + 1 - next generalizing next with
    | zero =>
      rw [drop_of_length_le (by simp; omega)] at h
      cases h
    | succ d ih =>
      have hj : next < w + 1 := by omega
      rw [drop_eq_getElem_cons (by simpa using hj)] at h
      simp only [getElem_finRange, find?_cons] at h
      split at h
      · have hi : i.val = next := by simpa using (congrArg (fun o => o.map Fin.val) h).symm
        rw [hi]
      next hn =>
        rw [hstep next hj, ← ih h (by omega)]
        cases hc : cs ⟨next, hj⟩ <;> simp_all [isNil, preorder]

/-- The number of nodes of a tree, one for each empty slot included. -/
def size : Tree w β → Nat
  | .nil => 1
  | .leaf _ => 1
  | .short _ c => size c + 1
  | .full cs => ((finRange (w + 1)).map fun i => size (cs i)).sum + 1

theorem length_preorder_le (t : Tree w β) (path : List (Digit w)) : (preorder path t).length ≤ size t := by
  induction t generalizing path with
  | nil => simp [preorder]
  | leaf v => simp [preorder, size]
  | short k c ih => simpa [preorder, size] using ih _
  | full cs ih =>
    simp only [preorder, size, length_cons, length_flatMap, Nat.add_le_add_iff_right]
    exact sum_le_sum fun i _ => ih i _

theorem size_pos (t : Tree w β) : 0 < size t := by cases t <;> simp [size]

theorem size_child_lt (cs : Digit w → Tree w β) (i : Digit w) : size (cs i) < size (.full cs) := by
  have := single_le_sum (l := (finRange (w + 1)).map fun i => size (cs i))
    (fun _ _ => Nat.zero_le _) (size (cs i)) (mem_map.mpr ⟨i, mem_finRange _, rfl⟩)
  simp only [size]
  omega

end Lib.Patricia
