import Mathlib

/-! # Tables of records

A list of records that each carry their key, no two the same: records are found,
changed and removed by key. A weight on the records is summed over the table. -/
namespace Lib.Table
open List

variable {κ ρ : Type} [DecidableEq κ] {key : ρ → κ} {l : List ρ} {k : κ} {r : ρ} {f : ρ → ρ} {w : ρ → Nat}

def find (key : ρ → κ) (l : List ρ) (k : κ) : Option ρ := l.find? fun r => key r = k

def modify (key : ρ → κ) (l : List ρ) (k : κ) (f : ρ → ρ) : List ρ := l.map fun r => if key r = k then f r else r

def erase (key : ρ → κ) (l : List ρ) (k : κ) : List ρ := l.filter fun r => key r ≠ k

/-- The sum of a weight over the records. -/
def total (w : ρ → Nat) (l : List ρ) : Nat := (l.map w).sum

theorem find_eq_none : find key l k = none ↔ ∀ r ∈ l, key r ≠ k := by
  simp [find]

theorem mem_of_find (h : find key l k = some r) : r ∈ l ∧ key r = k :=
  ⟨mem_of_find?_eq_some h, by simpa using find?_some h⟩

omit [DecidableEq κ] in
theorem eq_of_key (hnd : (l.map key).Nodup) {r' : ρ} (hr : r ∈ l) (hr' : r' ∈ l) (hk : key r = key r') : r = r' :=
  inj_on_of_nodup_map hnd hr hr' hk

theorem find_of_mem (hnd : (l.map key).Nodup) (hr : r ∈ l) : find key l (key r) = some r := by
  cases hf : find key l (key r) with
  | none => exact absurd rfl (find_eq_none.mp hf r hr)
  | some r' =>
    obtain ⟨hr', hk⟩ := mem_of_find hf
    rw [eq_of_key hnd hr' hr hk]

/-! ## Changing a record -/

theorem map_key_modify (hf : ∀ r, key (f r) = key r) : (modify key l k f).map key = l.map key := by
  unfold modify
  rw [map_map]
  refine map_congr_left fun r _ => ?_
  dsimp only [Function.comp]
  split
  · exact hf r
  · rfl

theorem nodup_modify (hf : ∀ r, key (f r) = key r) (hnd : (l.map key).Nodup) : ((modify key l k f).map key).Nodup := by
  rw [map_key_modify hf]
  exact hnd

theorem mem_modify : r ∈ modify key l k f ↔ ∃ r0 ∈ l, r = if key r0 = k then f r0 else r0 := by
  simp only [modify, mem_map]
  exact exists_congr fun _ => and_congr_right fun _ => eq_comm

/-- What is found after a change. -/
theorem find_modify (hf : ∀ r, key (f r) = key r) (k' : κ) :
    find key (modify key l k f) k' = (find key l k').map fun r => if key r = k then f r else r := by
  have hkey : ∀ r, key (if key r = k then f r else r) = key r := by
    intro r
    split
    · exact hf r
    · rfl
  unfold find modify
  rw [find?_map]
  congr 2
  funext r
  exact congrArg (fun x => decide (x = k')) (hkey r)

theorem length_modify : (modify key l k f).length = l.length := length_map _

omit [DecidableEq κ] in
/-- The records before and behind one have other keys. -/
theorem split_of_mem (hnd : (l.map key).Nodup) (hr : r ∈ l) :
    ∃ l1 l2, l = l1 ++ r :: l2 ∧ ∀ r' ∈ l1 ++ l2, key r' ≠ key r := by
  obtain ⟨l1, l2, rfl⟩ := append_of_mem hr
  rw [map_append, map_cons, nodup_middle, ← map_append, nodup_cons] at hnd
  exact ⟨l1, l2, rfl, fun r' hr' hk => hnd.1 (mem_map.mpr ⟨r', hr', hk⟩)⟩

theorem modify_of_notMem (h : ∀ r ∈ l, key r ≠ k) : modify key l k f = l :=
  (map_congr_left fun r hr => if_neg (h r hr)).trans (map_id' l)

theorem total_modify (hnd : (l.map key).Nodup) (hr : r ∈ l) {n : Nat} (hw : w (f r) = w r + n) :
    total w (modify key l (key r) f) = total w l + n := by
  obtain ⟨l1, l2, rfl, hne⟩ := split_of_mem hnd hr
  have hmodify : modify key (l1 ++ r :: l2) (key r) f =
      modify key l1 (key r) f ++ (if key r = key r then f r else r) :: modify key l2 (key r) f := by
    simp [modify]
  rw [hmodify, if_pos rfl, modify_of_notMem fun r' hr' => hne r' (mem_append_left _ hr'),
    modify_of_notMem fun r' hr' => hne r' (mem_append_right _ hr')]
  simp only [total, map_append, map_cons, sum_append, sum_cons, hw]
  omega

/-! ## Removing a record -/

theorem mem_erase : r ∈ erase key l k ↔ r ∈ l ∧ key r ≠ k := by
  simp [erase]

theorem nodup_erase (hnd : (l.map key).Nodup) : ((erase key l k).map key).Nodup :=
  hnd.sublist (filter_sublist.map key)

theorem erase_of_notMem (h : ∀ r ∈ l, key r ≠ k) : erase key l k = l :=
  filter_eq_self.mpr fun r hr => by simpa using h r hr

theorem find_erase (k' : κ) : find key (erase key l k) k' = if k' = k then none else find key l k' := by
  split
  next heq =>
    subst heq
    exact find_eq_none.mpr fun r hr => (mem_erase.mp hr).2
  next hne =>
    unfold find erase
    rw [find?_filter]
    congr 1
    funext r
    by_cases hk : key r = k'
    · simp [hk, hne]
    · simp [hk]

theorem length_erase_lt (hr : r ∈ l) : (erase key l (key r)).length < l.length :=
  length_filter_lt_length_iff_exists.mpr ⟨r, hr, by simp⟩

theorem total_erase (hnd : (l.map key).Nodup) (hr : r ∈ l) : total w (erase key l (key r)) + w r = total w l := by
  obtain ⟨l1, l2, rfl, hne⟩ := split_of_mem hnd hr
  have herase : erase key (l1 ++ r :: l2) (key r) = erase key (l1 ++ l2) (key r) := by
    simp [erase]
  rw [herase, erase_of_notMem hne]
  simp only [total, map_append, map_cons, sum_append, sum_cons]
  omega

theorem total_append (l l' : List ρ) : total w (l ++ l') = total w l + total w l' := by
  simp [total]

theorem le_total (hr : r ∈ l) : w r ≤ total w l := by
  obtain ⟨l1, l2, rfl⟩ := append_of_mem hr
  rw [total_append]
  simp only [total, map_cons, sum_cons]
  omega

theorem exists_of_total_pos (h : 0 < total w l) : ∃ r ∈ l, 0 < w r := by
  by_contra hno
  push Not at hno
  have : total w l = 0 := by
    unfold total
    rw [sum_eq_zero]
    intro n hn
    obtain ⟨r, hr, rfl⟩ := mem_map.mp hn
    have := hno r hr
    omega
  omega

end Lib.Table
