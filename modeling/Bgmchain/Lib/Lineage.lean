import Mathlib

/-! # Branches of a tree that grows

Items are kept under a key and a height, and each names the key of its parent one
level below. `Branch get parent k n l`: the item at `k` and `n` and its ancestors are
all there, and `l` lists them from height zero up. -/
namespace Lib.Lineage
open List

variable {κ α : Type} {get get' : κ → Nat → Option α} {parent key : α → κ}

inductive Branch (get : κ → Nat → Option α) (parent : α → κ) : κ → Nat → List α → Prop
  | root {k : κ} {a : α} : get k 0 = some a → Branch get parent k 0 [a]
  | step {k : κ} {n : Nat} {a : α} {l : List α} : get k (n + 1) = some a →
      Branch get parent (parent a) n l → Branch get parent k (n + 1) (l ++ [a])

variable {k : κ} {n : Nat} {l : List α} {l' : List α}

section
variable (h : Branch get parent k n l)
include h

theorem Branch.length : l.length = n + 1 := by
  induction h with
  | root _ => rfl
  | step _ _ ih => rw [length_append, ih]; rfl

theorem Branch.getElem?_top : l[n]? = get k n := by
  cases h with
  | root ha => exact ha.symm
  | @step _ n a l ha hb => rw [← hb.length, getElem?_concat_length, hb.length, ha]

/-- A key and a height determine the branch. -/
theorem Branch.unique (h' : Branch get parent k n l') : l = l' := by
  induction h generalizing l' with
  | root ha =>
    cases h' with
    | root ha' =>
      rw [ha] at ha'
      cases ha'
      rfl
  | step ha _ ih =>
    cases h' with
    | step ha' hb' =>
      rw [ha] at ha'
      cases ha'
      rw [ih hb']

/-- What has been stored stays. -/
theorem Branch.mono (hget : ∀ k n a, get k n = some a → get' k n = some a) : Branch get' parent k n l := by
  induction h with
  | root ha => exact .root (hget _ _ _ ha)
  | step ha _ ih => exact .step (hget _ _ _ ha) ih

end

section
variable (hkey : ∀ k n a, get k n = some a → key a = k)
include hkey

variable {k : κ} {n m : Nat} {l : List α} {a : α}

section
variable (h : Branch get parent k n l)
include h

/-- The lower part of a branch is the branch of its own top. -/
theorem Branch.lower (hm : l[m]? = some a) : Branch get parent (key a) m (l.take (m + 1)) := by
  induction h with
  | @root k b hb =>
    obtain rfl : m = 0 := by
      have := (List.getElem?_eq_some_iff.mp hm).1
      simpa using this
    cases hm
    rw [hkey _ _ _ hb]
    exact .root hb
  | @step k n b l hb hbranch ih =>
    have hlen := hbranch.length
    rcases Nat.lt_or_ge m l.length with hlt | hge
    · rw [getElem?_append_left hlt] at hm
      rw [take_append_of_le_length (by omega)]
      exact ih hm
    · have hm' := (List.getElem?_eq_some_iff.mp hm).1
      rw [length_append, length_singleton] at hm'
      obtain rfl : m = n + 1 := by omega
      rw [← hlen, getElem?_concat_length] at hm
      cases hm
      rw [take_of_length_le (by simp [hlen]), hkey _ _ _ hb]
      exact .step hb hbranch

/-- Each item of a branch names the one below it. -/
theorem Branch.parent_eq {b : α} (hb : l[m]? = some b) (ha : l[m + 1]? = some a) : parent a = key b := by
  have hlow := h.lower hkey ha
  generalize hl' : l.take (m + 1 + 1) = l' at hlow
  cases hlow with
  | @step _ _ x l' hx hbranch =>
    have hlen := hbranch.length
    have htop : l[m + 1]? = some x := by
      rw [← getElem?_take_of_lt (Nat.lt_succ_self (m + 1)), hl', ← hlen, getElem?_concat_length]
    have hbelow : l[m]? = l'[m]? := by
      rw [← getElem?_take_of_lt (show m < m + 1 + 1 by omega), hl', getElem?_append_left (by omega)]
    rw [ha] at htop
    cases htop
    rw [hb, hbranch.getElem?_top] at hbelow
    exact (hkey _ _ _ hbelow.symm).symm

/-- Branches that agree at a height agree below it. -/
theorem Branch.agree {k' : κ} {n' : Nat}
    (h' : Branch get parent k' n' l') {a' : α} (hm : l[m]? = some a) (hm' : l'[m]? = some a')
    (heq : key a = key a') : l.take (m + 1) = l'.take (m + 1) := by
  have hb := h.lower hkey hm
  rw [heq] at hb
  exact hb.unique (h'.lower hkey hm')

theorem Branch.getElem?_eq {k' : κ} {n' : Nat}
    (h' : Branch get parent k' n' l') {a' : α} (hm : l[m]? = some a) (hm' : l'[m]? = some a')
    (heq : key a = key a') {j : Nat} (hj : j ≤ m) : l[j]? = l'[j]? := by
  have htake := congrArg (·[j]?) (h.agree hkey h' hm hm' heq)
  simpa only [getElem?_take_of_lt (Nat.lt_succ_of_le hj)] using htake

end

end

/-! ## Forks -/

/-- Where two lists part. -/
theorem exists_fork (l l' : List α) : ∃ common rest rest', l = common ++ rest ∧ l' = common ++ rest' ∧
    ∀ a, rest.head? = some a → rest'.head? ≠ some a := by
  induction l generalizing l' with
  | nil => exact ⟨[], [], l', rfl, rfl, by simp⟩
  | cons a l ih =>
    by_cases hhead : l'.head? = some a
    · obtain ⟨m, rfl⟩ : ∃ m, l' = a :: m := by
        cases l' with
        | nil => cases hhead
        | cons b m => exact ⟨m, by rw [Option.some.inj hhead]⟩
      obtain ⟨common, rest, rest', rfl, rfl, hpart⟩ := ih m
      exact ⟨a :: common, rest, rest', rfl, rfl, hpart⟩
    · refine ⟨[], a :: l, l', rfl, rfl, ?_⟩
      intro b hb
      cases hb
      exact hhead

/-- Two branches on one root have a common lower part and nothing in common above. -/
theorem Branch.fork (hkey : ∀ k n a, get k n = some a → key a = k) {k' : κ} {n' : Nat}
    (h : Branch get parent k n l) (h' : Branch get parent k' n' l') (hroot : l[0]? = l'[0]?) :
    ∃ common rest rest', common ≠ [] ∧ l = common ++ rest ∧ l' = common ++ rest' ∧
      ∀ (i : Nat) a a', rest[i]? = some a → rest'[i]? = some a' → key a ≠ key a' := by
  obtain ⟨common, rest, rest', hl, hl', hpart⟩ := exists_fork l l'
  refine ⟨common, rest, rest', ?_, hl, hl', ?_⟩
  · intro hnil
    rw [hl, hl', hnil, nil_append, nil_append] at hroot
    have hpos : 0 < rest.length := by
      have hlen := h.length
      rw [hl, hnil, nil_append] at hlen
      omega
    have hhead : rest.head? = some rest[0] := by rw [head?_eq_getElem?, getElem?_eq_getElem hpos]
    refine hpart _ hhead ?_
    rw [head?_eq_getElem?, ← hroot, getElem?_eq_getElem hpos]
  · intro i a a' ha ha' heq
    have hat : ∀ (r : List α) (j : Nat), (common ++ r)[common.length + j]? = r[j]? := by
      intro r j
      rw [getElem?_append_right (by omega), Nat.add_sub_cancel_left]
    -- what they share at this height they share where they part
    have hlow := h.getElem?_eq hkey h' (m := common.length + i) (by rw [hl, hat, ha])
      (by rw [hl', hat, ha']) heq (show common.length + 0 ≤ common.length + i by omega)
    rw [hl, hl', hat, hat] at hlow
    have hpos : 0 < rest.length := by
      have := (List.getElem?_eq_some_iff.mp ha).1
      omega
    rw [getElem?_eq_getElem hpos] at hlow
    exact hpart rest[0] (by rw [head?_eq_getElem?, getElem?_eq_getElem hpos])
      (by rw [head?_eq_getElem?, hlow])

end Lib.Lineage
