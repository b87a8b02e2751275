import Mathlib

/-! # Random nodes of the discovery table

`p2p/discover/table.go`: `ReadRandomNodes` shuffles the non-empty buckets and takes the
heads of the buckets in turn. The entries of a bucket are a list; what an index out of
range would be in the source is `none` here. -/
namespace Bgmchain.P2p

/-- The table over the bucket that each node belongs to, its logarithmic distance from the
node that has the table: a node is in its own bucket only, and there once. -/
structure Table {Node : Type} (bucket : Node → Nat) where
  buckets : List (List Node)
  bucket_eq : ∀ i (h : i < buckets.length), ∀ n ∈ buckets[i], bucket n = i
  nodup : ∀ entries ∈ buckets, entries.Nodup

variable {Node : Type} {bucket : Node → Nat}

def randUint (random : UInt32) (max : Nat) : Nat :=
  if max = 0 then 0 else random.toNat % max

/-- The loop that shuffles the buckets, from index `i` down. -/
def shuffle (random : Nat → UInt32) : Nat → List (List Node) → Option (List (List Node))
  | 0, buckets => some buckets
  | i + 1, buckets => do
    let j := randUint (random i) (i + 1)
    let x ← buckets[i + 1]?
    let y ← buckets[j]?
    shuffle random i ((buckets.set (i + 1) y).set j x)

/-- The loop that moves the heads into the buffer, `todo` more of them at most. -/
def moveHeads : Nat → Nat → Nat → List (List Node) → List Node → Option (Nat × List Node)
  | 0, i, _, _, buf => some (i, buf)
  | todo + 1, i, j, buckets, buf => do
    let b ← buckets[j]?
    let head ← b[0]?
    let buf := buf.set i head
    let buckets := if b.length = 1 then buckets.eraseIdx j else buckets.set j b.tail
    if buckets.length = 0 then some (i, buf)
    else moveHeads todo (i + 1) ((j + 1) % buckets.length) buckets buf

/-- The number that is returned, and the buffer. -/
def Table.readRandomNodes (tab : Table bucket) (random : Nat → UInt32) (buf : List Node) :
    Option (Nat × List Node) :=
  let buckets := tab.buckets.filter fun entries => entries.length > 0
  if buckets.length = 0 then some (0, buf)
  else do
    let buckets ← shuffle random (buckets.length - 1) buckets
    let (i, buf) ← moveHeads buf.length 0 0 buckets buf
    return (i + 1, buf)

/-- The table is filled into the buffer and the number of nodes written is returned. -/
def Table.Reads (tab : Table bucket) (random : Nat → UInt32) (buf : List Node) : Prop :=
  ∃ written, tab.readRandomNodes random buf = some (written.length, written ++ buf.drop written.length) ∧
    written.Nodup ∧ (∀ n ∈ written, n ∈ tab.buckets.flatten) ∧
    written.length = min buf.length tab.buckets.flatten.length

theorem Table.flatten_nodup (tab : Table bucket) : tab.buckets.flatten.Nodup := by
  rw [List.nodup_flatten]
  refine ⟨tab.nodup, List.pairwise_iff_getElem.mpr fun i j hi hj hij n hni hnj => ?_⟩
  have := tab.bucket_eq i hi n hni
  have := tab.bucket_eq j hj n hnj
  omega

variable {j : Nat} {buckets : List (List Node)}

theorem flatten_filter (buckets : List (List Node)) :
    (buckets.filter fun entries => entries.length > 0).flatten = buckets.flatten := by
  induction buckets with
  | nil => rfl
  | cons b bs ih => cases b <;> simp_all

theorem shuffle_perm (random : Nat → UInt32) {i : Nat} (h : i < buckets.length) :
    ∃ shuffled, shuffle random i buckets = some shuffled ∧ shuffled.Perm buckets := by
  induction i generalizing buckets with
  | zero => exact ⟨buckets, rfl, .refl _⟩
  | succ i ih =>
    have hmod : (random i).toNat % (i + 1) < i + 1 := Nat.mod_lt _ i.succ_pos
    have hj : randUint (random i) (i + 1) < buckets.length := by
      simp only [randUint, Nat.add_one_ne_zero, if_false]
      omega
    simp only [shuffle, List.getElem?_eq_getElem, h, hj]
    obtain ⟨shuffled, hs, hp⟩ := @ih ((buckets.set (i + 1) buckets[randUint (random i) (i + 1)]).set
      (randUint (random i) (i + 1)) buckets[i + 1]) (by simp; omega)
    exact ⟨shuffled, hs, hp.trans (List.set_set_perm h hj)⟩

/-- One round: with every bucket non-empty, the head of the bucket at `j` goes to the buffer
and the buckets that are left hold the other nodes. -/
theorem moveHeads_succ (hj : j < buckets.length) (hne : ∀ b ∈ buckets, b ≠ []) :
    ∃ head left, buckets.flatten.Perm (head :: left.flatten) ∧ (∀ b ∈ left, b ≠ []) ∧
      ∀ todo i buf, moveHeads (todo + 1) i j buckets buf = if left.length = 0 then some (i, buf.set i head)
        else moveHeads todo (i + 1) ((j + 1) % left.length) left (buf.set i head) := by
  have hp := (List.getElem_cons_eraseIdx_perm hj).symm.flatten
  match hb : buckets[j] with
  | [] => exact absurd hb (hne _ (List.getElem_mem hj))
  | [head] =>
    refine ⟨head, buckets.eraseIdx j, by simpa [hb] using hp, fun b h => hne b (List.mem_of_mem_eraseIdx h), ?_⟩
    simp [moveHeads, hj, hb]
  | head :: next :: rest =>
    rw [hb] at hp
    refine ⟨head, buckets.set j (next :: rest),
      hp.trans (.cons _ (List.set_perm_cons_eraseIdx hj _).symm.flatten), fun b h => ?_, ?_⟩
    · rcases List.mem_or_eq_of_mem_set h with h | rfl
      · exact hne b h
      · simp
    · simp [moveHeads, hj, hb]

/-- The loop runs until the buffer is full or no node is left. -/
theorem moveHeads_eq (done slots : List Node)
    (hj : j < buckets.length) (hne : ∀ b ∈ buckets, b ≠ []) :
    ∃ written left i, buckets.flatten.Perm (written ++ left) ∧
      written.length = min slots.length buckets.flatten.length ∧
      moveHeads slots.length done.length j buckets (done ++ slots) =
        some (i, done ++ (written ++ slots.drop written.length)) ∧
      i + 1 = done.length + if buckets.flatten.length ≤ slots.length then written.length else slots.length + 1 := by
  induction slots generalizing j buckets done with
  | nil =>
    obtain ⟨head, left, hp, -⟩ := moveHeads_succ hj hne
    exact ⟨[], buckets.flatten, done.length, .refl _, by simp, by simp [moveHeads], by simp [hp.length_eq]⟩
  | cons slot slots ih =>
    obtain ⟨head, left, hp, hne', hm⟩ := moveHeads_succ hj hne
    have hset : (done ++ slot :: slots).set done.length head = done ++ [head] ++ slots := by simp
    rw [List.length_cons, hm, hset, hp.length_eq, List.length_cons]
    by_cases hnil : left.length = 0
    · obtain rfl := List.length_eq_zero_iff.mp hnil
      exact ⟨[head], [], done.length, by simpa using hp, by simp⟩
    · obtain ⟨written, rest, i, hp', hw, hm', hi⟩ := ih (done ++ [head]) (Nat.mod_lt (j + 1) (by omega)) hne'
      rw [List.length_append, List.length_singleton] at hm' hi
      refine ⟨head :: written, rest, i, hp.trans (hp'.cons head), by simp [hw], ?_, ?_⟩
      · rw [if_neg hnil, hm']
        simp
      · rw [hi]
        grind

/-- What is read in general: the number is one too large when the buffer is full before the
table is empty. -/
theorem Table.readRandomNodes_eq (tab : Table bucket) (random : Nat → UInt32) (buf : List Node) :
    ∃ written left, tab.buckets.flatten.Perm (written ++ left) ∧
      written.length = min buf.length tab.buckets.flatten.length ∧
      tab.readRandomNodes random buf =
        some (if tab.buckets.flatten.length ≤ buf.length then written.length else buf.length + 1,
          written ++ buf.drop written.length) := by
  unfold readRandomNodes
  rw [← flatten_filter]
  have hne : ∀ b ∈ tab.buckets.filter fun entries => entries.length > 0, b ≠ [] := by
    intro b hb
    simpa [List.length_pos_iff] using (List.mem_filter.mp hb).2
  generalize tab.buckets.filter (fun entries => entries.length > 0) = buckets at *
  by_cases hnil : buckets.length = 0
  · obtain rfl := List.length_eq_zero_iff.mp hnil
    exact ⟨[], [], by simp⟩
  · obtain ⟨shuffled, hs, hp⟩ := shuffle_perm random (Nat.sub_one_lt hnil)
    have hpos : 0 < shuffled.length := by
      rw [hp.length_eq]
      omega
    obtain ⟨written, left, i, hp', hw, hm, hi⟩ := moveHeads_eq [] buf hpos fun b hb => hne b (hp.subset hb)
    have hlen := hp.flatten.length_eq
    refine ⟨written, left, hp.flatten.symm.trans hp', by rw [hw, hlen], ?_⟩
    simp_all

theorem Table.reads_iff (tab : Table bucket) (random : Nat → UInt32) (buf : List Node) :
    tab.Reads random buf ↔ tab.buckets.flatten.length ≤ buf.length := by
  obtain ⟨written, left, hp, hw, hr⟩ := tab.readRandomNodes_eq random buf
  constructor
  · rintro ⟨written', hr', -, -, hw'⟩
    rw [hr] at hr'
    split at hr' <;> simp at hr' <;> omega
  · intro h
    refine ⟨written, by rw [hr, if_pos h], (hp.nodup_iff.mp tab.flatten_nodup).of_append_left, fun n hn => ?_, hw⟩
    exact hp.symm.subset (List.mem_append_left _ hn)

/-- With two nodes and room for one, two are reported. -/
theorem reported_beyond_buffer :
    let tab : Table (fun n : Nat => n) := ⟨[[], [1], [2]], by decide, by decide⟩
    tab.readRandomNodes (fun _ => 0) [0] = some (2, [2]) ∧ ¬ tab.Reads (fun _ => 0) [0] := by
  intro tab
  have hread : tab.readRandomNodes (fun _ => 0) [0] = some (2, [2]) := by decide
  refine ⟨hread, ?_⟩
  rintro ⟨written, hr, -, -, hw⟩
  rw [hread, hw] at hr
  revert hr
  simp [tab]

end Bgmchain.P2p
