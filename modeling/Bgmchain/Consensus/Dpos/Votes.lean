import Bgmchain.Consensus.Dpos.Kickout

/-! # Counting votes and electing, on the maps

`countVotes` enters every candidate of a readable context once, and the
validators elected from the votes are distinct candidates, at most
`maxValidatorSize` of them. -/
namespace Bgmchain.Dpos
open Common Lib.Hoare List

/-! ## The keys of a vote map -/

/-- The vote map has each of these addresses as a key, once. -/
structure Votes.Counts (votes : Votes) (counted : List Address) : Prop where
  nodup : (votes.map (·.1)).Nodup
  mem_iff : ∀ a, a ∈ votes.map (·.1) ↔ a ∈ counted

theorem Votes.keys_set (votes : Votes) (a : Address) (score : Int) : (votes.set a score).map (·.1) =
      if a ∈ votes.map (·.1) then votes.map (·.1) else votes.map (·.1) ++ [a] := by
  have hany : votes.any (·.1 = a) = true ↔ a ∈ votes.map (·.1) := by
    simp only [any_eq_true, decide_eq_true_eq, mem_map]
  unfold Votes.set
  by_cases h : a ∈ votes.map (·.1)
  · rw [if_pos (hany.mpr h), if_pos h, map_map]
    refine map_congr_left fun e _ => ?_
    by_cases he : e.1 = a <;> simp [he]
  · rw [if_neg (fun hc => h (hany.mp hc)), if_neg h, map_append]
    rfl

variable {votes : Votes} {counted : List Address}

theorem Votes.Counts.set (h : votes.Counts counted)
    (a : Address) (score : Int) : (votes.set a score).Counts (counted ++ [a]) := by
  have hkeys := Votes.keys_set votes a score
  split at hkeys
  next ha =>
    refine ⟨hkeys ▸ h.nodup, fun b => ?_⟩
    rw [hkeys, h.mem_iff, mem_append, mem_singleton]
    exact ⟨.inl, fun hb => hb.elim id fun hb => hb ▸ (h.mem_iff a).mp ha⟩
  next ha =>
    refine ⟨hkeys ▸ concat_eq_append ▸ h.nodup.concat ha, fun b => ?_⟩
    rw [hkeys, mem_append, h.mem_iff, mem_append]

theorem Votes.Counts.congr {counted' : List Address} (h : votes.Counts counted)
    (heq : ∀ a, a ∈ counted ↔ a ∈ counted') : votes.Counts counted' :=
  ⟨h.nodup, fun a => (h.mem_iff a).trans (heq a)⟩

theorem Votes.Counts.length_eq (h : votes.Counts counted) : votes.length = counted.dedup.length := by
  have hperm : (votes.map (·.1)).Perm counted.dedup :=
    (perm_ext_iff_of_nodup h.nodup counted.nodup_dedup).mpr fun a => by
      rw [h.mem_iff, mem_dedup]
  simpa using hperm.length_eq

/-! ## Counting -/

section
variable (balance : Address → Int)

theorem addWeight_counts {votes : Votes} {counted : List Address} (candidateAddr : Address)
    (delegator : Bytes) (h : votes.Counts counted) :
    (addWeight balance candidateAddr delegator votes).Counts (counted ++ [candidateAddr]) := h.set _ _

/-- What `countVotes` does for one candidate. -/
theorem countCandidate_eq {candidate : Bytes} {vs : List Bytes} {delegateTrie : Trie} (votes : Votes)
    (hy : (LeafIterator.newPrefix delegateTrie candidate).Yields delegateTrie.db vs) :
    countCandidate balance delegateTrie candidate votes =
      .ok (if vs = [] then votes.set (bytesToAddress candidate) 0
        else vs.foldl (fun votes v => addWeight balance (bytesToAddress candidate) v votes) votes) := by
  obtain ⟨it, hnext, hfuel, hy'⟩ := LeafIterator.Yields.next hy
  have hlen := hy.length_lt
  unfold countCandidate
  dsimp only
  rw [hnext]
  cases vs with
  | nil => rfl
  | cons v vs =>
    rw [if_neg (cons_ne_nil v vs), foldl_cons]
    refine Eq.trans ?_ (foldlM_pure (m := Except Error) ..)
    exact hy'.each (fun _ => Error.panicked) (fun _ _ _ hdb _ => hdb) _ _ rfl (Nat.lt_of_succ_lt hlen)

/-- One candidate is entered, whether or not anyone delegates to it. -/
theorem countCandidate_counts {delegateTrie : Trie} {delegates} (hd : delegateTrie.Holds delegates)
    {candidate : Bytes} (hne : candidate ≠ []) {votes : Votes} {counted : List Address}
    (h : votes.Counts counted) : ∃ votes', countCandidate balance delegateTrie candidate votes = .ok votes' ∧
      votes'.Counts (counted ++ [bytesToAddress candidate]) := by
  obtain ⟨es, _, hy⟩ := hd.newPrefix hne
  refine ⟨_, countCandidate_eq balance votes hy, ?_⟩
  cases es.map Prod.snd with
  | nil => exact h.set _ _
  | cons v vs =>
    rw [if_neg (cons_ne_nil v vs), foldl_cons]
    -- later delegators add to the same entry
    refine foldlRecOn (motive := (Votes.Counts · _)) vs _ (addWeight_counts balance _ v h) fun votes hv v _ => ?_
    exact (addWeight_counts balance _ v hv).congr (by simp)

/-- The loop of `countVotes` runs over all candidates. -/
theorem countVotes_eq {d : DposContext} {v : Bytes} {vs : List Bytes}
    (hy : (LeafIterator.new d.candidateTrie []).Yields d.candidateTrie.db (v :: vs)) : countVotes balance d =
      (v :: vs).foldlM (fun votes v => countCandidate balance d.delegateTrie v votes) [] := by
  obtain ⟨it, hnext, hfuel, hy'⟩ := LeafIterator.Yields.next hy
  unfold countVotes
  dsimp only
  rw [hnext, foldlM_cons]
  dsimp only [stepOf]
  cases countCandidate balance d.delegateTrie v [] with
  | error e => rfl
  | ok votes =>
    exact hy'.each (fun _ => Error.panicked) (fun _ _ _ hdb _ => hdb) votes _ rfl
      (Nat.lt_of_succ_lt hy.length_lt)

/-- **`countVotes` on the maps**: it fails without candidates, and otherwise enters
each of them. -/
theorem Keeping.countVotes {d : DposContext} {m : Books} (h : Keeping d m) {es}
    (hes : Entries m.ballots.candidates (fun _ => True) es) :
    if es = [] then Dpos.countVotes balance d = .error .noCandidates
    else ∃ votes, Dpos.countVotes balance d = .ok votes ∧
      votes.Counts (es.map fun e => bytesToAddress e.2) := by
  obtain ⟨es', hes', hy⟩ := h.candidateEntries
  obtain rfl := hes.unique hes'
  cases es with
  | nil =>
    obtain ⟨it, hnext, _⟩ := LeafIterator.Yields.next hy
    rw [if_pos rfl]
    unfold Dpos.countVotes
    dsimp only
    rw [hnext]
    rfl
  | cons e es =>
    rw [if_neg (cons_ne_nil e es), countVotes_eq balance hy]
    have hne : ∀ v ∈ ((e :: es).map Prod.snd), v ≠ [] := by
      intro v hv
      obtain ⟨⟨k, w⟩, hin, rfl⟩ := mem_map.mp hv
      exact h.ballots.candidates.value_ne_nil ((hes.mem_iff k w).mp hin).2
    obtain ⟨votes, hfold, hcounts⟩ := exists_foldlM_ok
      (P := fun seen (votes : Votes) => votes.Counts (seen.map bytesToAddress)) ((e :: es).map Prod.snd)
      (f := fun votes v => Dpos.countCandidate balance d.delegateTrie v votes)
      (fun seen votes v hv hc => by
        obtain ⟨votes', hok, hc'⟩ := countCandidate_counts balance h.ballots.delegates (hne v hv) hc
        exact ⟨votes', hok, by simpa using hc'⟩)
      [] [] ⟨nodup_nil, by simp⟩
    refine ⟨votes, hfold, ?_⟩
    simpa [map_map, Function.comp_def] using hcounts

end

/-! ## Electing -/

section
variable [Crypto] [Rand]

omit [Crypto] in
theorem shuffle_perm {α : Type} (i : Nat) : ∀ (r : Rand.Source) (l : List α), (shuffle i r l).Perm l := by
  induction i with
  | zero => intro r l; exact .refl l
  | succ i ih =>
    intro r l
    exact (ih _ _).trans (swap_perm l (i + 1) (Rand.int31n r (i + 1)).1.val)

/-- The elected are distinct candidates, as many as there are seats for. -/
theorem electValidators_spec {votes : Votes} {counted : List Address} (h : votes.Counts counted)
    (parentHash : Hash) (i : Int) : (electValidators parentHash i votes).Nodup ∧
      (∀ a ∈ electValidators parentHash i votes, a ∈ counted) ∧
      (electValidators parentHash i votes).length = min maxValidatorSize votes.length := by
  let top := (sortAddresses votes).take maxValidatorSize
  have hsort : (sortAddresses votes).Perm votes := perm_insertionSort _ votes
  have hperm : (electValidators parentHash i votes).Perm (top.map (·.1)) := (shuffle_perm _ _ _).map _
  have hsub : (top.map (·.1)).Sublist ((sortAddresses votes).map (·.1)) :=
    (take_sublist _ _).map _
  refine ⟨?_, ?_, ?_⟩
  · rw [hperm.nodup_iff]
    exact ((hsort.map _).nodup_iff.mpr h.nodup).sublist hsub
  · intro a ha
    exact (h.mem_iff a).mp ((hsort.map _).mem_iff.mp (hsub.subset (hperm.mem_iff.mp ha)))
  · rw [hperm.length_eq, length_map, length_take, hsort.length_eq]

end

end Bgmchain.Dpos
