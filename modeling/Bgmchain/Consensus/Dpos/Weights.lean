import Bgmchain.Consensus.Dpos.Outsiders

/-! # The weights of the votes

`countVotes` goes over the candidates and, for each of them, over the part of the delegate trie
under the candidate's address. On a context whose tries agree, this part lists exactly those who
have voted for the candidate, so the score of a candidate is the sum of their balances. -/
namespace Bgmchain.Dpos
open Common Lib.Hoare List Sample DposContext

/-! ## Entering scores -/

theorem Votes.get?_set (votes : Votes) (a b : Address) (score : Int) :
    (votes.set a score).get? b = if b = a then some score else votes.get? b := by
  unfold Votes.set Votes.get?
  split
  next hany =>
    -- the entries keep their keys
    have hkeys : ((fun e : Address × Int => decide (e.1 = b)) ∘ fun e => if e.1 = a then (a, score) else e) =
        fun e => decide (e.1 = b) := by
      funext e
      by_cases he : e.1 = a <;> simp [he]
    rw [find?_map, hkeys]
    cases hfind : votes.find? (·.1 = b) with
    | none =>
      have hb : b ≠ a := by
        rintro rfl
        obtain ⟨e, he, heb⟩ := any_eq_true.mp hany
        exact find?_eq_none.mp hfind e he heb
      simp [hb]
    | some e =>
      have he : e.1 = b := by simpa using find?_some hfind
      by_cases hb : b = a <;> simp [he, hb]
  next hany =>
    rw [find?_append]
    by_cases hb : b = a
    · subst hb
      have hnone : votes.find? (·.1 = b) = none :=
        find?_eq_none.mpr fun e he heb => hany (any_eq_true.mpr ⟨e, he, heb⟩)
      simp [hnone]
    · simp [hb, Ne.symm hb]

variable {votes : Votes} {delegateTrie : Trie} {es : List (Bytes × Bytes)} {d : DposContext}

theorem Votes.get?_eq_none {a : Address} (h : a ∉ votes.map (·.1)) : votes.get? a = none := by
  unfold Votes.get?
  rw [Option.map_eq_none_iff, find?_eq_none]
  intro e he hbad
  exact h (mem_map.2 ⟨e, he, of_decide_eq_true hbad⟩)

theorem Votes.get?_of_mem (h : (votes.map (·.1)).Nodup) {e : Address × Int} (he : e ∈ votes) :
    votes.get? e.1 = some e.2 := by
  unfold Votes.get?
  cases hfind : votes.find? (·.1 = e.1) with
  | none =>
    rw [find?_eq_none] at hfind
    exact absurd (decide_eq_true rfl) (hfind e he)
  | some e' =>
    have hkey : e'.1 = e.1 := by simpa using find?_some hfind
    rw [inj_on_of_nodup_map h (mem_of_find?_eq_some hfind) he hkey]
    rfl

section
variable (balance : Address → Int)

theorem get?_addWeight (candidateAddr b : Address) (delegator : Bytes) (votes : Votes) :
    (addWeight balance candidateAddr delegator votes).get? b =
      if b = candidateAddr then some ((votes.get? candidateAddr).getD 0 + balance (bytesToAddress delegator))
      else votes.get? b := Votes.get?_set _ _ _ _

/-- The score of a candidate is made of the balances of those behind it, the scores of the others
stay. -/
theorem get?_foldl_addWeight (candidateAddr b : Address) (vs : List Bytes) : ∀ (v : Bytes) (votes : Votes),
    ((v :: vs).foldl (fun votes v => addWeight balance candidateAddr v votes) votes).get? b =
      if b = candidateAddr then
        some ((votes.get? candidateAddr).getD 0 + ((v :: vs).map fun v => balance (bytesToAddress v)).sum)
      else votes.get? b := by
  induction vs with
  | nil =>
    intro v votes
    rw [foldl_cons, foldl_nil, get?_addWeight]
    simp
  | cons w vs ih =>
    intro v votes
    rw [foldl_cons, ih, get?_addWeight, get?_addWeight, if_pos rfl]
    by_cases hb : b = candidateAddr
    · rw [if_pos hb, if_pos hb, map_cons, map_cons, map_cons, sum_cons, sum_cons,
        sum_cons, Option.getD_some, Int.add_assoc]
    · rw [if_neg hb, if_neg hb, if_neg hb]

theorem countCandidate_score {delegates} (hd : delegateTrie.Holds delegates)
    {c : Address} (hes : Entries delegates (c.bytes <+: ·) es) {votes' : Votes}
    (hok : countCandidate balance delegateTrie c.bytes votes = .ok votes') (hnew : votes.get? c = none) :
    ∀ b, votes'.get? b =
      if b = c then some ((es.map fun e => balance (bytesToAddress e.2)).sum) else votes.get? b := by
  obtain ⟨es', hes', hy⟩ := hd.newPrefix c.bytes_ne_nil
  obtain rfl := hes.unique hes'
  rw [countCandidate_eq balance votes hy, bytesToAddress_bytes] at hok
  intro b
  cases es with
  | nil =>
    cases hok
    rw [map_nil, if_pos rfl, Votes.get?_set]
    rfl
  | cons e es =>
    rw [map_cons, if_neg (cons_ne_nil _ _)] at hok
    cases hok
    rw [get?_foldl_addWeight, hnew, Option.getD_none, Int.zero_add, ← map_cons, map_map]
    rfl

end

/-! ## Who stands behind a candidate -/

/-- The keys of the candidate trie are addresses and those of the delegate trie pairs of them. -/
structure Indexed (d : DposContext) : Prop where
  candidate : ∀ k, (d.candidateTrie.get k).1 ≠ none → k.length = 20
  delegate : ∀ k, (d.delegateTrie.get k).1 ≠ none → k.length = 40

/-- The operations on a context only make such keys. -/
theorem Indexed.apply (hi : Indexed d) (hr : d.Readable) (op : Poll.Op Address) : Indexed (d.apply op).2 := by
  obtain ⟨m, h⟩ := hr.holds
  have h' := h.apply op
  refine ⟨fun k hk => ?_, fun k hk => ?_⟩
  · obtain ⟨v, hv⟩ := Option.ne_none_iff_exists'.mp (h'.candidates.get_fst k ▸ hk)
    rcases Ballots.step_candidates hv with hv | ⟨c, rfl, _⟩
    · exact hi.candidate k (by simp [h.candidates.get_fst, hv])
    · exact c.length_eq
  · obtain ⟨v, hv⟩ := Option.ne_none_iff_exists'.mp (h'.delegates.get_fst k ▸ hk)
    rcases Ballots.step_delegates hv with hv | ⟨c, a, rfl, _⟩
    · exact hi.delegate k (by simp [h.delegates.get_fst, hv])
    · rw [length_append, c.length_eq, a.length_eq]

theorem Indexed.run (hi : Indexed d) (hc : d.Consistent) (hr : d.Readable)
    (ops : List (Poll.Op Address)) : Indexed (d.run ops) := by
  induction ops generalizing d with
  | nil => exact hi
  | cons op ops ih =>
    obtain ⟨hr', hc'⟩ := hc.apply hr op
    exact ih (hi.apply hr op) hc' hr'

/-- What the delegate trie lists under a candidate are its voters, each once. -/
theorem voters_of_entries {m : Ballots} (h : d.Holds m) (hc : d.Consistent) (hi : Indexed d)
    {c : Address} (hes : Entries m.delegates (c.bytes <+: ·) es) : (es.map fun e => bytesToAddress e.2).Nodup ∧
      ∀ a, a ∈ es.map (fun e => bytesToAddress e.2) ↔ d.voteEntry a = some c.bytes := by
  have hkey : ∀ e ∈ es, e.1 = c.bytes ++ (bytesToAddress e.2).bytes := by
    intro e he
    obtain ⟨⟨x, hx⟩, hv⟩ := (hes.mem_iff e.1 e.2).1 he
    have hget : (d.delegateTrie.get e.1).1 = some e.2 := by rw [h.delegates.get_fst, hv]
    have hlen := hi.delegate e.1 (by rw [hget]; exact Option.some_ne_none _)
    rw [← hx, length_append, c.length_eq] at hlen
    have hx20 : x.length = 20 := by omega
    let a : Address := ⟨x, hx20⟩
    have hentry : d.delegateEntry c a = some e.2 := by
      unfold delegateEntry
      rw [← hget, ← hx]
    have he2 : e.2 = x := hc.delegate_holds c a e.2 hentry
    rw [← hx, he2]
    exact congrArg (c.bytes ++ ·) (congrArg FixedBytes.bytes (bytesToAddress_bytes a)).symm
  constructor
  · refine hes.nodup_map fun e he e' he' heq => ?_
    rw [hkey e he, hkey e' he', heq]
  · intro a
    rw [hc.vote_iff, mem_map, h.delegateEntry]
    constructor
    · intro ⟨e, he, hea⟩
      have hm := ((hes.mem_iff e.1 e.2).1 he).2
      rw [hkey e he, hea] at hm
      rw [hm]
      exact Option.some_ne_none _
    · intro hne
      obtain ⟨v, hv⟩ := Option.ne_none_iff_exists'.1 hne
      have hva : v = a.bytes := hc.delegate_holds c a v (by rw [h.delegateEntry, hv])
      refine ⟨(c.bytes ++ a.bytes, v), (hes.mem_iff _ _).2 ⟨prefix_append _ _, hv⟩, ?_⟩
      dsimp only
      rw [hva, bytesToAddress_bytes]

/-- What the candidate trie lists are the addresses of the candidates, each once. -/
theorem candidates_of_entries {m : Ballots} (h : d.Holds m) (hc : d.Consistent) (hi : Indexed d)
    (hes : Entries m.candidates (fun _ => True) es) :
    ∃ cs : List Address, es.map Prod.snd = cs.map (·.bytes) ∧ cs.Nodup ∧
      ∀ c, c ∈ cs ↔ d.candidateEntry c ≠ none := by
  have hkey : ∀ e ∈ es, (bytesToAddress e.2).bytes = e.1 ∧ e.2 = e.1 := by
    intro e he
    have hget : (d.candidateTrie.get e.1).1 = some e.2 := by
      rw [h.candidates.get_fst, ((hes.mem_iff e.1 e.2).1 he).2]
    have hlen := hi.candidate e.1 (by rw [hget]; exact Option.some_ne_none _)
    let c : Address := ⟨e.1, hlen⟩
    have he2 : e.2 = c.bytes := hc.candidate_holds c e.2 hget
    refine ⟨?_, he2⟩
    rw [he2, bytesToAddress_bytes]
  refine ⟨es.map fun e => bytesToAddress e.2, ?_, ?_, ?_⟩
  · rw [map_map]
    refine map_congr_left ?_
    intro e he
    exact (hkey e he).2.trans (hkey e he).1.symm
  · refine hes.nodup_map fun e he e' he' heq => ?_
    rw [← (hkey e he).1, ← (hkey e' he').1, heq]
  · intro c
    rw [mem_map, h.candidateEntry, Option.ne_none_iff_exists']
    constructor
    · intro ⟨e, he, hec⟩
      refine ⟨e.2, ?_⟩
      rw [← hec, (hkey e he).1]
      exact ((hes.mem_iff e.1 e.2).1 he).2
    · intro ⟨v, hv⟩
      refine ⟨(c.bytes, v), (hes.mem_iff _ _).2 ⟨trivial, hv⟩, ?_⟩
      rw [hc.candidate_holds c v (by rw [h.candidateEntry, hv]), bytesToAddress_bytes]

/-! ## The count -/

section
variable (balance : Address → Int)

/-- The loop of `countVotes` over distinct candidates. -/
theorem foldlM_countCandidate {delegates} (hd : delegateTrie.Holds delegates)
    {listed : Address → List (Bytes × Bytes)} (hlisted : ∀ c, Entries delegates (c.bytes <+: ·) (listed c))
    {cs : List Address} (hcs : cs.Nodup) :
    ∃ votes, cs.foldlM (fun votes c => countCandidate balance delegateTrie c.bytes votes) [] = .ok votes ∧
      votes.Counts cs ∧
      ∀ c ∈ cs, votes.get? c = some (((listed c).map fun e => balance (bytesToAddress e.2)).sum) := by
  -- a candidate met for the first time has no score yet
  obtain ⟨votes, hfold, hcounts, hscores⟩ := exists_foldlM_ok
    (P := fun seen (votes : Votes) => votes.Counts seen ∧ (seen.Nodup → ∀ c ∈ seen,
      votes.get? c = some (((listed c).map fun e => balance (bytesToAddress e.2)).sum))) cs
    (f := fun votes c => countCandidate balance delegateTrie c.bytes votes)
    (fun seen votes c _ ⟨hcounts, hscores⟩ => by
      obtain ⟨votes', hok, hcounts'⟩ := countCandidate_counts balance hd c.bytes_ne_nil hcounts
      rw [bytesToAddress_bytes] at hcounts'
      refine ⟨votes', hok, hcounts', ?_⟩
      intro hnodup b hb
      rw [nodup_append] at hnodup
      obtain ⟨hseen, -, hdisj⟩ := hnodup
      have hnew : c ∉ seen := fun hc => hdisj c hc c (mem_singleton.2 rfl) rfl
      rw [countCandidate_score balance hd (hlisted c) hok
        (Votes.get?_eq_none (fun hc => hnew ((hcounts.mem_iff c).1 hc)))]
      rcases mem_append.1 hb with hb | hb
      · rw [if_neg fun hbc : b = c => hnew (hbc ▸ hb)]
        exact hscores hseen b hb
      · obtain rfl := mem_singleton.1 hb
        exact if_pos rfl)
    [] [] ⟨⟨nodup_nil, by simp⟩, fun _ => by simp⟩
  exact ⟨votes, hfold, hcounts, hscores hcs⟩

theorem Votes.sum_eq {cs : List Address} (h : votes.Counts cs) {weight : Address → Int}
    (hw : ∀ c ∈ cs, votes.get? c = some (weight c)) :
    (votes.map (·.2)).sum = ∑ c ∈ (votes.map (·.1)).toFinset, weight c := by
  rw [sum_toFinset weight h.nodup, map_map]
  refine congrArg sum (map_congr_left ?_)
  intro e he
  have hget := hw e.1 ((h.mem_iff e.1).1 (mem_map_of_mem he))
  rw [Votes.get?_of_mem h.nodup he] at hget
  exact Option.some.inj hget

/-- No account is counted for two candidates. -/
theorem sum_voters_le {cs : Finset Address} {voters : Address → Finset Address}
    (hdisj : ∀ c c' a, a ∈ voters c → a ∈ voters c' → c = c') (hnonneg : ∀ a, 0 ≤ balance a)
    {accounts : Finset Address} (hall : ∀ a ∉ accounts, balance a = 0) :
    ∑ c ∈ cs, ∑ a ∈ voters c, balance a ≤ ∑ a ∈ accounts, balance a := by
  have hpair : Set.PairwiseDisjoint (cs : Set Address) voters := by
    intro c _ c' _ hne
    rw [Function.onFun, Finset.disjoint_left]
    intro a ha ha'
    exact hne (hdisj c c' a ha ha')
  calc ∑ c ∈ cs, ∑ a ∈ voters c, balance a
      = ∑ a ∈ cs.biUnion voters, balance a := (Finset.sum_biUnion hpair).symm
    _ ≤ ∑ a ∈ cs.biUnion voters ∪ accounts, balance a :=
        Finset.sum_le_sum_of_subset_of_nonneg Finset.subset_union_left fun a _ _ => hnonneg a
    _ = ∑ a ∈ accounts, balance a :=
        (Finset.sum_subset Finset.subset_union_right fun a _ ha => hall a ha).symm

end

/-- **A count of the votes gives every candidate the balances of those who voted for it**, enters
nobody else, and hands out no more than there is. -/
theorem countVotes_weights {d : DposContext} (hw : Whole d) (hc : d.Consistent) (hi : Indexed d)
    (hne : ∃ c, d.candidateEntry c ≠ none) (balance : Address → Int) :
    ∃ (votes : Votes) (voters : Address → Finset Address), countVotes balance d = .ok votes ∧
      (votes.map (·.1)).Nodup ∧ (∀ c, c ∈ votes.map (·.1) ↔ d.candidateEntry c ≠ none) ∧
      (∀ c a, a ∈ voters c ↔ d.voteEntry a = some c.bytes) ∧
      (∀ c, d.candidateEntry c ≠ none → votes.get? c = some (∑ a ∈ voters c, balance a)) ∧
      ((∀ a, 0 ≤ balance a) → ∀ accounts : Finset Address, (∀ a ∉ accounts, balance a = 0) →
        (votes.map (·.2)).sum ≤ ∑ a ∈ accounts, balance a) := by
  obtain ⟨m, h⟩ := hw.keeping
  have hb := h.ballots
  choose listed hlisted _ using fun c : Address => hb.delegates.newPrefix c.bytes_ne_nil
  obtain ⟨es, hes, hy⟩ := h.candidateEntries
  obtain ⟨cs, hvalues, hnodup, hmem⟩ := candidates_of_entries hb hc hi hes
  obtain ⟨votes, hfold, hcounts, hscores⟩ := foldlM_countCandidate balance hb.delegates hlisted hnodup
  let voters : Address → Finset Address := fun c => ((listed c).map fun e => bytesToAddress e.2).toFinset
  have hvoters : ∀ c a, a ∈ voters c ↔ d.voteEntry a = some c.bytes := by
    intro c a
    rw [mem_toFinset]
    exact (voters_of_entries hb hc hi (hlisted c)).2 a
  have hsum : ∀ c, ((listed c).map fun e => balance (bytesToAddress e.2)).sum = ∑ a ∈ voters c, balance a := by
    intro c
    rw [sum_toFinset balance (voters_of_entries hb hc hi (hlisted c)).1, map_map]
    rfl
  have hscore : ∀ c ∈ cs, votes.get? c = some (∑ a ∈ voters c, balance a) := by
    intro c hin
    rw [hscores c hin, hsum]
  refine ⟨votes, voters, ?_, hcounts.nodup, ?_, hvoters, ?_, ?_⟩
  · rw [hvalues] at hy
    cases cs with
    | nil =>
      obtain ⟨c, hcand⟩ := hne
      exact nomatch (hmem c).2 hcand
    | cons c cs =>
      rw [countVotes_eq balance hy, ← hfold, ← map_cons, foldlM_map]
  · intro c
    rw [hcounts.mem_iff, hmem]
  · intro c hcand
    exact hscore c ((hmem c).2 hcand)
  · intro hnonneg accounts hall
    rw [Votes.sum_eq hcounts hscore]
    refine sum_voters_le balance ?_ hnonneg hall
    intro c c' a ha ha'
    rw [hvoters] at ha ha'
    exact FixedBytes.ext (Option.some.inj (ha.symm.trans ha'))

/-- Two accounts vote for one of two candidates. -/
def pollOps : List (Poll.Op Address) :=
  [.becomeCandidate (address 1), .becomeCandidate (address 2),
    .delegate (address 3) (address 1), .delegate (address 4) (address 1)]

def polled : DposContext := (new nodes).run pollOps

theorem countVotes_weights_polled : ∃ (votes : Votes) (voters : Address → Finset Address),
    countVotes (fun _ => 7) polled = .ok votes ∧ (∀ c a, a ∈ voters c ↔ polled.voteEntry a = some c.bytes) ∧
    votes.get? (address 1) = some (∑ _a ∈ voters (address 1), 7) := by
  have hnew := new_holds nodes
  have hindexed : Indexed (new nodes) := by
    constructor
    · intro k hk
      rw [hnew.candidates.get_fst] at hk
      exact absurd rfl hk
    · intro k hk
      rw [hnew.delegates.get_fst] at hk
      exact absurd rfl hk
  have hcons := new_consistent nodes
  obtain ⟨hr, hc⟩ := hcons.run hnew.readable pollOps
  have hsame := run_sameBooks (new nodes) pollOps
  have hkeys : (new nodes).candidateTrie.prefix_ = candidatePrefix := rfl
  have hepoch : (new nodes).epochTrie.Readable := ⟨_, Trie.holds_empty _ _⟩
  have hmint : (new nodes).mintCntTrie.Readable := ⟨_, Trie.holds_empty _ _⟩
  rw [← hsame.epoch] at hepoch
  rw [← hsame.mintCnt] at hmint
  rw [← hsame.candidateKeys] at hkeys
  have hw : Whole ((new nodes).run pollOps) := ⟨hepoch, hr, hmint, hkeys⟩
  have hcand : polled.candidateEntry (address 1) ≠ none := by decide +kernel
  obtain ⟨votes, voters, hok, -, -, hvoters, hscore, -⟩ := countVotes_weights hw hc (hindexed.run hcons hnew.readable pollOps)
    ⟨address 1, hcand⟩ (fun _ => 7)
  exact ⟨votes, voters, hok, hvoters, hscore _ hcand⟩

end Bgmchain.Dpos
