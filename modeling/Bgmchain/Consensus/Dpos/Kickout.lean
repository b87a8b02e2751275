import Bgmchain.Consensus.Dpos.Election

/-! # Kicking out validators, on the maps

What `kickoutValidator` computes from the maps a readable context holds: which
validators fall short, how many of them may go, and what is left. -/
namespace Bgmchain.Dpos
open Common List LeafIterator

/-- The maps held by all five tries, and the database that the mint counts are
read from. -/
structure Books where
  epoch : Bytes → Option Bytes
  ballots : Ballots
  mintCnt : Bytes → Option Bytes
  mintDb : NodeDatabase

/-- The context can be read in full and holds these maps. -/
structure Keeping (d : DposContext) (m : Books) : Prop where
  epoch : d.epochTrie.Holds m.epoch
  ballots : d.Holds m.ballots
  mintCnt : d.mintCntTrie.Holds m.mintCnt
  mintDb : d.mintCntTrie.db = m.mintDb
  candidateKeys : d.candidateTrie.prefix_ = candidatePrefix

/-- Every node of the five tries can be read. -/
structure Whole (d : DposContext) : Prop where
  epoch : d.epochTrie.Readable
  ballots : d.Readable
  mintCnt : d.mintCntTrie.Readable
  candidateKeys : d.candidateTrie.prefix_ = candidatePrefix

variable {d : DposContext}

theorem Whole.keeping (h : Whole d) : ∃ m, Keeping d m := by
  obtain ⟨epoch, hepoch⟩ := h.epoch
  obtain ⟨ballots, hballots⟩ := h.ballots.holds
  obtain ⟨mintCnt, hmint⟩ := h.mintCnt
  exact ⟨⟨epoch, ballots, mintCnt, _⟩, hepoch, hballots, hmint, rfl, h.candidateKeys⟩

variable {m : Books}

theorem Keeping.whole (h : Keeping d m) : Whole d :=
  ⟨⟨_, h.epoch⟩, h.ballots.readable, ⟨_, h.mintCnt⟩, h.candidateKeys⟩

theorem Keeping.setEpoch (h : Keeping d m) {t : Trie} {epoch}
    (ht : t.Holds epoch) : Keeping { d with epochTrie := t } { m with epoch := epoch } :=
  ⟨ht, ⟨h.ballots.1, h.ballots.2, h.ballots.3⟩, h.mintCnt, h.mintDb, h.candidateKeys⟩

/-- The candidates can be listed. -/
theorem Keeping.candidateEntries (h : Keeping d m) : ∃ es, Entries m.ballots.candidates (fun _ => True) es ∧
      (new d.candidateTrie []).Yields d.candidateTrie.db (es.map Prod.snd) := by
  refine h.ballots.candidates.newIterator ?_
  rw [h.candidateKeys]
  decide

/-! ## Reading -/

/-- The validators an epoch map lists. -/
def validatorsOf (epoch : Bytes → Option Bytes) : Option (List Address) :=
  DposContext.decodeValidators ((epoch DposContext.validatorKey).getD [])

/-- The count of a validator, as `kickoutValidator` reads it: nothing when the
entry is too short to be a number. -/
def countOf (mintCnt : Bytes → Option Bytes) (epoch : Int) (v : Address) : Option Int :=
  match mintCnt (mintCntKey epoch v) with
  | none => some 0
  | some b => (getUint64 b).map fun n => int64 n

theorem Keeping.getValidators (h : Keeping d m) :
    ∃ d', Keeping d' m ∧ d.getValidators =
      ((match validatorsOf m.epoch with
        | none => .error .failedToDecodeValidators
        | some vs => .ok vs), d') := by
  obtain ⟨t, hg, ht⟩ := h.epoch.get DposContext.validatorKey
  refine ⟨{ d with epochTrie := t }, h.setEpoch ht, ?_⟩
  unfold DposContext.getValidators validatorsOf
  rw [hg]
  dsimp only
  cases DposContext.decodeValidators ((m.epoch DposContext.validatorKey).getD []) <;> rfl

theorem Keeping.mintCnt_eq (h : Keeping d m) (epoch : Int) (v : Address) :
    ∃ d', Keeping d' m ∧ Dpos.mintCnt epoch v d =
      match countOf m.mintCnt epoch v with
      | none => .error .panicked d'
      | some cnt => .ok cnt d' := by
  obtain ⟨t, hg, ht⟩ := h.mintCnt.get (mintCntKey epoch v)
  have hdb := (Trie.get_frame d.mintCntTrie (mintCntKey epoch v)).1
  rw [hg] at hdb
  refine ⟨{ d with mintCntTrie := t }, ⟨h.epoch, ⟨h.ballots.1, h.ballots.2, h.ballots.3⟩, ht,
    hdb.trans h.mintDb, h.candidateKeys⟩, ?_⟩
  unfold Dpos.mintCnt countOf
  rw [hg]
  cases m.mintCnt (mintCntKey epoch v) with
  | none => rfl
  | some b =>
    dsimp only
    cases getUint64 b <;> rfl

/-- The validators that fall short, with their counts. -/
def needOf (mintCnt : Bytes → Option Bytes) (epoch required : Int) :
    List Address → Option (List (Address × Int))
  | [] => some []
  | v :: vs => do
    let cnt ← countOf mintCnt epoch v
    let need ← needOf mintCnt epoch required vs
    return if cnt < required then (v, cnt) :: need else need

theorem mem_needOf {mintCnt : Bytes → Option Bytes} {epoch required : Int} {vs : List Address}
    {need : List (Address × Int)} (h : needOf mintCnt epoch required vs = some need) {e : Address × Int} :
    e ∈ need ↔ e.1 ∈ vs ∧ countOf mintCnt epoch e.1 = some e.2 ∧ e.2 < required := by
  induction vs generalizing need with
  | nil =>
    cases h
    simp
  | cons v vs ih =>
    simp only [needOf, bind, Option.bind_eq_some_iff] at h
    obtain ⟨cnt, hcnt, need', hneed, heq⟩ := h
    cases heq
    have hhead : e.1 = v ∧ countOf mintCnt epoch e.1 = some e.2 ↔ e = (v, cnt) := by
      constructor
      · rintro ⟨hv, h2⟩
        rw [hv, hcnt] at h2
        exact Prod.ext hv (Option.some.inj h2).symm
      · rintro rfl
        exact ⟨rfl, hcnt⟩
    rw [mem_cons, or_and_right, ← ih hneed, ← and_assoc, hhead]
    by_cases hlt : cnt < required
    · rw [if_pos hlt, mem_cons]
      exact or_congr_left ⟨fun he => ⟨he, he ▸ hlt⟩, And.left⟩
    · rw [if_neg hlt]
      exact (or_iff_right fun ⟨he, hlt'⟩ => hlt (by rwa [he] at hlt')).symm

theorem Keeping.needKickout (epoch required : Int) (vs : List Address) :
    ∀ {d : DposContext}, Keeping d m → ∃ d', Keeping d' m ∧ Dpos.needKickout epoch required vs d =
      match needOf m.mintCnt epoch required vs with
      | none => .error .panicked d'
      | some need => .ok need d' := by
  induction vs with
  | nil => intro d h; exact ⟨d, h, rfl⟩
  | cons v vs ih =>
    intro d h
    obtain ⟨d1, h1, hcnt⟩ := h.mintCnt_eq epoch v
    obtain ⟨d2, h2, hneed⟩ := ih h1
    rw [needKickout_cons, hcnt]
    cases hc : countOf m.mintCnt epoch v with
    | none => exact ⟨d1, h1, by simp [needOf, hc]⟩
    | some cnt =>
      dsimp only
      rw [hneed]
      cases hn : needOf m.mintCnt epoch required vs with
      | none | some need => exact ⟨d2, h2, by simp [needOf, hc, hn]⟩

/-- Every candidate is entered under its address, and every count of the epoch is
long enough to be read. -/
structure Books.Sound (m : Books) (epoch : Int) : Prop where
  candidate : ∀ k v, m.ballots.candidates k = some v → ∃ c : Address, k = c.bytes ∧ v = c.bytes
  count : ∀ v, countOf m.mintCnt epoch v ≠ none

theorem exists_needOf {mintCnt : Bytes → Option Bytes} {epoch : Int} (required : Int)
    (h : ∀ v, countOf mintCnt epoch v ≠ none) (vs : List Address) :
    ∃ need, needOf mintCnt epoch required vs = some need := by
  induction vs with
  | nil => exact ⟨[], rfl⟩
  | cons v vs ih =>
    obtain ⟨cnt, hcnt⟩ := Option.ne_none_iff_exists'.mp (h v)
    obtain ⟨need, hneed⟩ := ih
    exact ⟨_, by simp only [needOf, hcnt, hneed]; rfl⟩

/-! ## Counting candidates -/

theorem foldlM_count (limit : Nat) (vs : List Bytes) : ∀ n, n < limit → vs.foldlM (fun n (_ : Bytes) =>
        (if n + 1 ≥ limit then .error (some (n + 1)) else .ok (n + 1) : Except (Option Nat) Nat)) n =
      if n + vs.length < limit then .ok (n + vs.length) else .error (some limit) := by
  induction vs with
  | nil => intro n hn; simp [hn, pure, Except.pure]
  | cons v vs ih =>
    intro n hn
    by_cases hlim : n + 1 ≥ limit
    · have heq : n + 1 = limit := by omega
      have hnot : ¬ n + (v :: vs).length < limit := by
        simp only [length_cons]
        omega
      simp only [foldlM_cons, if_pos hlim, bind, Except.bind, if_neg hnot]
      rw [heq]
    · have hlen : n + 1 + vs.length = n + (v :: vs).length := by
        simp only [length_cons]
        omega
      simp only [foldlM_cons, if_neg hlim, bind, Except.bind]
      rw [ih (n + 1) (by omega), hlen]

/-- `countCandidates` counts the entries of the candidate trie up to its limit. -/
theorem Keeping.countCandidates (h : Keeping d m) {es}
    (hes : Entries m.ballots.candidates (fun _ => True) es) {limit : Nat} (hl : 0 < limit) :
    Dpos.countCandidates d limit = .ok (min es.length limit) := by
  obtain ⟨es', hes', hy⟩ := h.candidateEntries
  obtain rfl := hes.unique hes'
  have hloop : each (fun _ => d.candidateTrie) (fun _ => none)
      (fun _ n => if n + 1 ≥ limit then .error (some (n + 1)) else .ok (n + 1))
      (new d.candidateTrie []).nodeIt.fuel (new d.candidateTrie []) 0 = _ :=
    hy.each (fun _ => none) (fun _ _ _ hdb _ => hdb) 0 _ rfl hy.length_lt
  unfold Dpos.countCandidates
  dsimp only
  rw [hloop, foldlM_count limit _ 0 hl]
  simp only [length_map, Nat.zero_add]
  by_cases hlt : es.length < limit
  · simp only [if_pos hlt]
    rw [Nat.min_eq_left (by omega)]
  · simp only [if_neg hlt]
    rw [Nat.min_eq_right (by omega)]

/-! ## The loop -/

/-- The ballots after candidates have been kicked out one by one. -/
noncomputable def kickAll (b : Ballots) (kicked : List (Address × Int)) : Ballots :=
  kicked.foldl (fun b e => b.kickoutCandidate e.1) b

theorem kickAll_candidates (kicked : List (Address × Int)) (k : Bytes) :
    ∀ b : Ballots, (kickAll b kicked).candidates k =
      if k ∈ kicked.map (·.1.bytes) then none else b.candidates k := by
  induction kicked with
  | nil => intro b; simp [kickAll]
  | cons e kicked ih =>
    intro b
    have hstep : kickAll b (e :: kicked) = kickAll (b.kickoutCandidate e.1) kicked := rfl
    rw [hstep, ih]
    by_cases hk : k = e.1.bytes
    · simp [Ballots.kickoutCandidate, hk]
    · simp only [Ballots.kickoutCandidate, Function.update_of_ne hk, hk, map_cons, mem_cons,
        false_or]

/-- The ballots change and the other books stay. -/
theorem Keeping.of_sameBooks {d' : DposContext} (h : Keeping d m) (hb : d.SameBooks d')
    {ballots : Ballots} (hd' : d'.Holds ballots) : Keeping d' { m with ballots := ballots } := by
  refine ⟨?_, hd', ?_, ?_, hb.candidateKeys.trans h.candidateKeys⟩
  · rw [hb.epoch]
    exact h.epoch
  · rw [hb.mintCnt]
    exact h.mintCnt
  · rw [hb.mintCnt]
    exact h.mintDb

theorem Keeping.kickoutCandidate (h : Keeping d m) (c : Address) :
    ∃ d', d.kickoutCandidate c = (none, d') ∧
      Keeping d' { m with ballots := m.ballots.kickoutCandidate c } := by
  obtain ⟨d', he, hd'⟩ := h.ballots.kickoutCandidate c
  have hb := DposContext.kickoutCandidate_sameBooks d c
  rw [he] at hb
  exact ⟨d', he, h.of_sameBooks hb hd'⟩

/-- The loop kicks out as many as there are candidates above the safe number. -/
theorem Keeping.kickoutLoop (need : List (Address × Int)) :
    ∀ {n : Nat} {d : DposContext} {m : Books}, Keeping d m →
      ∃ d', Dpos.kickoutLoop n need d = .ok () d' ∧
        Keeping d' { m with ballots := kickAll m.ballots (need.take (n - safeSize)) } := by
  induction need with
  | nil => intro n d m h; exact ⟨d, rfl, by simpa [kickAll] using h⟩
  | cons e need ih =>
    intro n d m h
    rw [kickoutLoop_cons]
    by_cases hn : n ≤ safeSize
    · rw [if_pos hn, Nat.sub_eq_zero_of_le hn]
      exact ⟨d, rfl, by simpa [kickAll] using h⟩
    · rw [if_neg hn]
      obtain ⟨d1, hk, h1⟩ := h.kickoutCandidate e.1
      obtain ⟨d2, hrest, h2⟩ := ih (n := n - 1) h1
      rw [hk]
      refine ⟨d2, hrest, ?_⟩
      obtain ⟨k, hk⟩ : ∃ k, n - safeSize = k + 1 := ⟨n - safeSize - 1, by omega⟩
      have hk' : n - 1 - safeSize = k := by omega
      rw [hk]
      rw [hk'] at h2
      simpa [kickAll] using h2

section
variable [Crypto]

/-- The validators that `kickoutValidator` kicks out, when `count` entries are in
the candidate trie. -/
def kickedOut (need : List (Address × Int)) (count : Nat) : List (Address × Int) :=
  (sortReverse need).take (min count (need.length + safeSize) - safeSize)

theorem mem_kickedOut {need : List (Address × Int)} {count : Nat} {e : Address × Int}
    (h : e ∈ kickedOut need count) : e ∈ need :=
  (perm_insertionSort _ need).mem_iff.mp (mem_of_mem_take h)

/-- **`kickoutValidator` on the maps.** -/
theorem Keeping.kickoutValidator {d : DposContext} {m : Books} (h : Keeping d m) {es}
    (hes : Entries m.ballots.candidates (fun _ => True) es) (ts first epoch : Int) :
    (∃ e d', Dpos.kickoutValidator ts first epoch d = .error e d' ∧ Keeping d' m ∧
      (m.Sound epoch → e.isPanic = false) ∧
      (validatorsOf m.epoch = none ∨ validatorsOf m.epoch = some [] ∨
        ∃ vs, validatorsOf m.epoch = some vs ∧ needOf m.mintCnt epoch (minBlocks ts first) vs = none)) ∨
    ∃ vs need d', validatorsOf m.epoch = some vs ∧ vs ≠ [] ∧
      needOf m.mintCnt epoch (minBlocks ts first) vs = some need ∧
      Dpos.kickoutValidator ts first epoch d = .ok () d' ∧
      Keeping d' { m with ballots := kickAll m.ballots (kickedOut need es.length) } := by
  obtain ⟨d1, h1, hv⟩ := h.getValidators
  rw [kickoutValidator_eq, hv]
  cases hvs : validatorsOf m.epoch with
  | none => exact .inl ⟨_, d1, rfl, h1, fun _ => rfl, .inl rfl⟩
  | some vs =>
    dsimp only
    by_cases hnil : vs = []
    · rw [if_pos hnil]
      exact .inl ⟨_, d1, rfl, h1, fun _ => rfl, .inr (.inl (by rw [hnil]))⟩
    · rw [if_neg hnil]
      obtain ⟨d2, h2, hneed⟩ := Keeping.needKickout epoch (minBlocks ts first) vs h1
      rw [hneed]
      cases hn : needOf m.mintCnt epoch (minBlocks ts first) vs with
      | none =>
        refine .inl ⟨_, d2, rfl, h2, fun hs => ?_, .inr (.inr ⟨vs, rfl, hn⟩)⟩
        obtain ⟨need, hneed⟩ := exists_needOf (minBlocks ts first) hs.count vs
        rw [hn] at hneed
        cases hneed
      | some need =>
        refine .inr ⟨vs, need, ?_⟩
        dsimp only
        by_cases hne : need = []
        · subst hne
          refine ⟨d2, rfl, hnil, hn, by rw [if_pos rfl], ?_⟩
          simpa [kickAll, kickedOut, sortReverse] using h2
        · rw [if_neg hne, h2.countCandidates hes (by unfold safeSize; omega)]
          obtain ⟨d3, hloop, h3⟩ := Keeping.kickoutLoop (sortReverse need)
            (n := min es.length (need.length + safeSize)) h2
          exact ⟨d3, rfl, hnil, hn, hloop, h3⟩

end

end Bgmchain.Dpos
