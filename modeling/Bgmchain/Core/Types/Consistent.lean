import Bgmchain.Core.Types.Contents

/-! # Consistency of the DPoS context

A context is consistent when its vote trie and its delegate trie are inverse to
each other, votes are for candidates and entries store what their keys say. The
four operations keep that. A genesis context does not start there: its
validators are listed behind themselves and have no vote, until each of them
has been kicked out or has delegated to itself. -/
namespace Bgmchain
open Common Function DposContext

namespace DposContext

def candidateEntry (d : DposContext) (c : Address) : Option Bytes := (d.candidateTrie.get c.bytes).1

def delegateEntry (d : DposContext) (c a : Address) : Option Bytes :=
  (d.delegateTrie.get (c.bytes ++ a.bytes)).1

def voteEntry (d : DposContext) (a : Address) : Option Bytes := (d.voteTrie.get a.bytes).1

/-- The delegate, vote and candidate tries can be read in full. -/
structure Readable (d : DposContext) : Prop where
  delegate : d.delegateTrie.Readable
  vote : d.voteTrie.Readable
  candidate : d.candidateTrie.Readable

/-- The three tries tell one story. -/
structure Consistent (d : DposContext) : Prop where
  vote_iff : ∀ a c, d.voteEntry a = some c.bytes ↔ d.delegateEntry c a ≠ none
  delegate_holds : ∀ c a v, d.delegateEntry c a = some v → v = a.bytes
  candidate_of_vote : ∀ a c, d.voteEntry a = some c.bytes → d.candidateEntry c ≠ none
  candidate_holds : ∀ c v, d.candidateEntry c = some v → v = c.bytes

/-- What `KickoutCandidate` of `c` takes from `d`, and nothing else: the
candidate, and the delegate and vote entries of its delegators. -/
structure KicksOut (c : Address) (d d' : DposContext) : Prop where
  candidate : ∀ k, (d'.candidateTrie.get k).1 = if k = c.bytes then none else (d.candidateTrie.get k).1
  delegate : ∀ c' a, d'.delegateEntry c' a = if c' = c then none else d.delegateEntry c' a
  delegate_other : ∀ k, ¬ c.bytes <+: k → (d'.delegateTrie.get k).1 = (d.delegateTrie.get k).1
  vote : ∀ a, d'.voteEntry a = if d.delegateEntry c a ≠ none then none else d.voteEntry a
  vote_other : ∀ k, (d.voteTrie.get k).1 ≠ some c.bytes → (d'.voteTrie.get k).1 = (d.voteTrie.get k).1
  epoch : d'.epochTrie = d.epochTrie
  mintCnt : d'.mintCntTrie = d.mintCntTrie

variable {d : DposContext} {m : Ballots}

theorem Holds.candidateEntry (h : d.Holds m) (c : Address) : d.candidateEntry c = m.candidates c.bytes :=
  h.candidates.get_fst _

theorem Holds.delegateEntry (h : d.Holds m) (c a : Address) :
    d.delegateEntry c a = m.delegates (c.bytes ++ a.bytes) := h.delegates.get_fst _

theorem Holds.voteEntry (h : d.Holds m) (a : Address) : d.voteEntry a = m.votes a.bytes :=
  h.votes.get_fst _

theorem Holds.readable (h : d.Holds m) : d.Readable :=
  ⟨⟨_, h.delegates⟩, ⟨_, h.votes⟩, ⟨_, h.candidates⟩⟩

theorem Readable.holds (h : d.Readable) : ∃ m, d.Holds m :=
  let ⟨dm, hd⟩ := h.delegate
  let ⟨vm, hv⟩ := h.vote
  let ⟨cm, hc⟩ := h.candidate
  ⟨⟨dm, vm, cm⟩, hd, hv, hc⟩

theorem Holds.consistent_iff (h : d.Holds m) : d.Consistent ↔ m.Stored ∧ m.poll.Agrees ∅ := by
  constructor
  · intro hc
    refine ⟨⟨?_, ?_⟩, ?_, ?_, ?_⟩
    · intro c a v hv
      exact hc.delegate_holds c a v (h.delegateEntry c a ▸ hv)
    · intro c v hv
      exact hc.candidate_holds c v (h.candidateEntry c ▸ hv)
    · intro c a
      have hiff := hc.vote_iff a c
      rw [h.voteEntry, h.delegateEntry, ← Ballots.vote_eq_some] at hiff
      exact hiff.symm.trans (by simp)
    · intro a c hv
      have hcand := hc.candidate_of_vote a c
      rw [h.voteEntry, h.candidateEntry] at hcand
      exact hcand (Ballots.vote_eq_some.mp hv)
    · intro a ha
      exact ha.elim
  · intro ⟨hs, ha⟩
    refine ⟨?_, ?_, ?_, ?_⟩
    · intro a c
      rw [h.voteEntry, h.delegateEntry, ← Ballots.vote_eq_some]
      exact ((ha.listed_iff c a).trans (by simp)).symm
    · intro c a v hv
      exact hs.delegate c a v (h.delegateEntry c a ▸ hv)
    · intro a c hv
      rw [h.candidateEntry]
      rw [h.voteEntry] at hv
      exact ha.candidate_of_vote (Ballots.vote_eq_some.mpr hv)
    · intro c v hv
      exact hs.candidate c v (h.candidateEntry c ▸ hv)

/-- Consistency is kept by one operation. -/
theorem Consistent.apply (hc : d.Consistent) (hr : d.Readable) (op : Poll.Op Address) :
    (d.apply op).2.Readable ∧ (d.apply op).2.Consistent := by
  obtain ⟨m, h⟩ := hr.holds
  obtain ⟨hs, ha⟩ := h.consistent_iff.mp hc
  have h' := h.apply op
  refine ⟨h'.readable, h'.consistent_iff.mpr ⟨hs.step op, ?_⟩⟩
  simpa using hs.agrees_step ha op

/-- Consistency is kept by a whole run. -/
theorem Consistent.run (hc : d.Consistent) (hr : d.Readable) (ops : List (Poll.Op Address)) :
    (d.run ops).Readable ∧ (d.run ops).Consistent := by
  induction ops generalizing d with
  | nil => exact ⟨hr, hc⟩
  | cons op ops ih =>
    obtain ⟨hr', hc'⟩ := hc.apply hr op
    exact ih hc' hr'

/-- The parts of a context that no delegation touches are the same. -/
structure SameBooks (d d' : DposContext) : Prop where
  epoch : d'.epochTrie = d.epochTrie
  mintCnt : d'.mintCntTrie = d.mintCntTrie
  db : d'.db = d.db
  candidateKeys : d'.candidateTrie.prefix_ = d.candidateTrie.prefix_

section
variable (d : DposContext)

theorem SameBooks.refl : d.SameBooks d := ⟨rfl, rfl, rfl, rfl⟩

theorem SameBooks.trans {d d' d'' : DposContext} (h : d.SameBooks d') (h' : d'.SameBooks d'') :
    d.SameBooks d'' :=
  ⟨h'.epoch.trans h.epoch, h'.mintCnt.trans h.mintCnt, h'.db.trans h.db,
    h'.candidateKeys.trans h.candidateKeys⟩

theorem kept_sameBooks : Kept d.SameBooks where
  candidates h hc := ⟨h.epoch, h.mintCnt, h.db, hc.prefix_eq.trans h.candidateKeys⟩
  delegates h _ := ⟨h.epoch, h.mintCnt, h.db, h.candidateKeys⟩
  votes h _ := ⟨h.epoch, h.mintCnt, h.db, h.candidateKeys⟩

theorem kickoutCandidate_sameBooks (c : Address) : d.SameBooks (d.kickoutCandidate c).2 :=
  (kept_sameBooks d).kickoutCandidate c (.refl d)

/-- The operations touch neither the epoch trie nor the mint counts. -/
theorem apply_sameBooks (op : Poll.Op Address) : d.SameBooks (d.apply op).2 :=
  (kept_sameBooks d).apply (.refl d) op

theorem run_sameBooks (ops : List (Poll.Op Address)) : d.SameBooks (d.run ops) := by
  induction ops generalizing d with
  | nil => exact .refl d
  | cons op ops ih => exact (apply_sameBooks d op).trans (ih (d.apply op).2)

end

/-- What a consistent context loses when a candidate is kicked out. -/
theorem Consistent.kicksOut (hc : d.Consistent) (hr : d.Readable) (c : Address) :
    KicksOut c d (d.kickoutCandidate c).2 := by
  classical
  obtain ⟨m, h⟩ := hr.holds
  obtain ⟨hs, ha⟩ := h.consistent_iff.mp hc
  obtain ⟨d', he, h'⟩ := h.kickoutCandidate c
  have hpoll := Ballots.poll_kickoutCandidate hs
    (fun a c hv => (ha.listed_iff c a).mpr (.inl hv)) c
  have hbooks := kickoutCandidate_sameBooks d c
  rw [he] at hbooks ⊢
  refine ⟨?_, ?_, ?_, ?_, ?_, hbooks.epoch, hbooks.mintCnt⟩
  · intro k
    rw [h'.candidates.get_fst, h.candidates.get_fst]
    by_cases hk : k = c.bytes
    · simp [Ballots.kickoutCandidate, hk]
    · simp [Ballots.kickoutCandidate, hk]
  · intro c' a
    rw [h'.delegateEntry, h.delegateEntry]
    by_cases hcc : c' = c
    · subst hcc
      rw [if_pos rfl]
      by_contra hn
      have : (m.kickoutCandidate c').poll.listed c' a := hn
      rw [hpoll] at this
      exact this.1 rfl
    · rw [if_neg hcc]
      refine if_neg ?_
      rintro ⟨v, _, hv⟩
      exact hcc (append_bytes_inj.mp hv).1
  · intro k hk
    rw [h'.delegates.get_fst, h.delegates.get_fst]
    refine if_neg ?_
    rintro ⟨v, _, hv⟩
    exact hk (hv ▸ List.prefix_append _ _)
  · intro a
    rw [h'.voteEntry, h.voteEntry, h.delegateEntry]
    have hiff := hc.vote_iff a c
    rw [h.voteEntry, h.delegateEntry] at hiff
    by_cases hd : m.delegates (c.bytes ++ a.bytes) ≠ none
    · rw [if_pos hd]
      exact if_pos ⟨hs.behind hd, hiff.mpr hd⟩
    · rw [if_neg hd]
      exact if_neg fun hb => hd (hiff.mp hb.2)
  · intro k hk
    rw [h'.votes.get_fst, h.votes.get_fst]
    rw [h.votes.get_fst] at hk
    exact if_neg fun hb => hk hb.2

theorem new_holds (db : NodeDatabase) : (new db).Holds ⟨fun _ => none, fun _ => none, fun _ => none⟩ :=
  ⟨Trie.holds_empty _ _, Trie.holds_empty _ _, Trie.holds_empty _ _⟩

theorem new_consistent (db : NodeDatabase) : (new db).Consistent := by
  refine (new_holds db).consistent_iff.mpr ⟨⟨by simp, by simp⟩, ?_⟩
  exact ⟨by simp [Ballots.poll], by simp [Ballots.poll], by simp⟩

/-- **The operations keep a context consistent**, and kicking out a candidate
takes exactly that candidate and its delegations. -/
theorem consistent_apply (hr : d.Readable) (hc : d.Consistent) :
    (∀ op, (d.apply op).2.Readable ∧ (d.apply op).2.Consistent) ∧ ∀ c, KicksOut c d (d.kickoutCandidate c).2 :=
  ⟨hc.apply hr, hc.kicksOut hr⟩

/-- Two delegators behind one candidate, one of them the candidate itself. -/
theorem consistent_apply_two_delegators :
    let a : Address := bytesToAddress [1]
    let c : Address := bytesToAddress [2]
    let d := (new ⟨fun _ _ => none, 0⟩).run [.becomeCandidate c, .delegate a c, .delegate c c]
    d.Readable ∧ d.Consistent ∧ d.voteEntry a = some c.bytes ∧
      (∀ op, (d.apply op).2.Readable ∧ (d.apply op).2.Consistent) ∧
      ∀ c, KicksOut c d (d.kickoutCandidate c).2 := by
  intro a c d
  obtain ⟨hr, hc⟩ := (new_consistent ⟨fun _ _ => none, 0⟩).run (new_holds _).readable
    [.becomeCandidate c, .delegate a c, .delegate c c]
  exact ⟨hr, hc, by decide +kernel, consistent_apply hr hc⟩

end DposContext

/-! ## From genesis -/

namespace Ballots

/-- The entries a genesis validator gets: it stands and is listed behind itself. -/
def genesisValidator (m : Ballots) (v : Address) : Ballots :=
  { m with
    delegates := update m.delegates (v.bytes ++ v.bytes) (some v.bytes)
    candidates := update m.candidates v.bytes (some v.bytes) }

variable {m : Ballots}

theorem Stored.genesisValidator (hs : m.Stored) (v : Address) : (m.genesisValidator v).Stored := by
  constructor
  · intro c a w hw
    rcases update_eq_some hw with ⟨hk, he⟩ | hw
    · rw [(pair_eq.mp hk).2]
      exact (Option.some.inj he).symm
    · exact hs.delegate c a w hw
  · intro c w hw
    rcases update_eq_some hw with ⟨hk, he⟩ | hw
    · exact (Option.some.inj he).symm.trans hk.symm
    · exact hs.candidate c w hw

/-- Before any vote a genesis validator becomes a stray. -/
theorem agrees_genesisValidator {strays : Set Address} (ha : m.poll.Agrees strays)
    (hv : ∀ a, m.poll.vote a = none) (v : Address) : (m.genesisValidator v).poll.Agrees (insert v strays) := by
  refine ⟨?_, ?_, ?_⟩
  · intro c a
    show update m.delegates (v.bytes ++ v.bytes) (some v.bytes) (c.bytes ++ a.bytes) ≠ none ↔
      m.poll.vote a = some c ∨ _
    rw [hv, Set.mem_insert_iff]
    by_cases hk : c.bytes ++ a.bytes = v.bytes ++ v.bytes
    · obtain ⟨rfl, rfl⟩ := pair_eq.mp hk
      simp
    · have hl := ha.listed_iff c a
      rw [hv] at hl
      rw [update_of_ne hk]
      refine hl.trans ?_
      simp only [reduceCtorEq, false_or]
      refine and_congr_right fun hc => ⟨.inr, fun h => h.resolve_left ?_⟩
      intro hav
      exact hk (pair_eq.mpr ⟨hc.trans hav, hav⟩)
  · intro a c h
    have h' : m.poll.vote a = some c := h
    rw [hv] at h'
    cases h'
  · intro a h
    have hvote : (m.genesisValidator v).poll.vote a = none := hv a
    refine ⟨?_, by simp [hvote]⟩
    show update m.candidates v.bytes (some v.bytes) a.bytes ≠ none
    by_cases hav : a.bytes = v.bytes
    · simp [hav]
    · rw [update_of_ne hav]
      exact (ha.stray a (h.resolve_left fun he => hav (congrArg _ he))).1

end Ballots

variable {d : DposContext} {m : Ballots}

theorem genesisValidator_holds (h : d.Holds m) (v : Address) :
    (genesisValidator d v).Holds (m.genesisValidator v) :=
  ⟨h.delegates.update _ v.bytes_ne_nil, h.votes, h.candidates.update _ v.bytes_ne_nil⟩

theorem genesisValidators_agree (vs : List Address) :
    ∀ {d : DposContext} {m : Ballots} {strays : Set Address}, d.Holds m → m.Stored →
      m.poll.Agrees strays → (∀ a, m.poll.vote a = none) →
      ∃ m', (vs.foldl genesisValidator d).Holds m' ∧ m'.Stored ∧ m'.poll.Agrees {v | v ∈ vs ∨ v ∈ strays} := by
  induction vs with
  | nil =>
    intro d m strays h hs ha _
    exact ⟨m, h, hs, by simpa using ha⟩
  | cons v vs ih =>
    intro d m strays h hs ha hv
    obtain ⟨m', h', hs', ha'⟩ := ih (genesisValidator_holds h v) (hs.genesisValidator v)
      (Ballots.agrees_genesisValidator ha hv v) hv
    refine ⟨m', h', hs', ?_⟩
    have hset : {w | w ∈ v :: vs ∨ w ∈ strays} = {w | w ∈ vs ∨ w ∈ insert v strays} := by
      ext w
      simp only [List.mem_cons, Set.mem_ofPred_eq, Set.mem_insert_iff]
      tauto
    rw [hset]
    exact ha'

/-- **The genesis validators are the strays of the genesis context.** -/
theorem genesis_agrees (db : NodeDatabase) (validators : Option (List Address)) :
    ∃ m, (initGenesisDposContext db validators).Holds m ∧ m.Stored ∧
      m.poll.Agrees {v | v ∈ validators.getD []} := by
  have h := new_holds db
  obtain ⟨hs, ha⟩ := h.consistent_iff.mp (new_consistent db)
  cases validators with
  | none => exact ⟨_, h, hs, by simpa using ha⟩
  | some vs =>
    have h' : ((new db).setValidators vs).Holds _ := ⟨h.delegates, h.votes, h.candidates⟩
    simpa [initGenesisDposContext] using genesisValidators_agree vs h' hs ha fun _ => rfl

namespace DposContext

/-- No delegator is listed behind two candidates, and the two tries agree. -/
def OneVotePerDelegator (d : DposContext) : Prop :=
  (∀ a c c', d.delegateEntry c a ≠ none → d.delegateEntry c' a ≠ none → c = c') ∧
    ∀ a c, d.voteEntry a = some c.bytes ↔ d.delegateEntry c a ≠ none

theorem Holds.oneVotePerDelegator_iff (h : d.Holds m) :
    d.OneVotePerDelegator ↔ ∀ a c, m.poll.vote a = some c ↔ m.poll.listed c a := by
  simp only [OneVotePerDelegator, h.voteEntry, h.delegateEntry, ← Ballots.vote_eq_some]
  constructor
  · intro hd a c
    exact hd.2 a c
  · intro hall
    refine ⟨?_, hall⟩
    intro a c c' hc hc'
    have h1 := (hall a c).mpr hc
    rw [(hall a c').mpr hc'] at h1
    exact (Option.some.inj h1).symm

/-- A run keeps storage and leaves as strays what it has not settled. -/
theorem Holds.agrees_run {strays : Set Address} (h : d.Holds m)
    (hs : m.Stored) (ha : m.poll.Agrees strays) (ops : List (Poll.Op Address)) :
    ∃ m', (d.run ops).Holds m' ∧ m'.Stored ∧ m'.poll.Agrees {v ∈ strays | ∀ op ∈ ops, ¬ op.Settles v} := by
  induction ops generalizing d m strays with
  | nil => exact ⟨m, h, hs, by simpa using ha⟩
  | cons op ops ih =>
    obtain ⟨m', h', hs', ha'⟩ := ih (h.apply op) (hs.step op) (hs.agrees_step ha op)
    refine ⟨m', h', hs', ?_⟩
    have hset : {v ∈ strays | ∀ op' ∈ op :: ops, ¬ op'.Settles v} =
        {v ∈ {v ∈ strays | ¬ op.Settles v} | ∀ op' ∈ ops, ¬ op'.Settles v} := by
      ext v
      simp [and_assoc]
    rw [hset]
    exact ha'

theorem settles_iff {ops : List (Poll.Op Address)} {v : Address} :
    (∃ op ∈ ops, op.Settles v) ↔ .kickoutCandidate v ∈ ops ∨ .delegate v v ∈ ops := by
  constructor
  · intro ⟨op, hop, hset⟩
    cases op with
    | becomeCandidate c | unDelegate a c => exact hset.elim
    | kickoutCandidate c =>
      have hc : c = v := hset
      exact .inl (hc ▸ hop)
    | delegate a c =>
      obtain ⟨ha, hc⟩ : a = v ∧ c = v := hset
      subst ha
      subst hc
      exact .inr hop
  · intro h
    rcases h with h | h
    · exact ⟨_, h, rfl⟩
    · exact ⟨_, h, rfl, rfl⟩

/-- **After a run from genesis no delegator counts twice exactly when every
genesis validator has been kicked out or has delegated to itself.** -/
theorem genesis_run_oneVote_iff (db : NodeDatabase) (validators : Option (List Address))
    (ops : List (Poll.Op Address)) : ((initGenesisDposContext db validators).run ops).OneVotePerDelegator ↔
      ∀ v ∈ validators.getD [], .kickoutCandidate v ∈ ops ∨ .delegate v v ∈ ops := by
  obtain ⟨m, h, hs, ha⟩ := genesis_agrees db validators
  obtain ⟨m', h', _, ha'⟩ := h.agrees_run hs ha ops
  rw [h'.oneVotePerDelegator_iff, ha'.vote_iff_listed]
  simp only [← settles_iff, Set.eq_empty_iff_forall_notMem]
  constructor
  · intro hno v hv
    by_contra hn
    exact hno v ⟨hv, fun op hop hset => hn ⟨op, hop, hset⟩⟩
  · intro hall v ⟨hv, hn⟩
    obtain ⟨op, hop, hset⟩ := hall v hv
    exact hn op hop hset

/-- A genesis validator that votes for another stays listed behind itself. -/
theorem genesis_validator_counted_twice :
    let v : Address := bytesToAddress [1]
    let w : Address := bytesToAddress [2]
    let d := (initGenesisDposContext ⟨fun _ _ => none, 0⟩ (some [v, w])).run [.delegate v w]
    d.delegateEntry v v ≠ none ∧ d.delegateEntry w v ≠ none ∧ d.voteEntry v = some w.bytes ∧
      ¬ d.OneVotePerDelegator := by
  intro v w d
  have hv : d.delegateEntry v v ≠ none := by decide +kernel
  have hw : d.delegateEntry w v ≠ none := by decide +kernel
  refine ⟨hv, hw, by decide +kernel, ?_⟩
  intro h
  exact absurd (h.1 v v w hv hw) (by decide)

end DposContext

end Bgmchain
