import Bgmchain.Core.Types.DposContext
import Bgmchain.Core.Types.Poll

/-! # Delegation in the DPoS context

The operations on the tries of a readable context compute operations on the
maps the tries hold, and those, as long as every entry stores what its key
says, are the operations of a `Poll`. -/
namespace Bgmchain
open Common Function

/-- The maps held by the delegate, vote and candidate tries. -/
structure Ballots where
  delegates : Bytes → Option Bytes
  votes : Bytes → Option Bytes
  candidates : Bytes → Option Bytes

structure DposContext.Holds (d : DposContext) (m : Ballots) : Prop where
  delegates : d.delegateTrie.Holds m.delegates
  votes : d.voteTrie.Holds m.votes
  candidates : d.candidateTrie.Holds m.candidates

namespace Ballots

def becomeCandidate (m : Ballots) (c : Address) : Ballots :=
  { m with candidates := update m.candidates c.bytes (some c.bytes) }

/-- The values found under a candidate's prefix of the delegate trie. -/
def Behind (m : Ballots) (c : Address) (v : Bytes) : Prop :=
  ∃ k, c.bytes <+: k ∧ m.delegates k = some v

open Classical in
noncomputable def kickoutCandidate (m : Ballots) (c : Address) : Ballots where
  delegates k := if ∃ v, m.Behind c v ∧ k = c.bytes ++ v then none else m.delegates k
  votes k := if m.Behind c k ∧ m.votes k = some c.bytes then none else m.votes k
  candidates := update m.candidates c.bytes none

def delegate (m : Ballots) (a c : Address) : Ballots :=
  if m.candidates c.bytes = none then m
  else
    let old := match m.votes a.bytes with
      | some old => update m.delegates (old ++ a.bytes) none
      | none => m.delegates
    { m with
      delegates := update old (c.bytes ++ a.bytes) (some a.bytes)
      votes := update m.votes a.bytes (some c.bytes) }

def unDelegate (m : Ballots) (a c : Address) : Ballots :=
  if m.candidates c.bytes = none ∨ m.votes a.bytes ≠ some c.bytes then m
  else
    { m with
      delegates := update m.delegates (c.bytes ++ a.bytes) none
      votes := update m.votes a.bytes none }

noncomputable def step (m : Ballots) : Poll.Op Address → Ballots
  | .becomeCandidate c => m.becomeCandidate c
  | .kickoutCandidate c => m.kickoutCandidate c
  | .delegate a c => m.delegate a c
  | .unDelegate a c => m.unDelegate a c

end Ballots

/-! ## The operations on the maps -/

namespace DposContext

/-- One operation of a context, with its error. -/
def apply (d : DposContext) : Poll.Op Address → Option DposError × DposContext
  | .becomeCandidate c => d.becomeCandidate c
  | .kickoutCandidate c => d.kickoutCandidate c
  | .delegate a c => d.delegate a c
  | .unDelegate a c => d.unDelegate a c

/-- The context after a sequence of operations, whether or not they failed. -/
def run (d : DposContext) (ops : List (Poll.Op Address)) : DposContext :=
  ops.foldl (fun d op => (d.apply op).2) d

variable {d : DposContext} {m : Ballots}

theorem Holds.becomeCandidate (h : d.Holds m) (c : Address) :
    ∃ d', d.becomeCandidate c = (none, d') ∧ d'.Holds (m.becomeCandidate c) := by
  obtain ⟨t, hu, ht⟩ := h.candidates.tryUpdate c.bytes c.bytes_ne_nil
  exact ⟨{ d with candidateTrie := t }, by simp [DposContext.becomeCandidate, hu],
    h.delegates, h.votes, ht⟩

end DposContext

theorem Trie.Holds.tryDeletePresent {t : Trie} {m} (h : t.Holds m) (k : Bytes) :
    ∃ t', t.tryDeletePresent k = .ok t' ∧ t'.Holds (Function.update m k none) := by
  obtain ⟨t', hd, hh⟩ := h.tryDelete k
  exact ⟨t', by simp [Trie.tryDeletePresent, hd], hh⟩

theorem Trie.tryDeletePresent_frame {t t' : Trie} {k : Bytes} (h : t.tryDeletePresent k = .ok t') :
    t'.db = t.db ∧ t'.prefix_ = t.prefix_ := by
  unfold Trie.tryDeletePresent at h
  split at h
  · cases h
    exact ⟨rfl, rfl⟩
  · exact Trie.tryDelete_frame h

/-- The maps after one turn of the loop in `KickoutCandidate`. -/
def Ballots.kickoutDelegator (m : Ballots) (c : Address) (v : Bytes) : Ballots :=
  { m with
    delegates := update m.delegates (c.bytes ++ v) none
    votes := if m.votes v = some c.bytes then update m.votes v none else m.votes }

namespace DposContext

variable {d : DposContext} {m : Ballots}

theorem kickoutDelegator_db {c v : Bytes} {d d' : DposContext}
    (h : DposContext.kickoutDelegator c v d = .ok d') : d'.delegateTrie.db = d.delegateTrie.db := by
  simp only [DposContext.kickoutDelegator] at h
  cases hd : d.delegateTrie.tryDeletePresent (c ++ v) with
  | error e => simp [hd] at h
  | ok dt =>
    rw [← (Trie.tryDeletePresent_frame hd).1]
    simp only [hd] at h
    repeat' split at h
    all_goals cases h
    all_goals rfl

theorem Holds.kickoutDelegator (h : d.Holds m) (c : Address) (v : Bytes) :
    ∃ d', DposContext.kickoutDelegator c.bytes v d = .ok d' ∧ d'.Holds (m.kickoutDelegator c v) := by
  obtain ⟨dt, hd, hdt⟩ := h.delegates.tryDeletePresent (c.bytes ++ v)
  obtain ⟨vt, hg, hvt⟩ := h.votes.tryGet v
  by_cases hv : m.votes v = some c.bytes
  · obtain ⟨vt', hd', hvt'⟩ := hvt.tryDeletePresent v
    refine ⟨{ d with delegateTrie := dt, voteTrie := vt' }, ?_, hdt, ?_, h.candidates⟩
    · simp [DposContext.kickoutDelegator, hd, hg, hv, hd']
    · simpa [Ballots.kickoutDelegator, hv] using hvt'
  · have hne : (m.votes v).getD [] ≠ c.bytes := by
      cases hm : m.votes v with
      | none => exact fun he => c.bytes_ne_nil he.symm
      | some w => simpa [hm] using hv
    refine ⟨{ d with delegateTrie := dt, voteTrie := vt }, ?_, hdt, ?_, h.candidates⟩
    · simp [DposContext.kickoutDelegator, hd, hg, hne]
    · simpa [Ballots.kickoutDelegator, hv] using hvt

/-- The loop over the values an iterator yields. -/
theorem Holds.kickoutDelegators (c : Address) (vs : List Bytes) : ∀ {d : DposContext} {m : Ballots}, d.Holds m →
      ∃ d', vs.foldlM (fun d v => DposContext.kickoutDelegator c.bytes v d) d = .ok d' ∧
        d'.Holds (vs.foldl (·.kickoutDelegator c) m) := by
  induction vs with
  | nil => intro d m h; exact ⟨d, rfl, h⟩
  | cons v vs ih =>
    intro d m h
    obtain ⟨d1, h1, hh1⟩ := h.kickoutDelegator c v
    obtain ⟨d2, h2, hh2⟩ := ih hh1
    exact ⟨d2, by simp [List.foldlM_cons, h1, bind, Except.bind, h2], hh2⟩

end DposContext

/-- What the loop leaves of the maps. -/
theorem Ballots.foldl_kickoutDelegator (c : Address) (vs : List Bytes) (m : Ballots) :
    vs.foldl (·.kickoutDelegator c) m =
      { m with
        delegates := fun k => if ∃ v ∈ vs, k = c.bytes ++ v then none else m.delegates k
        votes := fun k => if k ∈ vs ∧ m.votes k = some c.bytes then none else m.votes k } := by
  induction vs generalizing m with
  | nil => simp
  | cons v vs ih =>
    rw [List.foldl_cons, ih]
    simp only [kickoutDelegator, mk.injEq, and_true]
    constructor
    · funext k
      by_cases hk : k = c.bytes ++ v
      · simp [hk]
      · simp [hk]
    · funext k
      by_cases hv : m.votes v = some c.bytes
      · by_cases hk : k = v
        · simp [hk, hv]
        · simp [hv, hk]
      · by_cases hk : k = v
        · simp [hk, hv]
        · simp [hv, hk]

namespace DposContext

variable {d : DposContext} {m : Ballots}

section
variable (h : d.Holds m) (a c : Address)
include h

/-- **`KickoutCandidate` on the maps.** The walk runs over the delegations as
they were when the loop began. -/
theorem Holds.kickoutCandidate (c : Address) :
    ∃ d', d.kickoutCandidate c = (none, d') ∧ d'.Holds (m.kickoutCandidate c) := by
  obtain ⟨ct, hc, hct⟩ := h.candidates.tryDeletePresent c.bytes
  obtain ⟨es, hes, hy⟩ := h.delegates.newPrefix c.bytes_ne_nil
  have h1 : ({ d with candidateTrie := ct } : DposContext).Holds
      { m with candidates := update m.candidates c.bytes none } :=
    ⟨h.delegates, h.votes, hct⟩
  obtain ⟨d', hf, hd'⟩ := Holds.kickoutDelegators c (es.map Prod.snd) h1
  have hdb : ∀ v (s s' : DposContext), s.delegateTrie.db = d.delegateTrie.db →
      DposContext.kickoutDelegator c.bytes v s = .ok s' →
      s'.delegateTrie.db = d.delegateTrie.db := by
    intro v s s' hs hk
    rw [← hs]
    exact kickoutDelegator_db hk
  have hloop := hy.each (fun d => (DposError.panicked, d)) hdb { d with candidateTrie := ct }
    _ rfl hy.length_lt
  refine ⟨d', ?_, ?_⟩
  · simp only [DposContext.kickoutCandidate, hc, hloop, hf]
  · rw [Ballots.foldl_kickoutDelegator] at hd'
    have hvs : ∀ v, v ∈ es.map Prod.snd ↔ m.Behind c v := by
      intro v
      simp only [List.mem_map, Prod.exists, exists_eq_right, Ballots.Behind, hes.mem_iff]
    classical
    refine ⟨?_, ?_, hd'.candidates⟩
    · convert hd'.delegates using 1
      funext k
      exact if_congr (by simp only [hvs]) rfl rfl
    · convert hd'.votes using 1
      funext k
      exact if_congr (by simp only [hvs]) rfl rfl

theorem Holds.moveDelegation :
    ∃ d', d.moveDelegation a.bytes c.bytes (m.votes a.bytes) = (none, d') ∧
      d'.Holds
        { m with
          delegates := update
            (match m.votes a.bytes with
              | some old => update m.delegates (old ++ a.bytes) none
              | none => m.delegates) (c.bytes ++ a.bytes) (some a.bytes)
          votes := update m.votes a.bytes (some c.bytes) } := by
  obtain ⟨vt, hv, hvt⟩ := h.votes.tryUpdate a.bytes c.bytes_ne_nil
  cases hold : m.votes a.bytes with
  | none =>
    obtain ⟨dt, hu, hdt⟩ := h.delegates.tryUpdate (c.bytes ++ a.bytes) a.bytes_ne_nil
    exact ⟨{ d with delegateTrie := dt, voteTrie := vt },
      by simp [DposContext.moveDelegation, hu, hv], hdt, hvt, h.candidates⟩
  | some old =>
    obtain ⟨dt, hu, hdt⟩ :=
      (h.delegates.delete (old ++ a.bytes)).tryUpdate (c.bytes ++ a.bytes) a.bytes_ne_nil
    exact ⟨{ d with delegateTrie := dt, voteTrie := vt },
      by simp [DposContext.moveDelegation, hu, hv], hdt, hvt, h.candidates⟩

theorem Holds.delegate : ∃ e d', d.delegate a c = (e, d') ∧ d'.Holds (m.delegate a c) := by
  obtain ⟨ct, hc, hct⟩ := h.candidates.tryGet c.bytes
  obtain ⟨vt, hv, hvt⟩ := h.votes.tryGet a.bytes
  cases hm : m.candidates c.bytes with
  | none =>
    rw [hm] at hc
    exact ⟨some .invalidCandidateToDelegate, { d with candidateTrie := ct },
      by simp only [DposContext.delegate, hc],
      by simpa only [Ballots.delegate, hm, if_true] using ⟨h.delegates, h.votes, hct⟩⟩
  | some w =>
    rw [hm] at hc
    have h1 : ({ d with candidateTrie := ct, voteTrie := vt } : DposContext).Holds m :=
      ⟨h.delegates, hvt, hct⟩
    obtain ⟨d', hmove, hd'⟩ := h1.moveDelegation a c
    exact ⟨none, d', by simp only [DposContext.delegate, hc, hv, hmove],
      by simpa [Ballots.delegate, hm] using hd'⟩

theorem Holds.unDelegate : ∃ e d', d.unDelegate a c = (e, d') ∧ d'.Holds (m.unDelegate a c) := by
  obtain ⟨ct, hc, hct⟩ := h.candidates.tryGet c.bytes
  obtain ⟨vt, hv, hvt⟩ := h.votes.tryGet a.bytes
  cases hm : m.candidates c.bytes with
  | none =>
    rw [hm] at hc
    exact ⟨some .invalidCandidateToUnDelegate, { d with candidateTrie := ct },
      by simp only [DposContext.unDelegate, hc],
      by simpa [Ballots.unDelegate, hm] using ⟨h.delegates, h.votes, hct⟩⟩
  | some w =>
    rw [hm] at hc
    by_cases hvote : m.votes a.bytes = some c.bytes
    · obtain ⟨dt, hd, hdt⟩ := h.delegates.tryDelete (c.bytes ++ a.bytes)
      obtain ⟨vt', hd', hvt'⟩ := hvt.tryDelete a.bytes
      refine ⟨none, { d with candidateTrie := ct, voteTrie := vt', delegateTrie := dt }, ?_, ?_⟩
      · simp [DposContext.unDelegate, hc, hv, hvote, hd, hd']
      · simpa [Ballots.unDelegate, hm, hvote] using ⟨hdt, hvt', hct⟩
    · have hne : c.bytes ≠ (m.votes a.bytes).getD [] := by
        cases hw : m.votes a.bytes with
        | none => exact c.bytes_ne_nil
        | some old =>
          intro he
          rw [hw, he] at hvote
          exact hvote rfl
      refine ⟨some .mismatchCandidateToUnDelegate, { d with candidateTrie := ct, voteTrie := vt },
        ?_, ?_⟩
      · simp [DposContext.unDelegate, hc, hv, hne]
      · simpa [Ballots.unDelegate, hm, hvote] using ⟨h.delegates, hvt, hct⟩

/-- **Every operation on a readable context is the operation on its maps.** -/
theorem Holds.apply (op : Poll.Op Address) : (d.apply op).2.Holds (m.step op) := by
  cases op with
  | becomeCandidate c =>
    obtain ⟨d', he, hd'⟩ := h.becomeCandidate c
    simpa only [DposContext.apply, Ballots.step, he] using hd'
  | kickoutCandidate c =>
    obtain ⟨d', he, hd'⟩ := h.kickoutCandidate c
    simpa only [DposContext.apply, Ballots.step, he] using hd'
  | delegate a c =>
    obtain ⟨e, d', he, hd'⟩ := h.delegate a c
    simpa only [DposContext.apply, Ballots.step, he] using hd'
  | unDelegate a c =>
    obtain ⟨e, d', he, hd'⟩ := h.unDelegate a c
    simpa only [DposContext.apply, Ballots.step, he] using hd'

end

end DposContext

/-! ## The maps as a poll -/

/-- The address whose bytes these are, if they are an address at all. -/
def addressOf (v : Bytes) : Option Address := if h : v.length = 20 then some ⟨v, h⟩ else none

theorem addressOf_eq_some {v : Bytes} {c : Address} : addressOf v = some c ↔ v = c.bytes := by
  unfold addressOf
  split
  next h =>
    simp only [Option.some.injEq]
    constructor
    · intro he
      rw [← he]
    · intro he
      exact FixedBytes.ext he
  next h =>
    simp only [reduceCtorEq, false_iff]
    intro he
    exact h (he ▸ c.length_eq)

namespace Ballots

/-- What the maps say about addresses. -/
def poll (m : Ballots) : Poll Address where
  candidates := {c | m.candidates c.bytes ≠ none}
  listed c a := m.delegates (c.bytes ++ a.bytes) ≠ none
  vote a := (m.votes a.bytes).bind addressOf

/-- Every entry under an address stores what its key says. -/
structure Stored (m : Ballots) : Prop where
  delegate : ∀ (c a : Address) v, m.delegates (c.bytes ++ a.bytes) = some v → v = a.bytes
  candidate : ∀ (c : Address) v, m.candidates c.bytes = some v → v = c.bytes

variable {m : Ballots} {a c : Address}

theorem vote_eq_some : m.poll.vote a = some c ↔ m.votes a.bytes = some c.bytes := by
  simp [poll, Option.bind_eq_some_iff, addressOf_eq_some]

/-- The key of a pair of addresses, when its first half is any byte string. -/
theorem pair_eq_append {a' : Address} {old : Bytes} :
    c.bytes ++ a'.bytes = old ++ a.bytes ↔ old = c.bytes ∧ a' = a := by
  constructor
  · intro h
    obtain ⟨h1, h2⟩ := List.append_inj' h (by rw [a.length_eq, a'.length_eq])
    exact ⟨h1.symm, FixedBytes.ext h2⟩
  · intro ⟨h1, h2⟩
    rw [h1, h2]

/-- The keys `c ++ a` and `c' ++ a'` of two pairs of addresses. -/
theorem pair_eq {c' a' : Address} : c.bytes ++ a.bytes = c'.bytes ++ a'.bytes ↔ c = c' ∧ a = a' := by
  rw [append_bytes_inj, FixedBytes.bytes_inj]

theorem poll_becomeCandidate (c : Address) : (m.becomeCandidate c).poll = m.poll.becomeCandidate c := by
  apply Poll.ext
  · ext c'
    by_cases hc : c' = c
    · simp [poll, becomeCandidate, Poll.becomeCandidate, hc]
    · have hb : c'.bytes ≠ c.bytes := fun h => hc (FixedBytes.ext h)
      simp [poll, becomeCandidate, Poll.becomeCandidate, hc, hb]
  · rfl
  · rfl

/-- Behind a candidate are the addresses listed there, once keys and values agree. -/
theorem Stored.behind (hs : m.Stored) (h : m.poll.listed c a) : m.Behind c a.bytes := by
  obtain ⟨v, hv⟩ := Option.ne_none_iff_exists'.mp h
  exact ⟨_, List.prefix_append _ _, (hs.delegate c a v hv) ▸ hv⟩

theorem poll_kickoutCandidate (hs : m.Stored)
    (hl : ∀ a c, m.poll.vote a = some c → m.poll.listed c a) (c : Address) :
    (m.kickoutCandidate c).poll = m.poll.kickoutCandidate c := by
  classical
  apply Poll.ext
  · ext c'
    by_cases hc : c' = c
    · simp [poll, kickoutCandidate, Poll.kickoutCandidate, hc]
    · have hb : c'.bytes ≠ c.bytes := fun h => hc (FixedBytes.ext h)
      simp [poll, kickoutCandidate, Poll.kickoutCandidate, hc, hb]
  · funext c' a
    show ((if _ then _ else _) ≠ none) = (c' ≠ c ∧ m.delegates (c'.bytes ++ a.bytes) ≠ none)
    by_cases hc : c' = c
    · subst hc
      by_cases hd : m.delegates (c'.bytes ++ a.bytes) = none
      · simp [hd]
      · rw [if_pos ⟨a.bytes, hs.behind hd, rfl⟩]
        simp
    · rw [if_neg]
      · simp [hc]
      · rintro ⟨v, _, hv⟩
        exact hc (append_bytes_inj.mp hv).1
  · funext a
    show (if _ then _ else _ : Option Bytes).bind addressOf =
      if m.poll.vote a = some c then none else m.poll.vote a
    by_cases hv : m.poll.vote a = some c
    · rw [if_pos ⟨hs.behind (hl a c hv), vote_eq_some.mp hv⟩, if_pos hv]
      rfl
    · rw [if_neg fun h => hv (vote_eq_some.mpr h.2), if_neg hv]
      rfl

theorem poll_vote_update (a c : Address) :
    (fun a' : Address => (update m.votes a.bytes (some c.bytes) a'.bytes).bind addressOf) =
      update m.poll.vote a (some c) := by
  funext a'
  by_cases ha : a' = a
  · subst ha
    simpa using addressOf_eq_some.mpr rfl
  · have hb : a'.bytes ≠ a.bytes := fun h => ha (FixedBytes.ext h)
    simp [hb, ha, poll]

theorem poll_delegate (a c : Address) : (m.delegate a c).poll = m.poll.delegate a c := by
  by_cases hc : m.candidates c.bytes = none
  · have hn : c ∉ m.poll.candidates := fun h => h hc
    rw [delegate, if_pos hc, Poll.delegate, if_neg hn]
  · have hn : c ∈ m.poll.candidates := hc
    rw [delegate, if_neg hc, Poll.delegate, if_pos hn]
    apply Poll.ext
    · rfl
    · funext c' a'
      simp only [poll]
      by_cases hk : c'.bytes ++ a'.bytes = c.bytes ++ a.bytes
      · obtain ⟨rfl, rfl⟩ := pair_eq.mp hk
        simp
      · have hne : ¬ (c' = c ∧ a' = a) := fun h => hk (pair_eq.mpr h)
        rw [update_of_ne hk]
        cases hv : m.votes a.bytes with
        | none => simp [hne]
        | some old =>
          by_cases ho : c'.bytes ++ a'.bytes = old ++ a.bytes
          · obtain ⟨rfl, rfl⟩ := pair_eq_append.mp ho
            have hc' : addressOf c'.bytes = some c' := addressOf_eq_some.mpr rfl
            have hcc : c' ≠ c := fun h => hne ⟨h, rfl⟩
            simp [hc', hcc]
          · have hno : ¬ (a' = a ∧ addressOf old = some c') := by
              intro h
              exact ho (pair_eq_append.mpr ⟨addressOf_eq_some.mp h.2, h.1⟩)
            simp [update_of_ne ho, hne, hno]
    · exact poll_vote_update a c

theorem poll_unDelegate (a c : Address) : (m.unDelegate a c).poll = m.poll.unDelegate a c := by
  by_cases h : m.candidates c.bytes = none ∨ m.votes a.bytes ≠ some c.bytes
  · rw [unDelegate, if_pos h, Poll.unDelegate, if_neg]
    intro ⟨hc, hv⟩
    rcases h with h | h
    · exact hc h
    · exact h (vote_eq_some.mp hv)
  · have hp : c ∈ m.poll.candidates ∧ m.poll.vote a = some c := by
      rw [not_or, not_not] at h
      exact ⟨h.1, vote_eq_some.mpr h.2⟩
    rw [unDelegate, if_neg h, Poll.unDelegate, if_pos hp]
    apply Poll.ext
    · rfl
    · funext c' a'
      simp only [poll]
      by_cases hk : c'.bytes ++ a'.bytes = c.bytes ++ a.bytes
      · obtain ⟨rfl, rfl⟩ := pair_eq.mp hk
        simp
      · have hne : ¬ (c' = c ∧ a' = a) := fun h => hk (pair_eq.mpr h)
        simp [update_of_ne hk, hne]
    · funext a'
      by_cases ha : a' = a
      · simp [poll, ha]
      · have hb : a'.bytes ≠ a.bytes := fun h => ha (FixedBytes.ext h)
        simp [poll, hb, ha]

/-- **The maps refine a poll**, one operation at a time. -/
theorem poll_step (hs : m.Stored) (hl : ∀ a c, m.poll.vote a = some c → m.poll.listed c a)
    (op : Poll.Op Address) : (m.step op).poll = m.poll.step op := by
  cases op with
  | becomeCandidate c => exact poll_becomeCandidate c
  | kickoutCandidate c => exact poll_kickoutCandidate hs hl c
  | delegate a c => exact poll_delegate a c
  | unDelegate a c => exact poll_unDelegate a c

/-- An entry that an update leaves, or the one it writes. -/
theorem update_eq_some {f : Bytes → Option Bytes} {k k' : Bytes} {o : Option Bytes} {v : Bytes}
    (h : update f k o k' = some v) : (k' = k ∧ o = some v) ∨ f k' = some v := by
  by_cases hk : k' = k
  · subst hk
    exact .inl ⟨rfl, by simpa using h⟩
  · exact .inr (by simpa [hk] using h)

variable {op : Poll.Op Address} {k v : Bytes}

/-- What an operation enters into the candidates. -/
theorem step_candidates (h : (m.step op).candidates k = some v) :
    m.candidates k = some v ∨ ∃ c : Address, k = c.bytes ∧ v = c.bytes := by
  cases op with
  | becomeCandidate c =>
    rcases update_eq_some h with ⟨hk, he⟩ | h
    · exact .inr ⟨c, hk, (Option.some.inj he).symm⟩
    · exact .inl h
  | kickoutCandidate c =>
    rcases update_eq_some h with ⟨_, he⟩ | h
    · cases he
    · exact .inl h
  | delegate a c | unDelegate a c =>
    simp only [Ballots.step, Ballots.delegate, Ballots.unDelegate, apply_ite Ballots.candidates, ite_self] at h
    exact .inl h

/-- What an operation enters into the delegates. -/
theorem step_delegates (h : (m.step op).delegates k = some v) :
    m.delegates k = some v ∨ ∃ c a : Address, k = c.bytes ++ a.bytes ∧ v = a.bytes := by
  classical
  cases op with
  | becomeCandidate c => exact .inl h
  | kickoutCandidate c =>
    simp only [Ballots.step, kickoutCandidate] at h
    split at h
    · cases h
    · exact .inl h
  | delegate a c =>
    simp only [Ballots.step, Ballots.delegate] at h
    split at h
    · exact .inl h
    · rcases update_eq_some h with ⟨hk, he⟩ | h
      · exact .inr ⟨c, a, hk, (Option.some.inj he).symm⟩
      · cases hold : m.votes a.bytes with
        | none =>
          simp only [hold] at h
          exact .inl h
        | some old =>
          simp only [hold] at h
          rcases update_eq_some h with ⟨_, he⟩ | h
          · cases he
          · exact .inl h
  | unDelegate a c =>
    simp only [Ballots.step, Ballots.unDelegate] at h
    split at h
    · exact .inl h
    · rcases update_eq_some h with ⟨_, he⟩ | h
      · cases he
      · exact .inl h

theorem Stored.step (hs : m.Stored) (op : Poll.Op Address) : (m.step op).Stored := by
  constructor
  · intro c a v hv
    rcases step_delegates hv with hv | ⟨c', a', hk, rfl⟩
    · exact hs.delegate c a v hv
    · rw [(pair_eq.mp hk).2]
  · intro c v hv
    rcases step_candidates hv with hv | ⟨c', hk, rfl⟩
    · exact hs.candidate c v hv
    · exact hk.symm

/-- Storage and agreement are kept together by every operation. -/
theorem Stored.agrees_step (hs : m.Stored) {strays : Set Address} (ha : m.poll.Agrees strays)
    (op : Poll.Op Address) : (m.step op).poll.Agrees {v ∈ strays | ¬ op.Settles v} := by
  rw [poll_step hs fun a c hv => (ha.listed_iff c a).mpr (.inl hv)]
  exact ha.step op

end Ballots

end Bgmchain
