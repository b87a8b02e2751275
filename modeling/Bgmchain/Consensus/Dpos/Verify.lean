import Bgmchain.Consensus.Dpos.Engine
import Bgmchain.Lib.Hoare

/-! # What `verifyHeader` accepts

The checks of `verifyHeader` in one statement, and what they say of a header and
the header it is accepted on. Difficulty and number are integers of any size, but
the checks look at their low 64 bits only. -/
namespace Bgmchain.Dpos
open Common
open Lib.Hoare (except_bind_ok_iff guard_bind_ok_iff guard_ok_iff)

/-- The newest block of a chain, the genesis block when there is no other. -/
def tip (genesis : Header) : List Header → Header
  | [] => genesis
  | b :: _ => b

section
variable [Crypto]

/-- What `verifyHeader` checks of a header by itself. -/
structure WellFormed (now : Int) (config : ChainConfig) (header : Header) : Prop where
  time : header.time ≤ now
  extra : extraVanity + extraSeal ≤ header.extra.length
  mixDigest : header.mixDigest = .zero 32
  difficulty : uint64 header.difficulty = 1
  uncles : header.uncleHash = uncleHash
  forkHashes : verifyForkHashes config header = .ok ()

/-- What `verifyHeader` checks of a header and its parent. -/
structure Follows (parent header : Header) : Prop where
  hash : parent.hash = header.parentHash
  number : uint64 parent.number = predUint64 (uint64 header.number)
  time : timeTooEarly parent header = false

variable {header : Header}

theorem verifyHeader_ok_iff {now : Int} {chain : ChainReader} {parents : List Header} :
    verifyHeader now chain header parents = .ok () ↔ WellFormed now chain.config header ∧
        ∃ parent, parentOf chain header parents = some parent ∧ Follows parent header := by
  unfold verifyHeader
  simp only [guard_bind_ok_iff, except_bind_ok_iff]
  constructor
  · rintro ⟨htime, _, hextra, hmix, hdiff, huncle, _, hfork, hparent⟩
    refine ⟨⟨not_lt.mp htime, not_lt.mp hextra, not_not.mp hmix, not_not.mp hdiff, not_not.mp huncle,
      hfork⟩, ?_⟩
    cases hp : parentOf chain header parents with
    | none =>
      rw [hp] at hparent
      cases hparent
    | some parent =>
      simp only [hp, guard_bind_ok_iff, guard_ok_iff, not_or, not_not] at hparent
      obtain ⟨⟨hnumber, hhash⟩, hearly⟩ := hparent
      exact ⟨parent, rfl, hhash, hnumber, Bool.eq_false_of_not_eq_true hearly⟩
  · rintro ⟨⟨htime, hextra, hmix, hdiff, huncle, hfork⟩, parent, hp, hhash, hnumber, hearly⟩
    have hvanity : extraVanity ≤ header.extra.length := (Nat.le_add_right _ _).trans hextra
    refine ⟨not_lt.mpr htime, not_lt.mpr hvanity, not_lt.mpr hextra, not_not.mpr hmix, not_not.mpr hdiff,
      not_not.mpr huncle, (), hfork, ?_⟩
    simp only [hp, guard_bind_ok_iff, guard_ok_iff, not_or, not_not]
    exact ⟨⟨hnumber, hhash⟩, by rw [hearly]; exact Bool.false_ne_true⟩

/-- Some clock, some chain and some batch make `verifyHeader` accept `header` on top
of `parent`. -/
def AcceptedOn (parent header : Header) : Prop :=
  ∃ now chain parents, parentOf chain header parents = some parent ∧
    verifyHeader now chain header parents = .ok ()

theorem AcceptedOn.difficulty {parent : Header} (h : AcceptedOn parent header) :
    uint64 header.difficulty = 1 := by
  obtain ⟨now, chain, parents, _, hok⟩ := h
  exact (verifyHeader_ok_iff.mp hok).1.difficulty

theorem AcceptedOn.follows {parent : Header} (h : AcceptedOn parent header) : Follows parent header := by
  obtain ⟨now, chain, parents, hp, hok⟩ := h
  obtain ⟨_, parent', hp', hf⟩ := verifyHeader_ok_iff.mp hok
  rw [hp] at hp'
  cases hp'
  exact hf

end

/-! ## Low bits and integers -/

/-- A difficulty whose low bits are 1 is 1 exactly when it has no other bits. -/
theorem difficulty_eq_one_iff {d : Int} (h : uint64 d = 1) : d = 1 ↔ 0 ≤ d ∧ d < 2 ^ 64 := by
  unfold uint64 at h
  constructor
  · intro hd
    subst hd
    decide
  · intro ⟨h0, hlt⟩
    omega

/-- A number whose low bits follow those of another follows it exactly when it is
not below it and not a whole turn above. -/
theorem number_eq_succ_iff {p n : Int} (h : uint64 p = predUint64 (uint64 n)) :
    n = p + 1 ↔ 0 ≤ p ∧ p < n ∧ n ≤ p + 2 ^ 64 := by
  unfold uint64 predUint64 at h
  constructor
  · intro hn
    subst hn
    omega
  · intro ⟨h0, hlt, hle⟩
    omega

end Bgmchain.Dpos
