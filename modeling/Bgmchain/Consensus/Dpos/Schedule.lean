import Bgmchain.Consensus.Dpos.Confirmed
import Bgmchain.Consensus.Dpos.Sample
import Bgmchain.Consensus.Dpos.Seal

/-! # Minting and verifying by one schedule

The local signer asks `CheckValidator` when to mint, with times rounded to slots;
the other nodes check what comes out of it with `verifyHeader` and `verifySeal`,
which look for a remainder and for a distance to the parent. -/
namespace Bgmchain.Dpos
open Common
open Lib.Hoare (except_bind_ok_iff guard_ok_iff)

/-! ## Slots -/

variable {now : Int} {lastBlock : Header}

/-- A slot begins where the remainder of `lookupValidator` is zero. -/
theorem slot_iff_dvd : (now.tmod epochInterval).tmod blockInterval = 0 ↔ blockInterval ∣ now := by
  have hdef := Int.tmod_add_mul_tdiv now epochInterval
  rw [← Int.dvd_iff_tmod_eq_zero]
  unfold blockInterval epochInterval at *
  omega

/-- Where a slot begins and the next one to begin lies above zero, it is that slot. -/
theorem nextSlot_eq (hnow : IsInt64 now) (hslot : blockInterval ∣ now)
    (hpos : 0 < nextSlot now) : nextSlot now = now := by
  have hdef : int64 (now + blockInterval - 1) = (now + 9 + 2 ^ 63) % 2 ^ 64 - 2 ^ 63 := by
    unfold int64 blockInterval
    omega
  unfold nextSlot at *
  generalize int64 (now + blockInterval - 1) = x at *
  have hquot := Int.tmod_add_mul_tdiv x blockInterval
  have hlt := Int.tmod_lt_of_pos x (show 0 < blockInterval by decide)
  have hgt := Int.lt_tmod_of_pos x (show 0 < blockInterval by decide)
  have hround : int64 (x.tdiv blockInterval * blockInterval) = x.tdiv blockInterval * blockInterval := by
    refine int64_of_isInt64 ?_
    rcases le_total 0 x with h0 | h0
    · have := Int.tmod_nonneg blockInterval h0
      unfold IsInt64 blockInterval at *
      omega
    · have := Int.tmod_nonneg blockInterval (Int.neg_nonneg.mpr h0)
      rw [Int.neg_tmod] at this
      unfold IsInt64 blockInterval at *
      omega
  rw [hround] at hpos ⊢
  have h0 : 0 < x := by
    by_contra hneg
    have := Int.tmod_nonneg blockInterval (Int.neg_nonneg.mpr (not_lt.mp hneg))
    rw [Int.neg_tmod] at this
    unfold blockInterval at *
    omega
  have hnonneg := Int.tmod_nonneg blockInterval h0.le
  unfold IsInt64 blockInterval at *
  omega

/-- What `checkDeadline` says where a slot begins, for a last block at the beginning
of one: the slot is a later one. -/
theorem checkDeadline_slot (hnow : IsInt64 now)
    (hslot : blockInterval ∣ now) (hnonneg : 0 ≤ lastBlock.time) (hlt : lastBlock.time < 2 ^ 63)
    (h : checkDeadline lastBlock now = .ok ()) : lastBlock.time < now := by
  have hlast : int64 lastBlock.time = lastBlock.time := int64_of_isInt64 ⟨by omega, hlt⟩
  unfold checkDeadline at h
  dsimp only at h
  rw [hlast] at h
  split at h
  · cases h
  next hlater =>
    have hlater := not_le.mp hlater
    rwa [nextSlot_eq hnow hslot (by omega)] at hlater

/-! ## The signer and the others -/

/-- What `CheckValidator` has found where it lets the signer mint. -/
theorem checkValidator_ok {e : Engine} (h : checkValidator e lastBlock now = .ok ()) :
    checkDeadline lastBlock now = .ok () ∧
      ∃ validators, Elected e.db lastBlock.dposContext validators ∧ Turn now validators e.signer := by
  unfold checkValidator at h
  simp only [except_bind_ok_iff, guard_ok_iff, not_or, not_not, scheduledValidator_ok_iff] at h
  obtain ⟨_, hdeadline, v, hturn, -, rfl⟩ := h
  exact ⟨hdeadline, hturn⟩

/-- A slot begins at the time of the header, which has passed a clock. -/
structure InSlot (header : Header) : Prop where
  nonneg : 0 ≤ header.time
  lt : header.time < 2 ^ 63
  slot : blockInterval ∣ header.time

/-- A header above the genesis header, on top of another in the chain. -/
structure OnTop (chain : ChainReader) (lastBlock header : Header) : Prop where
  number : uint64 header.number ≠ 0
  parent : parentOf chain header [] = some lastBlock

section
variable [Crypto] {header : Header}

theorem verifySeal_ok_iff {putOk : Bool} {chain : ChainReader} {parents : List Header}
    {e e' : Engine} : verifySeal putOk chain header parents e = .ok () e' ↔
      checkSeal e.db chain header parents = .ok () ∧ updateConfirmedBlockHeader putOk chain e = .ok () e' := by
  unfold verifySeal
  simp only [bind, EStateM.bind, get, getThe, MonadStateOf.get, EStateM.get]
  cases checkSeal e.db chain header parents with
  | error err => exact iff_of_false (fun h => by cases h) fun h => by cases h.1
  | ok u => exact ⟨fun h => ⟨rfl, h⟩, And.right⟩

theorem OnTop.checkSeal_ok_iff {db : NodeDatabase} {chain : ChainReader} (h : OnTop chain lastBlock header) :
    checkSeal db chain header [] = .ok () ↔ Sealed db lastBlock header := by
  rw [Dpos.checkSeal_ok_iff, h.parent]
  simp [h.number]

omit [Crypto] in
/-- Later slots keep the distance that `verifyHeader` asks for. -/
theorem InSlot.timeTooEarly (h : InSlot lastBlock)
    (hslot : blockInterval ∣ header.time) (hlt : header.time < 2 ^ 63)
    (hlater : lastBlock.time < header.time) : timeTooEarly lastBlock header = false := by
  have hnonneg := h.nonneg
  have hdvd := h.slot
  have hlast : (uint64 lastBlock.time : Int) = lastBlock.time := uint64_of_lt hnonneg (by omega)
  have htime : (uint64 header.time : Int) = header.time := uint64_of_lt (by omega) (by omega)
  unfold Dpos.timeTooEarly
  rw [decide_eq_false_iff_not]
  unfold blockInterval at *
  omega

/-- **Producer and verifier agree.** Whoever `CheckValidator` lets mint at a time makes
blocks for it that keep the distance to the last block and pass `verifySeal`; and
where a block of another signer passes `verifySeal`, this one is rejected. -/
theorem checkValidator_verifySeal {e e' : Engine} {chain : ChainReader} {lastBlock genesis : Header}
    {now : Int} (hdb : e'.db = e.db) (hnow : IsInt64 now) (hlast : InSlot lastBlock)
    (hchain : Connected chain) (hg : chain.getHeaderByNumber 0 = some genesis) :
    (checkValidator e lastBlock now = .ok () → ∀ header, OnTop chain lastBlock header →
      header.time = now → header.validator = e.signer → ecrecover header = .ok e.signer →
      timeTooEarly lastBlock header = false ∧ ∃ e1, verifySeal true chain header [] e' = .ok () e1) ∧
    (∀ header signer putOk e1, OnTop chain lastBlock header → header.time = now →
      ecrecover header = .ok signer → signer ≠ e.signer →
      verifySeal putOk chain header [] e' = .ok () e1 → checkValidator e lastBlock now ≠ .ok ()) := by
  constructor
  · intro hcheck header htop htime hvalidator hsigner
    obtain ⟨hdeadline, validators, helected, hturn⟩ := checkValidator_ok hcheck
    have hslot := slot_iff_dvd.mp hturn.slot
    have hlater := checkDeadline_slot hnow hslot hlast.nonneg hlast.lt hdeadline
    subst htime
    refine ⟨hlast.timeTooEarly hslot hnow.2 hlater, ?_⟩
    obtain ⟨e1, hconfirm⟩ := updateConfirmedBlockHeader_ok hchain hg e'
    refine ⟨e1, verifySeal_ok_iff.mpr ⟨htop.checkSeal_ok_iff.mpr ?_, hconfirm⟩⟩
    refine ⟨validators, e.signer, hdb ▸ helected, ?_, hsigner, hvalidator⟩
    rw [int64_of_isInt64 hnow]
    exact hturn
  · intro header signer putOk e1 htop htime hsigner hother hseal hcheck
    obtain ⟨-, validators, helected, hturn⟩ := checkValidator_ok hcheck
    obtain ⟨validators', v, helected', hturn', hrecover, _⟩ :=
      htop.checkSeal_ok_iff.mp (verifySeal_ok_iff.mp hseal).1
    rw [hdb] at helected'
    cases helected.unique helected'
    rw [htime, int64_of_isInt64 hnow] at hturn'
    cases hturn.unique hturn'
    exact hother (Except.ok.inj (hsigner.symm.trans hrecover))

end

/-! ## A single validator -/

section
open Sample

/-- A context with one validator. -/
def sole : DposContext := (DposContext.new nodes).setValidators [address 1]

def soleGenesis : Header := { header 0 0 (address 0) (.zero 32) with dposContext := sole.toProto }

/-- The block of the validator in the first slot after the genesis block. -/
def soleHeader : Header :=
  { header 1 10 (address 1) soleGenesis.hash with dposContext := sole.toProto }

def soleReader : ChainReader := reader soleGenesis soleGenesis

def soleEngine : Engine := ⟨sole.commitTo nodes, address 1, none, none⟩

theorem soleReader_connected : Connected soleReader := by
  refine ⟨absurd rfl, ?_⟩
  intro hash header hget
  cases hget
  exact absurd rfl

theorem checkValidator_verifySeal_sole :
    checkValidator soleEngine soleGenesis 10 = .ok () ∧ timeTooEarly soleGenesis soleHeader = false ∧
      ∃ e1, verifySeal true soleReader soleHeader [] soleEngine = .ok () e1 := by
  have hcheck : checkValidator soleEngine soleGenesis 10 = .ok () := rfl
  have hslot : InSlot soleGenesis := ⟨by decide, by decide, by decide⟩
  have hnow : IsInt64 10 := ⟨by decide, by decide⟩
  have htop : OnTop soleReader soleGenesis soleHeader := ⟨by decide, rfl⟩
  exact ⟨hcheck, (checkValidator_verifySeal rfl hnow hslot soleReader_connected rfl).1 hcheck soleHeader
    htop rfl rfl rfl⟩

end

end Bgmchain.Dpos
