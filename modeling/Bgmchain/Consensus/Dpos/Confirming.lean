import Bgmchain.Consensus.Dpos.Confirmed
import Bgmchain.Consensus.Dpos.Sample

/-! # Which block is confirmed

The walk of `updateConfirmedBlockHeader` collects validators for as long as it stays in an epoch and
gives up once too few headers are left. It still finds the highest header above the confirmed one
that enough validators back: its own one and those of the headers above it, as long as these are in
its epoch. -/
namespace Bgmchain.Dpos
open Common List
open Lib.Hoare (stateAfter)

/-- The validators of the first headers of a list, for as long as these are in an epoch. -/
def producers (epoch : Int) (up : List Header) : Finset Address :=
  ((up.takeWhile fun x => epochOf (int64 x.time) = epoch).map (·.validator)).toFinset

/-- The first of some headers, each on top of the next, that enough validators back. Above the first
one there is `up`, the lowest header first. -/
def highestBacked : List Header → List Header → Option Header
  | _, [] => none
  | up, b :: below =>
    if consensusSize ≤ (producers (epochOf (int64 b.time)) (b :: up)).card then some b
    else highestBacked (b :: up) below

theorem producers_cons (epoch : Int) (b : Header) (up : List Header) : producers epoch (b :: up) =
      if epochOf (int64 b.time) = epoch then insert b.validator (producers epoch up) else ∅ := by
  unfold producers
  by_cases h : epochOf (int64 b.time) = epoch <;> simp [h]

theorem card_producers_cons_le (epoch : Int) (b : Header) (up : List Header) :
    (producers epoch (b :: up)).card ≤ (producers epoch up).card + 1 := by
  rw [producers_cons]
  split
  · exact Finset.card_insert_le _ _
  · simp

/-- Every header adds one validator at most. -/
theorem highestBacked_eq_none {up below : List Header}
    (h : ∀ epoch, (producers epoch up).card + below.length < consensusSize) : highestBacked up below = none := by
  induction below generalizing up with
  | nil => rfl
  | cons b below ih =>
    have hstep : ∀ epoch, (producers epoch (b :: up)).card + below.length < consensusSize := by
      intro epoch
      have hle := card_producers_cons_le epoch b up
      have hlt := h epoch
      rw [length_cons] at hlt
      omega
    have hfew := hstep (epochOf (int64 b.time))
    rw [highestBacked, if_neg (by omega), ih hstep]

section
variable {chain : ChainReader} {base cur : Header} {above : List Header}

/-- The headers from the given one down to a header below it, without the latter. -/
inductive Line (chain : ChainReader) (base : Header) : Header → List Header → Prop
  | refl : Line chain base base []
  | step {cur parent above} : parentIn chain cur = some parent → cur.number = parent.number + 1 →
      Line chain base parent above → Line chain base cur (cur :: above)

theorem Line.number_eq (h : Line chain base cur above) : cur.number = base.number + above.length := by
  induction h with
  | refl => simp
  | step _ hnum _ ih =>
    rw [hnum, ih, length_cons]
    omega

theorem addWitness_toFinset {ws : List Address} (hws : ws.Nodup) (a : Address) :
    (addWitness ws a).length = (insert a ws.toFinset).card ∧ (addWitness ws a).Nodup ∧
      (addWitness ws a).toFinset = insert a ws.toFinset := by
  have hadd : (addWitness ws a).Nodup ∧ (addWitness ws a).toFinset = insert a ws.toFinset := by
    unfold addWitness
    split
    next ha =>
      simp [hws, ha]
    next ha =>
      exact ⟨concat_eq_append ▸ hws.concat ha, by ext; simp⟩
  exact ⟨by rw [← hadd.2, toFinset_card_of_nodup hadd.1], hadd⟩

variable [Crypto] (putOk : Bool) {confirmed : Header} (hbase : base.number = confirmed.number)
  (hne : ∀ x ∈ above, confirmed.hash ≠ x.hash) (hnum : 0 ≤ confirmed.number) (hfew : above.length < 2 ^ 63)
include hbase hne hnum hfew

/-- What the walk finds, with the validators of the headers in the epoch above. -/
theorem confirmLoop_eq (hline : Line chain base cur above) (hlt : cur.number < 2 ^ 64) {f : Nat}
    (hf : above.length < f) {epoch : Int} {ws : List Address} {up : List Header}
    (hws : ∀ ws', ws' = (if epochOf (int64 cur.time) ≠ epoch then [] else ws) →
      ws'.Nodup ∧ ws'.toFinset = producers (epochOf (int64 cur.time)) up) (e : Engine) :
    confirmLoop putOk chain confirmed f cur epoch ws e = (highestBacked up above).elim (.ok () e) fun b =>
      storeConfirmedBlockHeader putOk b { e with confirmedBlockHeader := some b } := by
  obtain _ | f := f
  · omega
  induction hline generalizing f epoch ws up with
  | refl =>
    rw [confirmLoop, if_neg (by simp [hbase])]
    rfl
  | @step cur parent above hparent hcur hline ih =>
    have hnumber := (Line.step hparent hcur hline).number_eq
    rw [length_cons] at hnumber hfew hf
    have hbelow : uint64 confirmed.number < uint64 cur.number := by
      unfold uint64
      omega
    have hdiff : int64 (int64 cur.number - int64 confirmed.number) = above.length + 1 := by
      unfold int64
      omega
    rw [confirmLoop, if_pos ⟨hne cur mem_cons_self, hbelow⟩, hdiff]
    obtain ⟨hnodup, hsame⟩ := hws _ rfl
    generalize (if epochOf (int64 cur.time) ≠ epoch then [] else ws) = ws' at hnodup hsame
    obtain ⟨hlen, hnodup', hsame'⟩ := addWitness_toFinset hnodup cur.validator
    have hcard : ws'.length = (producers (epochOf (int64 cur.time)) up).card := by
      rw [← hsame, toFinset_card_of_nodup hnodup]
    have hprod : producers (epochOf (int64 cur.time)) (cur :: up) = insert cur.validator ws'.toFinset := by
      rw [producers_cons, if_pos rfl, hsame]
    by_cases hfast : (above.length : Int) + 1 < (consensusSize : Int) - ws'.length
    · -- what is left cannot make up for the validators that are missing
      have hnone : highestBacked up (cur :: above) = none := by
        have hstep := card_producers_cons_le (epochOf (int64 cur.time)) cur up
        rw [highestBacked, if_neg (by omega)]
        refine highestBacked_eq_none fun epoch' => ?_
        by_cases he : epochOf (int64 cur.time) = epoch'
        · subst he
          omega
        · rw [producers_cons, if_neg he, Finset.card_empty]
          omega
      rw [if_pos hfast, hnone]
      rfl
    · rw [if_neg hfast, highestBacked, hprod, ← hlen]
      by_cases henough : consensusSize ≤ (addWitness ws' cur.validator).length
      · rw [if_pos henough, if_pos henough]
        rfl
      · have hp : chain.getHeaderByHash cur.parentHash = some parent := hparent
        obtain _ | f := f
        · omega
        rw [if_neg henough, if_neg henough, hp]
        refine ih (fun x hx => hne x (mem_cons_of_mem _ hx)) (by omega) (by omega) ?_ f (by omega)
        rintro ws'' rfl
        by_cases he : epochOf (int64 parent.time) = epochOf (int64 cur.time)
        · rw [if_neg (not_not.mpr he), he, hprod]
          exact ⟨hnodup', hsame'⟩
        · rw [if_pos he, producers_cons, if_neg (Ne.symm he)]
          exact ⟨nodup_nil, rfl⟩

theorem updateConfirmedBlockHeader_line {e : Engine} (hconf : confirmedHeader chain e = some confirmed)
    (hline : Line chain base chain.currentHeader above) (hlt : chain.currentHeader.number < 2 ^ 64) :
    updateConfirmedBlockHeader putOk chain e =
      (highestBacked [] above).elim (.ok () { e with confirmedBlockHeader := some confirmed }) fun b =>
        storeConfirmedBlockHeader putOk b { e with confirmedBlockHeader := some b } := by
  have hnumber := hline.number_eq
  have hfuel : above.length < uint64 chain.currentHeader.number + 1 := by
    unfold uint64
    omega
  have hnobody : ∀ ws', ws' = (if epochOf (int64 chain.currentHeader.time) ≠ -1 then [] else ([] : List Address)) →
      ws'.Nodup ∧ ws'.toFinset = producers (epochOf (int64 chain.currentHeader.time)) [] := by
    rintro ws' rfl
    simp [producers]
  rw [updateConfirmedBlockHeader_eq hconf, confirmLoop_eq putOk hbase hne hnum hfew hline hlt hfuel hnobody]

end

/-- **A call confirms the highest header that enough validators back**, and leaves the confirmed
header as it is if there is none. -/
theorem confirmedAfter_eq_highest [Crypto] {chain : ChainReader} {confirmed : Header} {above : List Header} (putOk : Bool)
    {e : Engine} (hconf : confirmedHeader chain e = some confirmed)
    (hline : Line chain confirmed chain.currentHeader above) (hne : ∀ x ∈ above, confirmed.hash ≠ x.hash)
    (hnum : 0 ≤ confirmed.number) (hlt : chain.currentHeader.number < 2 ^ 64) (hfew : above.length < 2 ^ 63) :
    confirmedAfter putOk chain e = some ((highestBacked [] above).getD confirmed) ∧
      (putOk = true → ∃ e', updateConfirmedBlockHeader putOk chain e = .ok () e') := by
  unfold confirmedAfter stateAfter
  rw [updateConfirmedBlockHeader_line putOk rfl hne hnum hfew hconf hline hlt]
  cases highestBacked [] above with
  | none => exact ⟨rfl, fun _ => ⟨_, rfl⟩⟩
  | some b =>
    cases putOk with
    | true => exact ⟨rfl, fun _ => ⟨_, rfl⟩⟩
    | false => exact ⟨rfl, nofun⟩

section
open Sample

/-- A reader that finds the headers of a list. -/
def readerOf (genesis tip : Header) (stored : List Header) : ChainReader :=
  { reader genesis tip with getHeaderByHash := fun h => stored.find? (·.hash = h) }

def c0 : Header := header 0 0 (address 1) (.zero 32)
def c1 : Header := header 1 10 (address 1) c0.hash
def c2 : Header := header 2 20 (address 2) c1.hash
def c3 : Header := header 3 30 (address 3) c2.hash

/-- A header of the next epoch, and one of the first epoch on top of it. -/
def late : Header := header 3 86400 (address 4) c2.hash
def early : Header := header 4 30 (address 3) late.hash

def unconfirmed : Engine := ⟨nodes, address 1, none, none⟩

theorem confirmedAfter_eq_highest_third :
    confirmedAfter true (readerOf c0 c3 [c0, c1, c2, c3]) unconfirmed = some ((highestBacked [] [c3, c2, c1]).getD c0) := by
  refine (confirmedAfter_eq_highest true rfl ?_ (by decide +kernel) (by decide) (by decide) (by decide)).1
  exact .step (by decide +kernel) rfl (.step (by decide +kernel) rfl (.step (by decide +kernel) rfl .refl))

/-- The validators of the first epoch above `c1` are not counted together when a header of another epoch
lies between them. -/
theorem divided_epoch_not_confirmed :
    Line (readerOf c0 early [c0, c1, c2, late, early]) c0 early [early, late, c2, c1] ∧
      consensusSize ≤ (([c1, c2, late, early].filter fun x => epochOf (int64 x.time) = epochOf (int64 c1.time)).map
        (·.validator)).toFinset.card ∧
      confirmedAfter true (readerOf c0 early [c0, c1, c2, late, early]) unconfirmed = some c0 := by
  refine ⟨?_, by decide +kernel, by decide +kernel⟩
  exact .step (by decide +kernel) rfl (.step (by decide +kernel) rfl (.step (by decide +kernel) rfl
    (.step (by decide +kernel) rfl .refl)))

end

end Bgmchain.Dpos
