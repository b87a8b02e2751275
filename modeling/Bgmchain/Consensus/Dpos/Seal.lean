import Bgmchain.Consensus.Dpos.Verify

/-! # What `verifySeal` accepts

The validator whose turn it is at a time, by the context a header carries, and
the checks of `verifySeal` in one statement. -/
namespace Bgmchain.Dpos
open Common
open Lib.Hoare (pure_ok_iff except_bind_ok_iff guard_bind_ok_iff guard_ok_iff)

/-- The place in a list of `n` validators whose turn it is at a time. -/
def turnAt (now : Int) (n : Nat) : Int := ((now.tmod epochInterval).tdiv blockInterval).tmod n

/-- At `now` a slot begins, and it is the turn of `v` among the validators. -/
structure Turn (now : Int) (validators : List Address) (v : Address) : Prop where
  slot : (now.tmod epochInterval).tmod blockInterval = 0
  nonneg : 0 ≤ turnAt now validators.length
  validator : validators[(turnAt now validators.length).toNat]? = some v

variable {now : Int} {v : Address} {db : NodeDatabase}

theorem Turn.unique {validators : List Address} {v' : Address}
    (h : Turn now validators v) (h' : Turn now validators v') : v = v' :=
  Option.some.inj (h.validator.symm.trans h'.validator)

theorem Turn.ne_nil {validators : List Address} (h : Turn now validators v) : validators ≠ [] := by
  intro hnil
  have hv := h.validator
  rw [hnil] at hv
  cases hv

/-- The context that hangs under these hashes lists these validators. -/
def Elected (db : NodeDatabase) (proto : DposContextProto) (validators : List Address) : Prop :=
  ∃ d, DposContext.newFromProto db proto = .ok d ∧ d.getValidators.1 = .ok validators

theorem Elected.unique {proto : DposContextProto} {l l' : List Address}
    (h : Elected db proto l) (h' : Elected db proto l') : l = l' := by
  obtain ⟨d, hd, hl⟩ := h
  obtain ⟨d', hd', hl'⟩ := h'
  cases hd.symm.trans hd'
  exact Except.ok.inj (hl.symm.trans hl')

/-- Where `lookupValidator` finds a validator. -/
theorem lookupValidator_ok_iff {d : DposContext} : (∃ d', lookupValidator now d = .ok v d') ↔
      ∃ validators, d.getValidators.1 = .ok validators ∧ Turn now validators v := by
  unfold lookupValidator
  by_cases hslot : (now.tmod epochInterval).tmod blockInterval = 0
  · rw [if_neg (not_not.mpr hslot)]
    show (∃ d', EStateM.bind getValidators _ d = .ok v d') ↔ _
    unfold EStateM.bind getValidators
    dsimp only
    cases hv : d.getValidators.1 with
    | error e =>
      refine iff_of_false ?_ (by simp)
      rintro ⟨d', h⟩
      cases h
    | ok validators =>
      simp only [Except.ok.injEq, exists_eq_left']
      by_cases hnil : validators = []
      · subst hnil
        refine iff_of_false ?_ fun ht => ht.ne_nil rfl
        rintro ⟨d', h⟩
        cases h
      · rw [if_neg fun hlen => hnil (List.eq_nil_of_length_eq_zero hlen)]
        rw [← turnAt]
        cases hi : validators[(turnAt now validators.length).toNat]? with
        | none =>
          refine iff_of_false ?_ ?_
          · rintro ⟨d', h⟩
            cases h
          · intro ht
            rw [ht.validator] at hi
            cases hi
        | some v' =>
          show (∃ d', (if turnAt now validators.length < 0 then throw .panicked else pure v' :
            Elect Address) d.getValidators.2 = .ok v d') ↔ _
          by_cases hneg : turnAt now validators.length < 0
          · rw [if_pos hneg]
            refine iff_of_false ?_ fun ht => not_le.mpr hneg ht.nonneg
            rintro ⟨d', h⟩
            cases h
          · rw [if_neg hneg]
            constructor
            · rintro ⟨d', h⟩
              obtain ⟨hv', _⟩ := pure_ok_iff.mp h
              exact ⟨hslot, not_lt.mp hneg, hv' ▸ hi⟩
            · intro ht
              refine ⟨d.getValidators.2, pure_ok_iff.mpr ⟨?_, rfl⟩⟩
              exact Option.some.inj (hi.symm.trans ht.validator)
  · rw [if_pos hslot]
    refine iff_of_false ?_ ?_
    · rintro ⟨d', h⟩
      cases h
    · rintro ⟨validators, _, ht⟩
      exact hslot ht.slot

theorem scheduledValidator_ok_iff {proto : DposContextProto} : scheduledValidator db proto now = .ok v ↔
      ∃ validators, Elected db proto validators ∧ Turn now validators v := by
  unfold scheduledValidator Elected
  cases DposContext.newFromProto db proto with
  | error e => simp
  | ok d =>
    have hlookup : (∃ d', lookupValidator now d = .ok v d') ↔
        ∃ validators, d.getValidators.1 = .ok validators ∧ Turn now validators v := lookupValidator_ok_iff
    simp only [Except.ok.injEq, exists_eq_left']
    rw [← hlookup]
    cases lookupValidator now d with
    | ok v' d' | error e d' => simp

section
variable [Crypto]

theorem verifyBlockSigner_ok_iff {v : Address} {header : Header} :
    verifyBlockSigner v header = .ok () ↔ ecrecover header = .ok v ∧ header.validator = v := by
  unfold verifyBlockSigner
  simp only [except_bind_ok_iff, guard_bind_ok_iff, guard_ok_iff, not_not]
  constructor
  · intro ⟨signer, hsigner, hv, hheader⟩
    subst hv
    exact ⟨hsigner, hheader.symm⟩
  · intro ⟨hsigner, hheader⟩
    exact ⟨v, hsigner, rfl, hheader.symm⟩

/-- What `verifySeal` checks of a header and its parent: it is signed by the
validator whose turn it is at its time by the parent's context. -/
def Sealed (db : NodeDatabase) (parent header : Header) : Prop :=
  ∃ validators v, Elected db parent.dposContext validators ∧ Turn (int64 header.time) validators v ∧
    ecrecover header = .ok v ∧ header.validator = v

theorem checkSeal_ok_iff {chain : ChainReader} {header : Header} {parents : List Header} :
    checkSeal db chain header parents = .ok () ↔ uint64 header.number ≠ 0 ∧
      ∃ parent, parentOf chain header parents = some parent ∧ Sealed db parent header := by
  unfold checkSeal
  by_cases hnumber : uint64 header.number = 0
  · simp [hnumber]
  rw [if_neg hnumber]
  cases parentOf chain header parents with
  | none => simp
  | some parent =>
    simp only [ne_eq, hnumber, not_false_eq_true, true_and, Option.some.injEq, exists_eq_left', Sealed]
    cases hs : scheduledValidator db parent.dposContext (int64 header.time) with
    | error e =>
      refine iff_of_false (by simp) ?_
      intro ⟨validators, v, he, ht, _⟩
      rw [scheduledValidator_ok_iff.mpr ⟨validators, he, ht⟩] at hs
      cases hs
    | ok v =>
      obtain ⟨validators, he, ht⟩ := scheduledValidator_ok_iff.mp hs
      simp only [verifyBlockSigner_ok_iff]
      constructor
      · intro ⟨hsigner, hheader⟩
        exact ⟨validators, v, he, ht, hsigner, hheader⟩
      · intro ⟨validators', v', he', ht', hsigner, hheader⟩
        cases he.unique he'
        cases ht.unique ht'
        exact ⟨hsigner, hheader⟩

end

end Bgmchain.Dpos
