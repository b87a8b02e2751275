import Bgmchain.Core.State.Trace

/-! # Reverted calls and the state root

Two states that hold the same of all accounts write the same to the account trie, and hold the
same again afterwards. So calls made on both, with snapshots, reverts and finalisations among
them, end with the same root. Harmless calls that are reverted lead to a state that holds the same
as the one they started from. -/
namespace Bgmchain.State
open Common Core Lib.Rewind List StateDB StateObject

section
variable [Crypto] [Roots]

/-! ## Finalising both states -/

namespace StateObject

omit [Crypto] in
theorem updateRoot_eq (o : StateObject) (db : Database) : ∃ e, o.updateRoot db =
    { o with
      trie := some (o.updateTrie db).1
      dirtyStorage := fun _ => none
      dbErr := e
      data := { o.data with root := Roots.storage (o.updateTrie db).1 } } := by
  obtain ⟨e, he⟩ := o.getTrie_snd db
  refine ⟨e, ?_⟩
  unfold updateRoot updateTrie
  dsimp only
  rw [he]

variable {o : StateObject}

/-- Writing the storage of an account shows nothing new. -/
theorem view_updateRoot (ho : o.Consistent) (db : Database) : (o.updateRoot db).view db = o.view db := by
  obtain ⟨e, he⟩ := o.updateRoot_eq db
  rw [he, updateTrie_fst ho, view_eq, view_eq]
  congr 1
  funext key
  dsimp only [trieOf]
  rw [Option.getD_some, storage_eq, getTrie_fst]
  cases o.cachedStorage key <;> rfl

theorem finalised_of_none {db : Database} {b : Bool} (h : (o.view db).written b = none) :
    o.finalised db b = { o with deleted := true } := by
  unfold AccountView.written at h
  split at h
  next hc => exact if_pos hc
  · cases h

theorem finalised_of_some {db : Database} {b : Bool} {data : Account}
    (h : (o.view db).written b = some data) : o.finalised db b = o.updateRoot db := by
  unfold AccountView.written at h
  split at h
  · cases h
  next hc => exact if_neg hc

end StateObject

/-- What the account trie has of an account after `Finalise`. -/
def slotWritten (db : Database) (b : Bool) (data : Option Account) (x : Option StateObject) (d : Bool) : Option Account :=
  if d then x.bind fun o => (o.view db).written b else data

/-- The object of an account after `Finalise`. -/
def slotSettled (db : Database) (b : Bool) (x : Option StateObject) (d : Bool) : Option StateObject :=
  if d then x.map (·.finalised db b) else x

/-- `Finalise` panics at the account. -/
def SlotUnwritable (db : Database) (b : Bool) (x : Option StateObject) (d : Bool) : Prop :=
  d = true ∧ ∃ o, x = some o ∧ (o.view db).written b ≠ none ∧ o.data.balance < 0

/-- `Finalise` does the same to two slots. -/
structure SlotFinal (db : Database) (addr : Address) (b : Bool) (data : Option Account) (x1 : Option StateObject) (d1 : Bool)
    (x2 : Option StateObject) (d2 : Bool) : Prop where
  written : slotWritten db b data x1 d1 = slotWritten db b data x2 d2
  unwritable : SlotUnwritable db b x1 d1 ↔ SlotUnwritable db b x2 d2
  slot : Slot db addr (slotWritten db b data x1 d1) (slotSettled db b x1 d1) d1 (slotSettled db b x2 d2) d2

section
variable {db : Database} {addr : Address} {b : Bool} {data : Option Account} {o1 o2 : StateObject} {d1 d2 : Bool}
  {x1 x2 : Option StateObject}

omit [Crypto] [Roots] in
/-- An object of a slot that is dirty is the one that it presents. -/
theorem presents_dirty (hlive : d1 = true → ∃ o, x1 = some o) (h : presents data x1 = some o1) (hd : d1 = true) :
    x1 = some o1 ∧ o1.deleted = false := by
  obtain ⟨o, rfl⟩ := hlive hd
  cases hdel : o.deleted with
  | true =>
    rw [Slot.presents_gone hdel] at h
    cases h
  | false =>
    rw [Slot.presents_live hdel] at h
    cases h
    exact ⟨rfl, hdel⟩

theorem slotUnwritable_some (d : Bool) :
    SlotUnwritable db b (some o1) d ↔ d = true ∧ (o1.view db).written b ≠ none ∧ o1.data.balance < 0 := by
  simp [SlotUnwritable]

theorem SlotFinal.clean (h : Slot db addr data x1 false x2 false) : SlotFinal db addr b data x1 false x2 false := by
  refine ⟨rfl, ?_, h⟩
  unfold SlotUnwritable
  simp

/-- Objects that look alike are written alike. -/
theorem SlotFinal.dirty (hview : o1.view db = o2.view db) (hslot : ∀ data,
      ((o2.view db).written b = none → Slot db addr data (some { o1 with deleted := true }) true
        (some { o2 with deleted := true }) true) ∧
      ((o2.view db).written b ≠ none → Slot db addr data (some (o1.updateRoot db)) true (some (o2.updateRoot db)) true)) :
    SlotFinal db addr b data (some o1) true (some o2) true := by
  have hbalance : o1.data.balance = o2.data.balance := congrArg AccountView.balance hview
  refine ⟨?_, ?_, ?_⟩
  · unfold slotWritten
    rw [if_pos rfl, if_pos rfl, Option.bind_some, Option.bind_some, hview]
  · rw [slotUnwritable_some, slotUnwritable_some, hview, hbalance]
  · unfold slotSettled
    rw [if_pos rfl, if_pos rfl, Option.map_some, Option.map_some]
    cases hw : (o2.view db).written b with
    | none =>
      rw [finalised_of_none hw, finalised_of_none (hview ▸ hw)]
      exact (hslot _).1 hw
    | some data' =>
      rw [finalised_of_some hw, finalised_of_some (hview ▸ hw)]
      exact (hslot _).2 (by rw [hw]; exact Option.some_ne_none _)

theorem gone_deleted (hview : o1.view db = o2.view db) (d : Bool) (data : Option Account) :
    Slot db addr data (some { o1 with deleted := true }) d (some { o2 with deleted := true }) d :=
  .gone rfl rfl (by rw [view_flags o1, view_flags o2, hview])

theorem likes_updateRoot (hl : Likes db addr o1 o2) (hc1 : o1.Consistent) (hc2 : o2.Consistent) :
    Likes db addr (o1.updateRoot db) (o2.updateRoot db) := by
  obtain ⟨e1, he1⟩ := o1.updateRoot_eq db
  obtain ⟨e2, he2⟩ := o2.updateRoot_eq db
  refine ⟨?_, ?_, ?_⟩
  · rw [view_updateRoot hc1, view_updateRoot hc2, hl.view]
  · rw [he1, he2]
    exact hl.deleted
  · rw [he1, he2]
    exact hl.touched

omit [Crypto] in
theorem updateRoot_onDirty (o : StateObject) (db : Database) :
    (o.updateRoot db).onDirty = o.onDirty ∧ (o.updateRoot db).deleted = o.deleted := by
  obtain ⟨e, he⟩ := o.updateRoot_eq db
  rw [he]
  exact ⟨rfl, rfl⟩

/-- An account that one state writes, while the other one leaves it as it is in the trie. -/
theorem SlotFinal.of_unchanged (hd1 : o1.deleted = false) (hc1 : o1.Consistent) (h2 : presents data x2 = some o2)
    (hl : Likes db addr o1 o2) (hne : (o2.view db).empty = false) (hu : Unchanged db data o2)
    (hfunded : ∀ a, data = some a → 0 ≤ a.balance) : SlotFinal db addr b data (some o1) true x2 false := by
  have hkept : (o1.view db).written b = data := by
    rw [hl.view, hu.data]
    unfold AccountView.written
    rw [if_neg]
    intro h
    rcases h with h | ⟨-, h⟩
    · have hsuicided : o2.suicided = true := h
      rw [hu.suicided] at hsuicided
      cases hsuicided
    · rw [hne] at h
      cases h
  have hwritten : slotWritten db b data (some o1) true = data := hkept
  refine ⟨hwritten, ⟨?_, fun h => nomatch h.1⟩, ?_⟩
  · intro h
    obtain ⟨-, -, hneg⟩ := (slotUnwritable_some _).1 h
    have hbalance : 0 ≤ (o2.view db).data.balance := hfunded _ hu.data
    have hsame : (o2.view db).data.balance = o2.data.balance := rfl
    rw [hl.balance] at hneg
    omega
  · have hsettled : slotSettled db b (some o1) true = some (o1.updateRoot db) := by
      unfold slotSettled
      rw [if_pos rfl, Option.map_some, finalised_of_some (hkept.trans hu.data)]
    rw [hwritten, hsettled]
    have hroot := updateRoot_onDirty o1 db
    refine .present (Slot.presents_live (hroot.2.trans hd1)) h2 ?_ (.marked hne rfl (.inr hu))
    obtain ⟨e, he⟩ := o1.updateRoot_eq db
    refine ⟨?_, hroot.2.trans hl.deleted, ?_⟩
    · rw [view_updateRoot hc1, hl.view]
    · rw [he]
      exact hl.touched

/-- An account that one state has dropped, and that has committed suicide in the other one. -/
theorem SlotFinal.of_dropped (hdata : data = none) (hsuicided : o2.suicided = true) :
    SlotFinal db addr b data none false (some o2) true := by
  have hnone : (o2.view db).written b = none := if_pos (.inl hsuicided)
  have hwritten : slotWritten db b data none false = none := hdata
  refine ⟨hwritten.trans hnone.symm, ⟨(fun h => nomatch h.1), ?_⟩, ?_⟩
  · exact fun h => absurd hnone ((slotUnwritable_some _).1 h).2.1
  · have hsettled : slotSettled db b (some o2) true = some { o2 with deleted := true } := by
      unfold slotSettled
      rw [if_pos rfl, Option.map_some, finalised_of_none hnone]
    rw [hwritten, hsettled]
    exact .dropped rfl rfl (.inl hsuicided)

/-- **`Finalise` treats two slots alike.** -/
theorem Slot.finalise (h : Slot db addr data x1 d1 x2 d2) (b : Bool) (hlive1 : d1 = true → ∃ o, x1 = some o)
    (hlive2 : d2 = true → ∃ o, x2 = some o) (hc1 : ∀ o, x1 = some o → o.Consistent)
    (hc2 : ∀ o, x2 = some o → o.Consistent) (hfunded : ∀ a, data = some a → 0 ≤ a.balance) :
    SlotFinal db addr b data x1 d1 x2 d2 := by
  cases h with
  | @present _ _ o1 o2 _ _ h1 h2 hl hf =>
    -- two objects that are both dirty
    have both : d1 = true → d2 = true →
        (o2.Consistent → ∀ data, Flags db data (o1.updateRoot db) true (o2.updateRoot db) true) →
        SlotFinal db addr b data x1 d1 x2 d2 := by
      intro hd1 hd2 hflags
      obtain ⟨rfl, hdel1⟩ := presents_dirty hlive1 h1 hd1
      obtain ⟨rfl, hdel2⟩ := presents_dirty hlive2 h2 hd2
      rw [hd1, hd2]
      refine .dirty hl.view fun data' => ⟨fun _ => gone_deleted hl.view true data', fun _ => ?_⟩
      exact .present (Slot.presents_live ((updateRoot_onDirty o1 db).2.trans hdel1))
        (Slot.presents_live ((updateRoot_onDirty o2 db).2.trans hdel2))
        (likes_updateRoot hl (hc1 o1 rfl) (hc2 o2 rfl)) (hflags (hc2 o2 rfl) data')
    cases hf with
    | same hd ha =>
      cases hd1 : d1 with
      | true =>
        rw [← hd1]
        refine both hd1 (hd.symm.trans hd1) fun _ _ => .same rfl ?_
        rw [(updateRoot_onDirty o1 db).1, (updateRoot_onDirty o2 db).1, ha]
      | false =>
        rw [← hd, hd1]
        exact .clean (.present h1 h2 hl (.same rfl ha))
    | marked hne hd1 hr =>
      cases hd2 : d2 with
      | true =>
        rw [← hd2]
        refine both hd1 hd2 fun hc _ => .marked ?_ rfl (.inl rfl)
        rw [view_updateRoot hc]
        exact hne
      | false =>
        obtain ⟨rfl, hdel1⟩ := presents_dirty hlive1 h1 hd1
        rw [hd1]
        rcases hr with hr | hu
        · rw [hd2] at hr
          cases hr
        · exact .of_unchanged hdel1 (hc1 o1 rfl) h2 hl hne hu hfunded
  | absent hdata =>
    cases d1 with
    | true =>
      obtain ⟨o, ho⟩ := hlive1 rfl
      cases ho
    | false => exact .clean (.absent hdata)
  | @gone o1 o2 _ hd1 hd2 hview =>
    cases d1 with
    | true =>
      refine .dirty hview fun data' => ⟨fun _ => gone_deleted hview true data', fun _ => ?_⟩
      refine .gone ((updateRoot_onDirty o1 db).2.trans hd1) ((updateRoot_onDirty o2 db).2.trans hd2) ?_
      rw [view_updateRoot (hc1 o1 rfl), view_updateRoot (hc2 o2 rfl), hview]
    | false => exact .clean (.gone hd1 hd2 hview)
  | @dropped o2 _ hdata hd2 hr =>
    cases d2 with
    | true =>
      rcases hr with hsuicided | hr
      · exact .of_dropped hdata hsuicided
      · cases hr
    | false => exact .clean (.dropped hdata hd2 (.inr rfl))

end

/-- `Finalise` of both states, each with its dirty accounts in some order. -/
theorem Traces.finalise {s t : StateDB} (h : Traces s t) {b : Bool} {order1 order2 : List Address}
    (h1 : s.Enumerates order1) (h2 : t.Enumerates order2) :
    Option.Rel (fun s' t' => Traces s' t' ∧ s'.validRevisions = [] ∧ t'.validRevisions = [])
      (s.finalise b order1) (t.finalise b order2) := by
  have hslot : ∀ addr, SlotFinal s.db addr b (s.trie addr) (s.stateObjects addr) (s.stateObjectsDirty addr)
      (t.stateObjects addr) (t.stateObjectsDirty addr) := fun addr =>
    (h.close.slots addr).finalise b (h.left.live addr) (h.right.live addr) (h.left.consistent addr)
      (h.right.consistent addr) (h.left.funded addr)
  have hunwritable : ∀ addr, (s.stateObjectsDirty addr = true ∧ s.Unwritable b addr) ↔
      (t.stateObjectsDirty addr = true ∧ t.Unwritable b addr) := by
    intro addr
    unfold StateDB.Unwritable
    rw [← h.close.db]
    exact (hslot addr).unwritable
  rcases finalise_eq (b := b) h.left.plain h1 with ⟨⟨addr, hbad⟩, hs⟩ | ⟨hgood, hs⟩
  · rcases finalise_eq (b := b) h.right.plain h2 with ⟨-, ht⟩ | ⟨hgood, -⟩
    · rw [hs, ht]
      exact .none
    · obtain ⟨hd, hu⟩ := (hunwritable addr).1 hbad
      exact absurd hu (hgood addr hd)
  · rcases finalise_eq (b := b) h.right.plain h2 with ⟨⟨addr, hbad⟩, -⟩ | ⟨-, ht⟩
    · obtain ⟨hd, hu⟩ := (hunwritable addr).2 hbad
      exact absurd hu (hgood addr hd)
    · obtain ⟨hplain1, hclear1⟩ := h.left.plain.finalise hs
      obtain ⟨hplain2, hclear2⟩ := h.right.plain.finalise ht
      have hsettled : ∀ (u : StateDB) order, u.Enumerates order → ∀ addr, (u.settle b order).stateObjects addr =
          slotSettled u.db b (u.stateObjects addr) (u.stateObjectsDirty addr) := by
        intro u order ho addr
        unfold settle slotSettled
        exact if_congr (ho.2 addr) rfl rfl
      have htrie : (s.settle b order1).trie = (t.settle b order2).trie := by
        rw [settle_trie h1, settle_trie h2]
        funext addr
        have hw := (hslot addr).written
        unfold StateDB.written
        rw [← h.close.db, ← h.close.trie]
        exact hw
      rw [hs, ht]
      refine .some ⟨⟨⟨h.close.db, htrie, h.close.preimages, .nil, ?_⟩, hplain1.sound hclear1.journal,
        hplain2.sound hclear2.journal⟩, hclear1.validRevisions, hclear2.validRevisions⟩
      intro addr
      have hfinal := (hslot addr).slot
      show Slot s.db addr ((s.settle b order1).trie addr) ((s.settle b order1).stateObjects addr)
        (s.stateObjectsDirty addr) ((t.settle b order2).stateObjects addr) (t.stateObjectsDirty addr)
      rw [hsettled s _ h1, hsettled t _ h2, ← h.close.db, settle_trie h1]
      exact hfinal

/-- **The roots are the same.** -/
theorem Traces.intermediateRoot {s t : StateDB} (h : Traces s t) {b : Bool} {order1 order2 : List Address}
    (h1 : s.Enumerates order1) (h2 : t.Enumerates order2) :
    (s.intermediateRoot b order1).map (·.1) = (t.intermediateRoot b order2).map (·.1) := by
  have hrel := h.finalise (b := b) h1 h2
  unfold StateDB.intermediateRoot
  generalize s.finalise b order1 = x at hrel
  generalize t.finalise b order2 = y at hrel
  cases hrel with
  | none => rfl
  | some h =>
    rw [Option.map_some, Option.map_some, Option.map_some, Option.map_some, h.1.close.trie]

/-! ## Runs of both states -/

/-- What a call can end in. `Finalise` takes the dirty accounts in any order. -/
def Op.Leads (s : StateDB) (op : Op) (r : Option StateDB) : Prop :=
  match op with
  | .finalise deleteEmptyObjects _ => ∃ order, s.Enumerates order ∧ r = s.finalise deleteEmptyObjects order
  | op => r = op.apply s

/-- What a run of calls can end in; none if one of them panics. -/
def StateDB.Ends : StateDB → List Op → Option StateDB → Prop
  | s, [], r => r = some s
  | s, op :: ops, r => (op.Leads s none ∧ r = none) ∨ ∃ t, op.Leads s (some t) ∧ t.Ends ops r

/-- The calls but `DeleteSuicides` and `CommitTo`, after which dirty accounts are not dirty any more. -/
def Op.Between : Op → Prop
  | .deleteSuicides _ | .commitTo _ _ => False
  | _ => True

/-- Two states on which the same calls have the same outcome. -/
structure Lockstep (s t : StateDB) : Prop where
  traces : Traces s t
  left : s.Marked
  right : t.Marked
  revisions : s.validRevisions.map (·.journalIndex) = t.validRevisions.map (·.journalIndex)

namespace Lockstep

variable {s t : StateDB}

theorem of_cleared {s' t' : StateDB} (h : Traces s' t') (hs : s'.validRevisions = []) (ht : t'.validRevisions = []) :
    Lockstep s' t' := by
  refine ⟨h, ⟨?_, ?_⟩, ⟨?_, ?_⟩, by rw [hs, ht]⟩
  · rw [hs]
    exact .nil
  · rw [hs]
    exact nofun
  · rw [ht]
    exact .nil
  · rw [ht]
    exact nofun

section
variable (h : Lockstep s t)
include h

theorem steps {op : Op} (hop : op.Stepwise) : Option.Rel Lockstep (op.apply s) (op.apply t) := by
  obtain ⟨s', t', hs, ht, hclose⟩ := h.traces.close.apply hop
  have hs' := steps_apply guard_true hop (fun _ _ => trivial) hs
  have ht' := steps_apply guard_true hop (fun _ _ => trivial) ht
  have hsound1 := (op.effect h.traces.left h.left hs).sound h.traces.left h.left
  have hsound2 := (op.effect h.traces.right h.right ht).sound h.traces.right h.right
  rw [hs, ht]
  refine .some ⟨⟨hclose, hsound1.1, hsound2.1⟩, hsound1.2, hsound2.2, ?_⟩
  rw [hs'.frame.1.validRevisions, ht'.frame.1.validRevisions]
  exact h.revisions

theorem snapshot : Lockstep s.snapshot.2 t.snapshot.2 := by
  have hclose := h.traces.close
  refine ⟨⟨⟨hclose.db, hclose.trie, hclose.preimages, hclose.journal, hclose.slots⟩,
    h.traces.left.of_same rfl rfl rfl rfl rfl, h.traces.right.of_same rfl rfl rfl rfl rfl⟩,
    h.left.snapshot, h.right.snapshot, ?_⟩
  show (s.validRevisions ++ [Revision.mk s.nextRevisionId s.journal.length]).map Revision.journalIndex =
    (t.validRevisions ++ [Revision.mk t.nextRevisionId t.journal.length]).map Revision.journalIndex
  rw [map_append, map_append, h.revisions, hclose.journal.length_eq]
  rfl

theorem revert (place : Nat) :
    Option.Rel Lockstep ((Op.revertToSnapshot place).apply s) ((Op.revertToSnapshot place).apply t) := by
  have hplace : (s.validRevisions[place]?).map (·.journalIndex) = (t.validRevisions[place]?).map (·.journalIndex) := by
    rw [← List.getElem?_map, ← List.getElem?_map, h.revisions]
  cases hr : s.validRevisions[place]? with
  | none =>
    rw [hr] at hplace
    have hq : t.validRevisions[place]? = none := Option.map_eq_none_iff.1 hplace.symm
    have hbind : ∀ u : StateDB, u.validRevisions[place]? = none → (Op.revertToSnapshot place).apply u = none := by
      intro u hu
      show (u.validRevisions[place]?.bind fun r => u.revertToSnapshot r.id) = none
      rw [hu]
      rfl
    rw [hbind s hr, hbind t hq]
    exact .none
  | some r =>
    rw [hr] at hplace
    obtain ⟨q, hq, hidx⟩ := Option.map_eq_some_iff.1 hplace.symm
    have hrel := popN_rel (fun _ _ => Traces.pop) (s.journal.length - r.journalIndex) h.traces
    have hlen : t.journal.length - q.journalIndex = s.journal.length - r.journalIndex := by
      rw [hidx, h.traces.close.journal.length_eq]
    have hs := apply_revert h.left hr
    have ht := apply_revert h.right hq
    rw [hlen] at ht
    rw [hs, ht, Option.map_eq_bind, Option.map_eq_bind]
    refine rel_bind hrel fun u v hu hv htraces => ?_
    have hclose := htraces.close
    refine .some ⟨⟨⟨hclose.db, hclose.trie, hclose.preimages, hclose.journal, hclose.slots⟩,
      htraces.left.of_same rfl rfl rfl rfl rfl, htraces.right.of_same rfl rfl rfl rfl rfl⟩, ?_, ?_, ?_⟩
    · exact h.left.of_revert (split_at_place hr).2 hu
    · rw [← hlen] at hv
      exact h.right.of_revert (split_at_place hq).2 hv
    · show (s.validRevisions.take place).map (·.journalIndex) = (t.validRevisions.take place).map (·.journalIndex)
      rw [map_take, map_take, h.revisions]

/-- **One call on both states.** -/
theorem leads {op : Op} (hop : op.Between) {r1 r2 : Option StateDB} (h1 : op.Leads s r1)
    (h2 : op.Leads t r2) : Option.Rel Lockstep r1 r2 := by
  cases op with
  | deleteSuicides | commitTo => exact hop.elim
  | finalise b _ =>
    obtain ⟨order1, ho1, rfl⟩ := h1
    obtain ⟨order2, ho2, rfl⟩ := h2
    have hrel := h.traces.finalise (b := b) ho1 ho2
    generalize s.finalise b order1 = x at hrel
    generalize t.finalise b order2 = y at hrel
    cases hrel with
    | none => exact .none
    | some h => exact .some (of_cleared h.1 h.2.1 h.2.2)
  | snapshot =>
    cases h1
    cases h2
    exact .some h.snapshot
  | revertToSnapshot place =>
    cases h1
    cases h2
    exact h.revert place
  | _ =>
    cases h1
    cases h2
    exact h.steps trivial

/-- **Any calls on both states.** -/
theorem ends {ops : List Op} (hops : ∀ op ∈ ops, op.Between) {r1 r2 : Option StateDB}
    (h1 : s.Ends ops r1) (h2 : t.Ends ops r2) : Option.Rel Lockstep r1 r2 := by
  induction ops generalizing s t with
  | nil =>
    cases h1
    cases h2
    exact .some h
  | cons op ops ih =>
    have hop := hops op mem_cons_self
    rcases h1 with ⟨hs, rfl⟩ | ⟨s', hs, h1⟩
    · rcases h2 with ⟨ht, rfl⟩ | ⟨t', ht, h2⟩
      · exact .none
      · cases h.leads hop hs ht
    · rcases h2 with ⟨ht, rfl⟩ | ⟨t', ht, h2⟩
      · cases h.leads hop hs ht
      · cases h.leads hop hs ht with
        | some h' => exact ih h' (fun op' hop' => hops op' (mem_cons_of_mem _ hop')) h1 h2

end

end Lockstep

/-! ## Reverted calls -/

/-- Every call of the run is harmless where it is made. -/
def StateDB.HarmlessRun : StateDB → List Op → Prop
  | _, [] => True
  | s, op :: ops => (∀ act ∈ op.acts s, act.Harmless s) ∧ ∀ t, op.apply s = some t → t.HarmlessRun ops

section
variable {s t u : StateDB}

theorem Traces.back_of_steps (hs : s.Sound) (h : Steps (fun s act => Act.Harmless s act) s t) :
    Back StateDB.pop Traces (t.journal.length - s.journal.length) t s :=
  Steps.back Traces.respects (.refl hs) (fun _ _ _ hst hact hstep => Traces.step_back (hs.steps hst) hstep hact) h

/-- The valid snapshots do not matter. -/
theorem Traces.revisions (hs : s.Sound) (revisions : List Revision) (next : Nat) :
    Traces { s with validRevisions := revisions, nextRevisionId := next } s := by
  have hself := Close.refl s
  exact ⟨⟨rfl, rfl, rfl, hself.journal, hself.slots⟩, hs.of_same rfl rfl rfl rfl rfl, hs⟩

/-- Harmless calls, after which the snapshot taken at `s` is still valid. -/
theorem Within.traces (h : Within s t) {ops : List Op} (hrun : t.run ops = some u) (hops : t.HarmlessRun ops)
    (hnext : s.nextRevisionId < t.nextRevisionId) (hid : s.nextRevisionId ∈ u.validRevisions.map (·.id))
    (hback : Back pop Traces (t.journal.length - s.journal.length) t s) :
    Within s u ∧ Back pop Traces (u.journal.length - s.journal.length) u s := by
  induction ops generalizing t with
  | nil =>
    cases hrun
    exact ⟨h, hback⟩
  | cons op ops ih =>
    obtain ⟨v, hv, hrun⟩ := run_cons.1 hrun
    obtain ⟨hacts, hops⟩ := hops
    obtain ⟨hsv, hmv⟩ := (op.effect h.sound h.marked hv).sound h.sound h.marked
    have hle := next_of_apply h.sound h.marked hv
    have hidv : s.nextRevisionId ∈ v.validRevisions.map (·.id) := id_of_run hsv hmv hrun (by omega) hid
    obtain ⟨hwithin, -, hkeep⟩ := h.apply hv hidv
    refine ih hwithin hrun (hops v hv) (by omega) ?_
    refine hkeep _ Traces.respects (fun w _ _ hw => Traces.revisions hw _ _) (fun hstepwise => ?_) hback
    exact Traces.back_of_steps h.sound (steps_apply harmless_guard hstepwise hacts hv)

omit [Crypto] [Roots] in
/-- Only to a valid id can the state go back. -/
theorem id_of_revert {id : Nat} (h : t.revertToSnapshot id = some u) : id ∈ t.validRevisions.map (·.id) := by
  unfold revertToSnapshot at h
  dsimp only at h
  split at h
  · cases h
  next r hr =>
    split at h
    · cases h
    next hid =>
      refine mem_map.2 ⟨r, mem_of_getElem? hr, ?_⟩
      exact not_not.1 hid

/-- **Reverted calls leave no trace in the state root** if they are harmless where they are made:
whatever calls follow, they end as they would have without the reverted ones, and
`IntermediateRoot` gives the same root. -/
theorem intermediateRoot_of_reverted {ops after : List Op} {r1 r2 : Option StateDB} (hs : Reachable s)
    (hrun : s.snapshot.2.run ops = some t) (hops : s.snapshot.2.HarmlessRun ops)
    (hu : t.revertToSnapshot s.snapshot.1 = some u) (hafter : ∀ op ∈ after, op.Between)
    (h1 : u.Ends after r1) (h2 : s.Ends after r2) :
    Option.Rel (fun v w => ∀ deleteEmptyObjects order1 order2, v.Enumerates order1 → w.Enumerates order2 →
      (v.intermediateRoot deleteEmptyObjects order1).map (·.1) = (w.intermediateRoot deleteEmptyObjects order2).map (·.1))
      r1 r2 := by
  obtain ⟨hsound, hmarked⟩ := hs.sound
  have hstart : Back pop Traces (s.snapshot.2.journal.length - s.journal.length) s.snapshot.2 s := by
    have hzero : s.snapshot.2.journal.length - s.journal.length = 0 := Nat.sub_self _
    rw [hzero]
    exact .zero (Traces.revisions hsound _ _)
  obtain ⟨hwithin, v, hv, htraces⟩ :=
    (Within.snapshot hsound hmarked).traces hrun hops (Nat.lt_succ_self _) (id_of_revert hu) hstart
  obtain ⟨post, hpost⟩ := hwithin.revisions
  have hrevert := hwithin.marked.revert hpost
  rw [hv, Option.map_some] at hrevert
  have heq : u = { v with validRevisions := s.validRevisions } := Option.some.inj (hu.symm.trans hrevert)
  have hlock : Lockstep u s := by
    rw [heq]
    exact ⟨(Traces.revisions htraces.left s.validRevisions v.nextRevisionId).trans htraces,
      hwithin.marked.of_revert hpost hv, hmarked, rfl⟩
  cases hlock.ends hafter h1 h2 with
  | none => exact .none
  | some h => exact .some fun b _ _ ho1 ho2 => h.traces.intermediateRoot ho1 ho2

end

end

/-! ## One account -/

namespace EmptyAccount

scoped instance : Crypto where
  keccak256 b := .ofBytes 32 b
  keccak512 b := .ofBytes 64 b
  ecrecover _ _ := none

def addr : Address := .zero 20

/-- The root tells whether the account has a balance of five. -/
scoped instance : Roots where
  storage _ := zeroHash
  accounts tr := if (tr addr).map (·.balance) = some 5 then .ofBytes 32 [5] else zeroHash

/-- A state with one account in the trie, with this balance. -/
def start (balance : Int) : StateDB :=
  .ofTrie ⟨fun _ => none, fun _ => none, fun _ => none⟩ fun a =>
    if a = addr then some ⟨0, balance, zeroHash, emptyCodeHash⟩ else none

theorem start_reachable (n : Nat) : Reachable (start n) := by
  refine .new _ _ ?_
  intro a data h
  split at h
  · cases h
    exact Int.natCast_nonneg n
  · cases h

/-- The state after a call and the way back to the snapshot before it. -/
def reverted (balance amount : Int) : StateDB :=
  (((start balance).snapshot.2.addBalance addr amount).revertToSnapshot (start balance).snapshot.1).getD (start balance)

/-- The account is dirty, and no other one. -/
theorem enumerates_changed {s : StateDB} (h : s.stateObjectsDirty = Function.update (fun _ => false) addr true) :
    s.Enumerates [addr] := by
  refine ⟨nodup_singleton _, ?_⟩
  intro a
  rw [h]
  by_cases ha : a = addr <;> simp [ha]

/-- A harmless call: the account is not empty, and as it is in the trie. -/
theorem intermediateRoot_of_reverted_transfer :
    (((reverted 3 1).addBalance addr 2).intermediateRoot true [addr]).map (·.1) =
      (((start 3).addBalance addr 2).intermediateRoot true [addr]).map (·.1) := by
  have hrun : (start 3).snapshot.2.run [.addBalance addr 1] = some ((start 3).snapshot.2.addBalance addr 1) := rfl
  have hharmless : (start 3).snapshot.2.HarmlessRun [.addBalance addr 1] := by
    refine ⟨?_, fun _ _ => trivial⟩
    intro act hact
    cases mem_singleton.1 hact
    intro o ho _
    cases ho
    exact ⟨rfl, .inr ⟨rfl, rfl, rfl⟩⟩
  have hu : ((start 3).snapshot.2.addBalance addr 1).revertToSnapshot (start 3).snapshot.1 = some (reverted 3 1) := rfl
  have h1 : (reverted 3 1).Ends [.addBalance addr 2] (some ((reverted 3 1).addBalance addr 2)) := .inr ⟨_, rfl, rfl⟩
  have h2 : (start 3).Ends [.addBalance addr 2] (some ((start 3).addBalance addr 2)) := .inr ⟨_, rfl, rfl⟩
  cases intermediateRoot_of_reverted (start_reachable 3) hrun hharmless hu (by simp [Op.Between]) h1 h2 with
  | some h => exact h true [addr] [addr] (enumerates_changed rfl) (enumerates_changed rfl)

/-- Touching the empty account and going back leaves it without its callback: the balance that it
gets later is not in the root. -/
theorem reverted_touch_hides_change :
    (start 0).snapshot.2.run [.addBalance addr 0] = some ((start 0).snapshot.2.addBalance addr 0) ∧
      ((start 0).snapshot.2.addBalance addr 0).revertToSnapshot (start 0).snapshot.1 = some (reverted 0 0) ∧
      ((reverted 0 0).addBalance addr 5).Enumerates [] ∧ ((start 0).addBalance addr 5).Enumerates [addr] ∧
      (((reverted 0 0).addBalance addr 5).intermediateRoot true []).map (·.1) = some zeroHash ∧
      (((start 0).addBalance addr 5).intermediateRoot true [addr]).map (·.1) = some (.ofBytes 32 [5]) ∧
      addr ≠ ripemd := by
  refine ⟨rfl, rfl, ⟨nodup_nil, ?_⟩, enumerates_changed rfl, rfl, rfl, by decide⟩
  intro a
  have hdirty : ((reverted 0 0).addBalance addr 5).stateObjectsDirty =
      Function.update (Function.update (fun _ => false) addr true) addr false := rfl
  rw [hdirty]
  by_cases ha : a = addr <;> simp [ha]

end EmptyAccount

end Bgmchain.State
