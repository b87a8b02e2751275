import Bgmchain.Core.State.Invariant

/-! # The states that calls lead to

Every call is a row of steps, a snapshot, a way back to a snapshot, or finalises the state. The
invariant holds in whatever state the calls lead to. -/
namespace Bgmchain.State
open Common Core Lib.Rewind Function List

/-! ## What steps leave alone -/

/-- The parts of a state that steps and going back leave as they are. -/
structure Frame (s t : StateDB) : Prop where
  db : t.db = s.db
  trie : t.trie = s.trie
  validRevisions : t.validRevisions = s.validRevisions
  nextRevisionId : t.nextRevisionId = s.nextRevisionId

namespace Frame

theorem refl (s : StateDB) : Frame s s := ⟨rfl, rfl, rfl, rfl⟩

variable {s t : StateDB}

theorem trans {u : StateDB} (h : Frame s t) (h' : Frame t u) : Frame s u :=
  ⟨h'.db.trans h.db, h'.trie.trans h.trie, h'.validRevisions.trans h.validRevisions,
    h'.nextRevisionId.trans h.nextRevisionId⟩

theorem change (s : StateDB) (addr : Address) (o : StateObject) : Frame s (s.change addr o) := by
  rw [StateDB.change_eq]
  exact ⟨rfl, rfl, rfl, rfl⟩

theorem getStateObject (s : StateDB) (addr : Address) : Frame s (s.getStateObject addr).2 := by
  have hgot := s.got addr
  generalize s.getStateObject addr = p at hgot
  cases hgot <;> exact ⟨rfl, rfl, rfl, rfl⟩

theorem undo {entry : JournalEntry} (h : s.undo entry = some t) : Frame s t := by
  cases undo_cases h with
  | create | reset | log | aside => exact ⟨rfl, rfl, rfl, rfl⟩
  | @change _ addr _ o' u hget =>
    have hframe := getStateObject s addr
    rw [hget] at hframe
    exact hframe.trans (change u addr o')
  | @touch addr _ prevDirty _ u hget =>
    have hframe := getStateObject s addr
    rw [hget] at hframe
    refine hframe.trans ?_
    cases prevDirty <;> exact ⟨rfl, rfl, rfl, rfl⟩

theorem pop (h : s.pop = some t) : Frame s t ∧ s.journal.length = t.journal.length + 1 := by
  obtain ⟨js, entry, u, hjs, hu, rfl⟩ := StateDB.pop_cases h
  have hframe := undo hu
  refine ⟨⟨hframe.db, hframe.trie, hframe.validRevisions, hframe.nextRevisionId⟩, ?_⟩
  rw [hjs]
  simp

theorem popN {n : Nat} (h : popN StateDB.pop n s = some t) :
    Frame s t ∧ s.journal.length = t.journal.length + n := by
  induction n generalizing s with
  | zero =>
    cases h
    exact ⟨refl _, rfl⟩
  | succ n ih =>
    obtain ⟨u, hu, h⟩ := Option.bind_eq_some_iff.1 h
    obtain ⟨hsu, hlen⟩ := pop hu
    obtain ⟨hut, hlen'⟩ := ih h
    exact ⟨hsu.trans hut, by omega⟩

end Frame

section
variable [Crypto] [Roots] {s t : StateDB}

/-- A step leaves the frame alone and makes at most one journal entry. -/
theorem Step.frame {act : Act} (h : Step s act t) :
    Frame s t ∧ (t.journal = s.journal ∨ ∃ entry, t.journal = s.journal ++ [entry]) := by
  cases h with
  | load | fill | prepare => exact ⟨⟨rfl, rfl, rfl, rfl⟩, .inl rfl⟩
  | create | reset | refund | log => exact ⟨⟨rfl, rfl, rfl, rfl⟩, .inr ⟨_, rfl⟩⟩
  | @edit addr entry o o' ho hd he =>
    have hchange := Frame.change (s.append entry) addr o'
    refine ⟨⟨hchange.db, hchange.trie, hchange.validRevisions, hchange.nextRevisionId⟩, .inr ⟨entry, ?_⟩⟩
    simp
  | preimage preimage hp =>
    rw [StateDB.addPreimage_of_none hp]
    exact ⟨⟨rfl, rfl, rfl, rfl⟩, .inr ⟨_, rfl⟩⟩

theorem Steps.frame {g : StateDB → Act → Prop} (h : Steps g s t) :
    Frame s t ∧ ∃ es, t.journal = s.journal ++ es := by
  induction h with
  | refl => exact ⟨.refl _, [], by simp⟩
  | tail _ hstep ih =>
    obtain ⟨act, -, hstep⟩ := hstep
    obtain ⟨hframe, es, hes⟩ := ih
    obtain ⟨hframe', hj⟩ := hstep.frame
    refine ⟨hframe.trans hframe', ?_⟩
    rcases hj with hj | ⟨entry, hj⟩
    · exact ⟨es, hj.trans hes⟩
    · exact ⟨es ++ [entry], by rw [hj, hes, append_assoc]⟩

theorem StateDB.Sound.steps {g : StateDB → Act → Prop} (hs : s.Sound) (h : Steps g s t) : t.Sound := by
  induction h with
  | refl => exact hs
  | tail _ hstep ih =>
    obtain ⟨act, -, hstep⟩ := hstep
    exact ih.step hstep

end

/-! ## Snapshot ids -/

/-- Valid ids are in order, with the positions they stand for, and were given out before. -/
structure StateDB.Marked (s : StateDB) : Prop where
  ordered : s.validRevisions.Pairwise fun r q => r.id < q.id ∧ r.journalIndex ≤ q.journalIndex
  known : ∀ r ∈ s.validRevisions, r.id < s.nextRevisionId ∧ r.journalIndex ≤ s.journal.length

namespace StateDB.Marked

variable {s t : StateDB}

theorem of_frame (hs : s.Marked) (h : Frame s t) (hlen : s.journal.length ≤ t.journal.length) : t.Marked := by
  refine ⟨h.validRevisions ▸ hs.ordered, ?_⟩
  intro r hr
  rw [h.validRevisions] at hr
  obtain ⟨hid, hidx⟩ := hs.known r hr
  rw [h.nextRevisionId]
  exact ⟨hid, hidx.trans hlen⟩

theorem snapshot (hs : s.Marked) : s.snapshot.2.Marked := by
  constructor
  · refine pairwise_append.2 ⟨hs.ordered, pairwise_singleton _ _, ?_⟩
    intro r hr q hq
    rw [mem_singleton.1 hq]
    exact hs.known r hr
  · intro r hr
    show r.id < s.nextRevisionId + 1 ∧ r.journalIndex ≤ s.journal.length
    rcases mem_append.1 hr with hr | hr
    · obtain ⟨hid, hidx⟩ := hs.known r hr
      exact ⟨by omega, hidx⟩
    · rw [mem_singleton.1 hr]
      exact ⟨Nat.lt_succ_self _, le_rfl⟩

/-- Going back to one of the valid ids. -/
theorem revert (hs : s.Marked) {pre post : List Revision} {r : Revision} (h : s.validRevisions = pre ++ r :: post) :
    s.revertToSnapshot r.id = (popN StateDB.pop (s.journal.length - r.journalIndex) s).map fun u =>
      { u with validRevisions := pre } := by
  refine revertToSnapshot_eq h ?_
  intro q hq
  have hordered := hs.ordered
  rw [h, pairwise_append] at hordered
  exact (hordered.2.2 q hq r mem_cons_self).1

theorem of_revert (hs : s.Marked) {pre post : List Revision} {r : Revision} {u : StateDB}
    (h : s.validRevisions = pre ++ r :: post) (hu : popN StateDB.pop (s.journal.length - r.journalIndex) s = some u) :
    StateDB.Marked { u with validRevisions := pre } := by
  obtain ⟨hframe, hlen⟩ := Frame.popN hu
  have hordered := hs.ordered
  rw [h, pairwise_append] at hordered
  have hr := (hs.known r (by simp [h])).2
  refine ⟨hordered.1, ?_⟩
  intro q hq
  refine ⟨hframe.nextRevisionId ▸ (hs.known q (by simp [h, hq])).1, ?_⟩
  have hqr := (hordered.2.2 q hq r mem_cons_self).2
  show q.journalIndex ≤ u.journal.length
  omega

end StateDB.Marked

/-! ## Finalising and committing -/

/-- Writing the storage keeps what is cached and what is in the trie together. -/
theorem StateObject.Consistent.updateTrie [Crypto] [Roots] {o : StateObject} (ho : o.Consistent) (db : Database) :
    (o.updateTrie db).2.Consistent := by
  obtain ⟨e, he⟩ := o.getTrie_snd db
  intro key
  unfold StateObject.updateTrie
  dsimp only
  rw [he]
  rcases ho key with h | ⟨h, tr, htr, hc⟩
  · cases hc : o.cachedStorage key with
    | none => exact .inl rfl
    | some value =>
      refine .inr ⟨rfl, _, rfl, ?_⟩
      rw [h, hc, Option.getD_some]
  · refine .inr ⟨rfl, _, rfl, ?_⟩
    rw [h, Option.getD_none, StateObject.getTrie_of_trie htr, hc]

/-- The invariant of the loops of `Finalise` and `CommitTo`, which clear the journal at their end. -/
structure StateDB.Plain (s : StateDB) : Prop where
  consistent : ∀ addr o, s.stateObjects addr = some o → o.Consistent
  live : ∀ addr, s.stateObjectsDirty addr = true → ∃ o, s.stateObjects addr = some o
  funded : ∀ addr data, s.trie addr = some data → 0 ≤ data.balance

theorem StateDB.Sound.plain {s : StateDB} (hs : s.Sound) : s.Plain := ⟨hs.consistent, hs.live, hs.funded⟩

/-- The journal and the snapshots of a state are dropped. -/
structure Cleared (s t : StateDB) : Prop where
  journal : t.journal = []
  validRevisions : t.validRevisions = []
  nextRevisionId : t.nextRevisionId = s.nextRevisionId

namespace StateDB.Plain

variable {s t : StateDB}

theorem sound (hs : s.Plain) (hj : s.journal = []) : s.Sound := by
  refine ⟨hs.consistent, hs.live, ?_, ?_, ?_, ?_, hs.funded⟩
  · intro addr hn
    rw [hj] at hn
    obtain ⟨entry, he, -⟩ := hn
    cases he
  · intro addr hb
    rw [hj] at hb
    rcases hb with hb | ⟨prev, hb⟩
    · cases hb
    · cases hb
  · intro es entry fs h
    rw [hj] at h
    simp at h
  · intro txhash
    rw [hj]
    exact Nat.zero_le _

variable {addr : Address} {o : StateObject}

theorem setStateObject (hs : s.Plain) (ho : o.Consistent) : (s.setStateObject addr o).Plain := by
  refine ⟨?_, ?_, hs.funded⟩
  · intro a o' ho'
    by_cases ha : a = addr
    · subst ha
      simp only [setStateObject_stateObjects, update_self, Option.some.injEq] at ho'
      exact ho' ▸ ho
    · exact hs.consistent a o' (by simpa [update_of_ne ha] using ho')
  · intro a hd
    by_cases ha : a = addr
    · subst ha
      exact ⟨o, by simp⟩
    · simpa [update_of_ne ha] using hs.live a hd

theorem clean (hs : s.Plain) (addr : Address) : (s.clean addr).Plain := by
  refine ⟨hs.consistent, ?_, hs.funded⟩
  intro a hda
  by_cases ha : a = addr
  · subst ha
    simp at hda
  · exact hs.live a (by simpa [update_of_ne ha] using hda)

theorem deleteStateObject (hs : s.Plain) (ho : o.Consistent) : (s.deleteStateObject addr o).Plain := by
  have hset : (s.setStateObject addr { o with deleted := true }).Plain :=
    hs.setStateObject (ho.of_same rfl rfl rfl)
  refine ⟨hset.consistent, hset.live, ?_⟩
  intro a data hdata
  by_cases ha : a = addr
  · subst ha
    simp [StateDB.deleteStateObject] at hdata
  · exact hs.funded a data (by simpa [StateDB.deleteStateObject, update_of_ne ha] using hdata)

theorem updateStateObject (hs : s.Plain)
    (h : s.updateStateObject addr o = some t) (ho : o.Consistent) : t.Plain ∧ t.nextRevisionId = s.nextRevisionId := by
  unfold StateDB.updateStateObject at h
  split at h
  · cases h
  next hb =>
    cases h
    have hset : (s.setStateObject addr o).Plain := hs.setStateObject ho
    refine ⟨⟨hset.consistent, hset.live, ?_⟩, rfl⟩
    intro a data hdata
    by_cases ha : a = addr
    · subst ha
      simp only [update_self, Option.some.injEq] at hdata
      rw [← hdata]
      omega
    · exact hs.funded a data (by simpa [update_of_ne ha] using hdata)

theorem deleteSuicides (hs : s.Plain) {order : List Address} (h : s.deleteSuicides order = some t) :
    t.Plain ∧ Cleared s t := by
  unfold StateDB.deleteSuicides at h
  have hclear : s.clearJournalAndRefund.Plain := ⟨hs.consistent, hs.live, hs.funded⟩
  have hj : Cleared s s.clearJournalAndRefund := ⟨rfl, rfl, rfl⟩
  generalize s.clearJournalAndRefund = u at h hclear hj
  induction order generalizing u with
  | nil =>
    cases h
    exact ⟨hclear, hj⟩
  | cons addr order ih =>
    rw [foldlM_cons] at h
    obtain ⟨v, hv, h⟩ := Option.bind_eq_some_iff.1 h
    obtain ⟨o, ho, rfl⟩ := Option.map_eq_some_iff.1 hv
    refine ih _ h ?_ ?_
    · refine clean ?_ addr
      split
      · exact hclear.setStateObject ((hclear.consistent addr o ho).of_same rfl rfl rfl)
      · exact hclear
    · split <;> exact ⟨hj.journal, hj.validRevisions, hj.nextRevisionId⟩

section
variable [Crypto] [Roots] {b : Bool}

theorem finaliseObject (hs : s.Plain) {addr : Address} (h : s.finaliseObject b addr = some t) :
    t.Plain ∧ t.nextRevisionId = s.nextRevisionId := by
  unfold StateDB.finaliseObject at h
  split at h
  · cases h
  next o ho =>
    have hcon := hs.consistent addr o ho
    split at h
    · cases h
      exact ⟨hs.deleteStateObject hcon, rfl⟩
    · exact hs.updateStateObject h ((hcon.updateTrie s.db).of_same rfl rfl rfl)

variable {order : List Address}

theorem finalise (hs : s.Plain) (h : s.finalise b order = some t) : t.Plain ∧ Cleared s t := by
  obtain ⟨u, hu, rfl⟩ := Option.map_eq_some_iff.1 h
  have hplain : u.Plain ∧ u.nextRevisionId = s.nextRevisionId := by
    clear h
    induction order generalizing s with
    | nil =>
      cases hu
      exact ⟨hs, rfl⟩
    | cons addr order ih =>
      rw [foldlM_cons] at hu
      obtain ⟨v, hv, hu⟩ := Option.bind_eq_some_iff.1 hu
      obtain ⟨hplain, hnext⟩ := hs.finaliseObject hv
      obtain ⟨hu', hnext'⟩ := ih hplain hu
      exact ⟨hu', hnext'.trans hnext⟩
  exact ⟨⟨hplain.1.consistent, hplain.1.live, hplain.1.funded⟩, rfl, rfl, hplain.2⟩

theorem commitObject (hs : s.Plain) {ok : Bool} {addr : Address} {dbw dbw' : Database}
    (h : s.commitObject dbw b addr = some (ok, t, dbw')) : t.Plain ∧ t.nextRevisionId = s.nextRevisionId := by
  unfold StateDB.commitObject at h
  split at h
  · cases h
  next o ho =>
    dsimp only at h
    have hcon := hs.consistent addr o ho
    have hcode : (o.commitCode dbw).1.Consistent := by
      unfold StateObject.commitCode
      split
      · split
        · exact hcon.of_same rfl rfl rfl
        · exact hcon
      · exact hcon
    split at h
    · cases h
      exact ⟨(hs.deleteStateObject hcon).clean addr, rfl⟩
    · split at h
      · split at h
        · cases h
          exact ⟨hs.setStateObject (hcode.updateTrie s.db), rfl⟩
        · obtain ⟨u, hu, heq⟩ := Option.map_eq_some_iff.1 h
          cases heq
          obtain ⟨hplain, hnext⟩ := hs.updateStateObject hu ((hcode.updateTrie s.db).of_same rfl rfl rfl)
          exact ⟨hplain.clean addr, hnext⟩
      · cases h
        exact ⟨hs.clean addr, rfl⟩

theorem commitObjects {ok : Bool} {dbw dbw' : Database} (hs : s.Plain)
    (h : StateDB.commitObjects b order s dbw = some (ok, t, dbw')) :
    t.Plain ∧ t.nextRevisionId = s.nextRevisionId := by
  induction order generalizing s dbw with
  | nil =>
    cases h
    exact ⟨hs, rfl⟩
  | cons addr order ih =>
    unfold StateDB.commitObjects at h
    split at h
    next u dbw'' hu =>
      obtain ⟨hplain, hnext⟩ := hs.commitObject hu
      obtain ⟨ht, hnext'⟩ := ih hplain h
      exact ⟨ht, hnext'.trans hnext⟩
    · exact hs.commitObject h

theorem commitTo (hs : s.Plain) {root : Option Hash}
    (h : s.commitTo b order = some (root, t)) : t.Plain ∧ Cleared s t := by
  obtain ⟨⟨ok, u, dbw⟩, hu, heq⟩ := Option.map_eq_some_iff.1 h
  obtain ⟨hplain, hnext⟩ := hs.commitObjects hu
  cases ok with
  | true | false =>
    cases heq
    exact ⟨⟨hplain.consistent, hplain.live, hplain.funded⟩, rfl, rfl, hnext⟩

end

end StateDB.Plain

/-! ## The states there are -/

theorem StateDB.Sound.copy {s : StateDB} (hs : s.Sound) : s.copy.Sound := by
  refine StateDB.Plain.sound ⟨?_, ?_, hs.funded⟩ rfl
  · intro addr o ho
    unfold StateDB.copy at ho
    dsimp only at ho
    split at ho
    · obtain ⟨o', ho', rfl⟩ := Option.map_eq_some_iff.1 ho
      exact fun key => .inl rfl
    · cases ho
  · intro addr hd
    obtain ⟨o, ho⟩ := hs.live addr hd
    have hd' : s.stateObjectsDirty addr = true := hd
    exact ⟨o.deepCopy, by simp [StateDB.copy, hd', ho]⟩

section
variable [Crypto] [Roots]

/-- What a call can do: steps, a snapshot, going back to a snapshot, or finalising. -/
inductive Effect (s : StateDB) (op : Op) (t : StateDB) : Prop where
  | steps : op.Stepwise → Steps (fun _ _ => True) s t → Effect s op t
  | snapshot : op = .snapshot → t = s.snapshot.2 → Effect s op t
  | revert (pre post : List Revision) (r : Revision) (u : StateDB) : op = .revertToSnapshot pre.length →
    s.validRevisions = pre ++ r :: post → popN StateDB.pop (s.journal.length - r.journalIndex) s = some u →
    t = { u with validRevisions := pre } → Effect s op t
  | clear : Cleared s t → t.Plain → Effect s op t

theorem guard_true : Guard fun _ _ => True := ⟨fun _ => trivial, fun _ _ _ _ _ => trivial, fun _ _ _ _ _ => trivial⟩

omit [Crypto] [Roots] in
theorem split_at_place {revisions : List Revision} {place : Nat} {r : Revision} (h : revisions[place]? = some r) :
    (revisions.take place).length = place ∧ revisions = revisions.take place ++ r :: revisions.drop (place + 1) := by
  obtain ⟨hplace, hget⟩ := List.getElem?_eq_some_iff.1 h
  refine ⟨by rw [length_take]; omega, ?_⟩
  rw [← hget, getElem_cons_drop, take_append_drop]

variable {s : StateDB}

/-- Going back to the snapshot at a place among the valid ones. -/
theorem apply_revert {place : Nat} {r : Revision} (hm : s.Marked)
    (h : s.validRevisions[place]? = some r) :
    (Op.revertToSnapshot place).apply s = (popN StateDB.pop (s.journal.length - r.journalIndex) s).map fun u =>
      { u with validRevisions := s.validRevisions.take place } := by
  have hbind : (Op.revertToSnapshot place).apply s = s.validRevisions[place]?.bind fun r => s.revertToSnapshot r.id := rfl
  rw [hbind, h, Option.bind_some]
  exact hm.revert (split_at_place h).2

theorem Op.effect {t : StateDB} {op : Op} (hs : s.Sound) (hm : s.Marked) (h : op.apply s = some t) :
    Effect s op t := by
  by_cases hop : op.Stepwise
  · exact .steps hop (steps_apply guard_true hop (fun _ _ => trivial) h)
  · cases op with
    | snapshot =>
      cases h
      exact .snapshot rfl rfl
    | revertToSnapshot place =>
      obtain ⟨r, hr, -⟩ := Option.bind_eq_some_iff.1 h
      obtain ⟨hlen, hsplit⟩ := split_at_place hr
      rw [apply_revert hm hr] at h
      obtain ⟨u, hu, rfl⟩ := Option.map_eq_some_iff.1 h
      exact .revert _ _ r u (by rw [hlen]) hsplit hu rfl
    | finalise b order =>
      obtain ⟨hplain, hclear⟩ := hs.plain.finalise h
      exact .clear hclear hplain
    | deleteSuicides order =>
      obtain ⟨hplain, hclear⟩ := hs.plain.deleteSuicides h
      exact .clear hclear hplain
    | commitTo b order =>
      obtain ⟨⟨root, u⟩, hu, rfl⟩ := Option.map_eq_some_iff.1 h
      obtain ⟨hplain, hclear⟩ := hs.plain.commitTo hu
      exact .clear hclear hplain
    | _ => exact absurd trivial hop

theorem Effect.sound {t : StateDB} {op : Op} (h : Effect s op t) (hs : s.Sound) (hm : s.Marked) :
    t.Sound ∧ t.Marked := by
  cases h with
  | steps _ h =>
    obtain ⟨hframe, es, hes⟩ := h.frame
    exact ⟨hs.steps h, hm.of_frame hframe (by simp [hes])⟩
  | snapshot _ h =>
    subst h
    exact ⟨hs.of_same rfl rfl rfl rfl rfl, hm.snapshot⟩
  | revert pre post r u _ hsplit hu h =>
    subst h
    exact ⟨(hs.popN hu).of_same rfl rfl rfl rfl rfl, hm.of_revert hsplit hu⟩
  | clear hc hp =>
    refine ⟨hp.sound hc.journal, ?_, ?_⟩
    · rw [hc.validRevisions]
      exact .nil
    · rw [hc.validRevisions]
      exact nofun

/-- The state databases that the calls and `Copy` lead to. Others may write to the database, and to
the account trie through a copy. -/
inductive Reachable : StateDB → Prop where
  | new (db : Database) (tr : AccountTrie) (htr : ∀ addr data, tr addr = some data → 0 ≤ data.balance) :
    Reachable (.ofTrie db tr)
  | apply {s t : StateDB} (op : Op) : Reachable s → op.apply s = some t → Reachable t
  | copy {s : StateDB} : Reachable s → Reachable s.copy
  | share {s : StateDB} (db : Database) (tr : AccountTrie)
    (htr : ∀ addr data, tr addr = some data → 0 ≤ data.balance) : Reachable s →
    Reachable { s with db := db, trie := tr }

/-- **The invariant holds of every state.** -/
theorem Reachable.sound (h : Reachable s) : s.Sound ∧ s.Marked := by
  induction h with
  | new db tr htr =>
    refine ⟨StateDB.Plain.sound ⟨nofun, nofun, htr⟩ rfl, .nil, nofun⟩
  | apply op _ h ih => exact (op.effect ih.1 ih.2 h).sound ih.1 ih.2
  | copy _ ih => exact ⟨ih.1.copy, .nil, nofun⟩
  | share db tr htr _ ih =>
    exact ⟨⟨ih.1.consistent, ih.1.live, ih.1.named, ih.1.born, ih.1.entries, ih.1.logged, htr⟩, ih.2.ordered, ih.2.known⟩

end

end Bgmchain.State
