import Bgmchain.Core.State.Revert
import Bgmchain.Core.State.Slots

/-! # What reverted calls leave behind

Undoing puts fields back. It does not put the callback of an object back, and takes an account out
of the dirty ones only if the account was created or touched. So after a revert an account can be
dirty that was not, and an account can be without its callback and not be dirty, so that later
changes to it are never written. Calls that do neither leave no trace in the state root. -/
namespace Bgmchain.State
open Common Core Lib.Rewind Function StateDB StateObject Slot

variable [Crypto] [Roots]

/-! ## Taking journal entries back in both states -/

section
variable {s t : StateDB} {addr : Address} {o1 o2 : StateObject}

omit [Crypto] [Roots] in
theorem StateDB.getStateObject_live (h : s.stateObjects addr = some o1) (hd : o1.deleted = false) :
    s.getStateObject addr = (some o1, s) := by
  simp [getStateObject, h, hd]

theorem Close.withJournal (h : Close s t) {js1 js2 : List JournalEntry} (hjs : List.Forall₂ (EntryLike s.db) js1 js2) :
    Close (s.withJournal js1) (t.withJournal js2) :=
  ⟨h.db, h.trie, h.preimages, hjs, h.slots⟩

namespace Pair

theorem getStateObject (h : Pair s t addr o1 o2) :
    s.getStateObject addr = (some o1, s) ∧ t.getStateObject addr = (some o2, t) :=
  ⟨getStateObject_live h.left h.deleted,
    getStateObject_live h.right (h.likes.deleted.symm.trans h.deleted)⟩

theorem restore (h : Pair s t addr o1 o2) (f : StateObject → StateObject) (ha : ∀ o, (f o).onDirty = o.onDirty)
    (hd : ∀ o, (f o).deleted = o.deleted) (hl : Likes s.db addr (f o1) (f o2)) :
    Option.Rel Close (s.restore addr f) (t.restore addr f) := by
  obtain ⟨h1, h2⟩ := h.getStateObject
  unfold StateDB.restore
  rw [h1, h2]
  exact .some (h.change (ha o1) (ha o2) ((hd o1).trans h.deleted) hl)

/-- A touched account is put back, when its callback is gone in both states. -/
theorem undo_touch (h : Pair s t addr o1 o2) (ha1 : o1.onDirty = false) (ha2 : o2.onDirty = false)
    {p1 p2 d : Bool} (hp : addr ≠ ripemd → p1 = p2) :
    Option.Rel Close (s.undo (.touch addr p1 d)) (t.undo (.touch addr p2 d)) := by
  have hmark : s.stateObjectsDirty addr = t.stateObjectsDirty addr := by
    simpa [ha1, ha2] using h.flags.changed
  have hslot : ∀ d, Slot s.db addr (s.trie addr) (some { o1 with touched := p1 }) d
      (some { o2 with touched := p1 }) d := by
    intro d
    refine .present (presents_live h.deleted) (presents_live (h.likes.deleted.symm.trans h.deleted))
      (h.likes.withTouched p1) (.same rfl ?_)
    exact ha1.trans ha2.symm
  obtain ⟨hget1, hget2⟩ := h.getStateObject
  unfold StateDB.undo
  dsimp only
  rw [hget1, hget2]
  by_cases ha : addr = ripemd
  · simp only [ha, ne_eq, not_true_eq_false, and_false, if_false]
    exact .some h.close
  · obtain rfl := hp ha
    split
    · refine .some ?_
      cases d with
      | true =>
        rw [if_pos rfl, if_pos rfl, setStateObject_eq_put, setStateObject_eq_put, hmark]
        exact h.close.put (hslot _)
      | false => exact h.close.put (hslot false)
    · exact .some h.close

end Pair

/-- An account that was made anew gets its old object back. -/
theorem Close.unreset (h : Close s t) (hd1 : s.stateObjectsDirty addr = true) (hd2 : t.stateObjectsDirty addr = true)
    (hdel : o1.deleted = false) (hl : Likes s.db addr o1 o2)
    (ha : o1.onDirty = o2.onDirty ∨ (o2.view s.db).empty = false) :
    Close (s.setStateObject addr o1) (t.setStateObject addr o2) := by
  rw [setStateObject_eq_put, setStateObject_eq_put, hd1, hd2]
  refine h.put (.present (presents_live hdel) (presents_live (hl.deleted.symm.trans hdel)) hl ?_)
  rcases ha with ha | ha
  · exact .same rfl ha
  · exact .marked ha rfl (.inl rfl)

omit [Crypto] [Roots] in
/-- The log of a journal entry is there. -/
theorem StateDB.Sound.logs_ne_nil (hs : s.Sound) {js : List JournalEntry} {txhash : Hash}
    (h : s.journal = js ++ [.addLog txhash]) : s.logs txhash ≠ [] := by
  have hlen := hs.logged txhash
  rw [h, logEntries_append_addLog, if_pos rfl] at hlen
  intro hnil
  rw [hnil, List.length_nil] at hlen
  omega

/-- **The last entry is undone in both states.** -/
theorem Close.undo (h : Close s t) (hs : s.Sound) (ht : t.Sound) {js1 js2 : List JournalEntry}
    {e1 e2 : JournalEntry} (h1 : s.journal = js1 ++ [e1]) (h2 : t.journal = js2 ++ [e2]) (he : EntryLike s.db e1 e2) :
    Option.Rel Close (s.undo e1) (t.undo e2) := by
  -- the account of the entries is there in both states, without its callback
  have hpair : ∀ addr, e1.account = some addr → e2.account = some addr →
      ∃ o1 o2, Pair s t addr o1 o2 ∧ o1.onDirty = false ∧ o2.onDirty = false := by
    intro addr ha1 ha2
    obtain ⟨o1, ho1, hd1, hc1⟩ := hs.named addr ⟨e1, by simp [h1], ha1⟩
    obtain ⟨o2, ho2, hd2, hc2⟩ := ht.named addr ⟨e2, by simp [h2], ha2⟩
    exact ⟨o1, o2, h.pair ho1 hd1 ho2 hd2, hc1, hc2⟩
  have hreset : ∀ addr p1 p2, e1 = .resetObject addr p1 → e2 = .resetObject addr p2 → Likes s.db addr p1 p2 →
      (p1.onDirty = p2.onDirty ∨ (p2.view s.db).empty = false) →
      Close (s.setStateObject addr p1) (t.setStateObject addr p2) := by
    intro addr p1 p2 hp1 hp2 hl ha
    subst hp1
    subst hp2
    exact h.unreset (hs.born addr (.inr ⟨p1, by simp [h1]⟩)) (ht.born addr (.inr ⟨p2, by simp [h2]⟩))
      (hs.entries js1 _ [] h1).1 hl ha
  cases he with
  | same =>
    cases e1 with
    | createObject addr =>
      have hslot : Slot s.db addr (s.trie addr) none false none false := .refl _ _
      exact .some (h.put hslot)
    | resetObject addr prev => exact .some (hreset addr prev prev rfl rfl (.refl prev) (.inl rfl))
    | suicide addr prev prevbalance =>
      obtain ⟨o1, o2, hpair, -, -⟩ := hpair addr rfl rfl
      obtain ⟨hget1, hget2⟩ := hpair.getStateObject
      unfold StateDB.undo
      dsimp only
      rw [hget1, hget2]
      exact .some (hpair.change rfl rfl hpair.deleted (hpair.likes.withSuicided prev prevbalance))
    | balance addr prev =>
      obtain ⟨o1, o2, hpair, -, -⟩ := hpair addr rfl rfl
      exact hpair.restore _ (fun _ => rfl) (fun _ => rfl) (hpair.likes.withBalance prev)
    | nonce addr prev =>
      obtain ⟨o1, o2, hpair, -, -⟩ := hpair addr rfl rfl
      exact hpair.restore _ (fun _ => rfl) (fun _ => rfl) (hpair.likes.withNonce prev)
    | storage addr key prevalue =>
      obtain ⟨o1, o2, hpair, -, -⟩ := hpair addr rfl rfl
      exact hpair.restore _ (fun _ => rfl) (fun _ => rfl) (hpair.likes.withState key prevalue)
    | code addr prevcode prevhash =>
      obtain ⟨o1, o2, hpair, -, -⟩ := hpair addr rfl rfl
      exact hpair.restore _ (fun _ => rfl) (fun _ => rfl) (hpair.likes.withCode prevhash prevcode)
    | refund prev => exact .some ⟨h.db, h.trie, h.preimages, h.journal, h.slots⟩
    | addLog txhash =>
      unfold StateDB.undo
      dsimp only
      rw [if_neg (hs.logs_ne_nil h1), if_neg (ht.logs_ne_nil h2)]
      exact .some ⟨h.db, h.trie, h.preimages, h.journal, h.slots⟩
    | addPreimage hash =>
      exact .some ⟨h.db, h.trie, congrArg (update · hash none) h.preimages, h.journal, h.slots⟩
    | touch addr prev prevDirty =>
      obtain ⟨o1, o2, hpair, hc1, hc2⟩ := hpair addr rfl rfl
      exact hpair.undo_touch hc1 hc2 fun _ => rfl
  | reset hl ha => exact .some (hreset _ _ _ rfl rfl hl ha)
  | touch hp =>
    obtain ⟨o1, o2, hpair, hc1, hc2⟩ := hpair _ rfl rfl
    exact hpair.undo_touch hc1 hc2 hp
  | refund r1 r2 => exact .some ⟨h.db, h.trie, h.preimages, h.journal, h.slots⟩
  | log =>
    unfold StateDB.undo
    dsimp only
    rw [if_neg (hs.logs_ne_nil h1), if_neg (ht.logs_ne_nil h2)]
    exact .some ⟨h.db, h.trie, h.preimages, h.journal, h.slots⟩

end

/-- Two states that will have the same root, whatever is done to both. -/
structure Traces (s t : StateDB) : Prop where
  close : Close s t
  left : s.Sound
  right : t.Sound

namespace Traces

variable {s t u : StateDB}

theorem refl (hs : s.Sound) : Traces s s := ⟨.refl s, hs, hs⟩

theorem trans (h : Traces s t) (h' : Traces t u) : Traces s u := ⟨h.close.trans h'.close, h.left, h'.right⟩

theorem pop (h : Traces s t) : Option.Rel Traces s.pop t.pop := by
  rcases List.eq_nil_or_concat' t.journal with hnil | ⟨js2, e2, h2⟩
  · have hnil' : s.journal = [] := by
      have hj := h.close.journal
      rw [hnil] at hj
      exact List.forall₂_nil_right_iff.1 hj
    unfold StateDB.pop
    rw [hnil, hnil']
    exact .none
  · have hj := h.close.journal
    rw [h2] at hj
    have hjs := List.forall₂_take_append _ _ _ hj
    have hlast := List.forall₂_drop_append _ _ _ hj
    obtain ⟨e1, he, hdrop⟩ : ∃ e1, EntryLike s.db e1 e2 ∧ s.journal.drop js2.length = [e1] := by
      generalize s.journal.drop js2.length = l at hlast
      cases hlast with
      | cons he hrest =>
        cases hrest
        exact ⟨_, he, rfl⟩
    have h1 : s.journal = s.journal.take js2.length ++ [e1] := by rw [← hdrop, List.take_append_drop]
    have hpop1 := pop_eq h1
    have hpop2 := pop_eq h2
    rw [hpop1, hpop2, Option.map_eq_bind, Option.map_eq_bind]
    refine rel_bind (h.close.undo h.left h.right h1 h2 he) fun s' t' hu1 hu2 hclose => .some ⟨?_, ?_, ?_⟩
    · rw [← (Frame.undo hu1).db] at hjs
      exact hclose.withJournal hjs
    · exact h.left.pop (by rw [hpop1, hu1]; rfl)
    · exact h.right.pop (by rw [hpop2, hu2]; rfl)

theorem respects : Respects StateDB.pop Traces := by
  refine ⟨fun _ _ _ => trans, ?_⟩
  intro s t t' h ht
  have hpop := h.pop
  rw [ht] at hpop
  generalize s.pop = x at hpop
  cases hpop with
  | some h => exact ⟨_, rfl, h⟩

end Traces

/-! ## Steps that leave no trace -/

/-- An act that can be undone without a trace. An account is not made over a deleted object that
hides an account of the trie, or that would be written again. An account is not marked for the first
time if it is empty or differs from what the trie has. -/
def Act.Harmless (s : StateDB) : Act → Prop
  | .quiet => True
  | .create addr => ∀ o, s.stateObjects addr = some o → o.deleted = true →
    s.trie addr = none ∧ (o.suicided = true ∨ s.stateObjectsDirty addr = false)
  | .reset addr => ∀ o, (s.getStateObject addr).1 = some o → s.stateObjectsDirty addr = true ∨
    ((o.view s.db).empty = false ∧ Unchanged s.db (s.trie addr) o)
  | .edit addr => ∀ o, (s.getStateObject addr).1 = some o → o.onDirty = true →
    (o.view s.db).empty = false ∧ (s.stateObjectsDirty addr = true ∨ Unchanged s.db (s.trie addr) o)

section
variable {s t : StateDB} {addr : Address} {o o' : StateObject} {entry : JournalEntry}

/-- What an account shows was there before, with caches filled. -/
def Shown (s t : StateDB) (addr : Address) : Prop :=
  (∀ o', (t.getStateObject addr).1 = some o' → ∃ o, (s.getStateObject addr).1 = some o ∧ o.Filled s.db o') ∧
    ∀ o', t.stateObjects addr = some o' → o'.deleted = true → s.stateObjects addr = some o'

/-- Reading shows the same object, with caches filled. -/
theorem Step.quiet_object (h : Step s .quiet t) : t.db = s.db ∧ t.trie = s.trie ∧
    t.stateObjectsDirty = s.stateObjectsDirty ∧ ∀ addr, Shown s t addr := by
  have hsame : ∀ u : StateDB, u.trie = s.trie → u.stateObjects = s.stateObjects → ∀ addr, Shown s u addr := by
    intro u ht ho addr
    unfold Shown
    rw [u.getStateObject_fst, s.getStateObject_fst, ht, ho]
    exact ⟨fun o' ho' => ⟨o', ho', .refl _ _⟩, fun _ h _ => h⟩
  have hset : ∀ a o o', presents (s.trie a) (s.stateObjects a) = some o → o.Filled s.db o' → o'.deleted = false →
      ∀ addr, Shown s (s.setStateObject a o') addr := by
    intro a o o' ho hf hd addr
    unfold Shown
    rw [getStateObject_fst, s.getStateObject_fst, setStateObject_stateObjects]
    by_cases ha : addr = a
    · subst ha
      rw [update_self, setStateObject_trie, presents_live hd]
      constructor
      · intro o'' ho''
        cases ho''
        exact ⟨o, ho, hf⟩
      · intro o'' ho'' hd''
        cases ho''
        rw [hd] at hd''
        cases hd''
    · rw [update_of_ne ha]
      exact ⟨fun o'' ho'' => ⟨o'', ho'', .refl _ _⟩, fun _ h _ => h⟩
  cases h with
  | @load a data ho ht =>
    refine ⟨rfl, rfl, rfl, hset a (newObject data) _ ?_ (.refl _ _) rfl⟩
    rw [ho, ht]
    rfl
  | @fill a o o' ho hd hf =>
    refine ⟨rfl, rfl, rfl, hset a o o' ?_ hf (hf.deleted.trans hd)⟩
    rw [ho]
    exact presents_live hd
  | refund | log | prepare => exact ⟨rfl, rfl, rfl, hsame _ rfl rfl⟩
  | preimage preimage hp =>
    rw [addPreimage_of_none hp]
    exact ⟨rfl, rfl, rfl, hsame _ rfl rfl⟩

omit [Roots] in
theorem Unchanged.filled [Roots] {data : Option Account} (h : Unchanged s.db data o) (hf : o.Filled s.db o') :
    Unchanged s.db data o' :=
  ⟨hf.onDirty.trans h.onDirty, hf.suicided.trans h.suicided, hf.view ▸ h.data⟩

/-- Reading does not change which acts are harmless. -/
theorem harmless_guard : Guard fun s act => Act.Harmless s act := by
  refine ⟨fun _ => trivial, ?_, ?_⟩
  · intro s t act hstep hg
    obtain ⟨hdb, htrie, hdirty, hobject⟩ := hstep.quiet_object
    cases act with
    | quiet => trivial
    | create addr =>
      intro o ho hd
      rw [htrie, hdirty]
      exact hg o ((hobject addr).2 o ho hd) hd
    | reset addr =>
      intro o' ho'
      obtain ⟨o, ho, hf⟩ := (hobject addr).1 o' ho'
      rw [hdb, htrie, hdirty]
      rcases hg o ho with h | ⟨he, hu⟩
      · exact .inl h
      · exact .inr ⟨hf.view ▸ he, hu.filled hf⟩
    | edit addr =>
      intro o' ho' ha
      obtain ⟨o, ho, hf⟩ := (hobject addr).1 o' ho'
      rw [hdb, htrie, hdirty]
      obtain ⟨he, hr⟩ := hg o ho (hf.onDirty.symm.trans ha)
      refine ⟨hf.view ▸ he, ?_⟩
      rcases hr with h | hu
      · exact .inl h
      · exact .inr (hu.filled hf)
  · intro s addr o ho ha o' ho' ha'
    rw [s.getStateObject_fst, ho] at ho'
    cases hd : o.deleted with
    | true =>
      rw [presents_gone hd] at ho'
      cases ho'
    | false =>
      rw [presents_live hd] at ho'
      cases ho'
      rw [ha] at ha'
      cases ha'

/-- Nothing to take back. -/
theorem Traces.back_of_quiet (hs : s.Sound) (ht : t.Sound) (hj : t.journal = s.journal) (h : Close t s) :
    Back StateDB.pop Traces (t.journal.length - s.journal.length) t s := by
  rw [hj, Nat.sub_self]
  exact .zero ⟨h, ht, hs⟩

/-- One entry to take back. -/
theorem Traces.back_of_entry (hs : s.Sound) (ht : t.Sound) {u : StateDB} (hj : t.journal = s.journal ++ [entry])
    (hu : t.undo entry = some u) (h : Close (u.withJournal s.journal) s) :
    Back StateDB.pop Traces (t.journal.length - s.journal.length) t s := by
  exact ⟨u.withJournal s.journal, popN_of_entry hj hu, h, ht.pop (by rw [pop_eq hj, hu]; rfl), hs⟩

theorem Close.put_self {x : Option StateObject} {d : Bool}
    (h : Slot s.db addr (s.trie addr) x d (s.stateObjects addr) (s.stateObjectsDirty addr)) :
    Close (s.put addr x d) s := by
  have hput := (Close.refl s).put h
  rwa [StateDB.put_self] at hput

section
variable (s : StateDB) (addr : Address) (entry : JournalEntry)

section
omit [Crypto] [Roots]

/-- A change and its undoing, without the journal entry. -/
theorem put_of_undone (o' p : StateObject) :
    (((s.append entry).change addr o').setStateObject addr p).withJournal s.journal =
      s.put addr (some p) (s.stateObjectsDirty addr || o'.onDirty) := by
  rw [change_eq]
  unfold StateDB.put withJournal setStateObject
  rw [update_idem]
  rfl

/-- An account that is made, and dropped again. -/
theorem put_of_uncreated (o : StateObject) :
    (clean { ((s.markStateObjectDirty addr).append entry).setStateObject addr o with
        stateObjects := update (((s.markStateObjectDirty addr).append entry).setStateObject addr o).stateObjects addr none }
      addr).withJournal s.journal = s.put addr none false := by
  unfold StateDB.put withJournal clean setStateObject append markStateObjectDirty
  rw [update_idem, update_idem]

/-- An account that is made anew, and gets its old object back. -/
theorem put_of_unreset (o prev : StateObject) :
    ((((s.markStateObjectDirty addr).append entry).setStateObject addr o).setStateObject addr prev).withJournal s.journal =
      s.put addr (some prev) true := by
  unfold StateDB.put withJournal setStateObject append markStateObjectDirty
  rw [update_idem]

theorem change_unarmed (h : o.onDirty = false) : s.change addr o = s.setStateObject addr o := by
  unfold change
  rw [h]
  rfl

end

end

/-- Undoing the change of an account. -/
theorem undo_edit (he : Edit s.db addr entry o o') (hd : o.deleted = false)
    (htouch : o.data.empty = true → o.onDirty = false) :
    ∃ u p, ((s.append entry).change addr o').undo entry = some u ∧
      u.withJournal s.journal = s.put addr (some p) (s.stateObjectsDirty addr || o.onDirty) ∧
      Likes s.db addr p o ∧ p.onDirty = false := by
  have hget : ((s.append entry).change addr o').getStateObject addr =
      (some { o' with onDirty := false }, (s.append entry).change addr o') :=
    getStateObject_live (by simp) (he.deleted.trans hd)
  have hput := put_of_undone s addr entry o'
  rw [he.onDirty] at hput
  have hrestore : ∀ f : StateObject → StateObject, (f { o' with onDirty := false }).onDirty = false →
      ((s.append entry).change addr o').restore addr f =
        some (((s.append entry).change addr o').setStateObject addr (f { o' with onDirty := false })) := by
    intro f hf
    unfold StateDB.restore
    rw [hget]
    exact congrArg some (change_unarmed _ addr hf)
  have hview : ∀ p, p.view s.db = o.view s.db → p.deleted = o'.deleted → p.touched = o.touched → Likes s.db addr p o :=
    fun p hv hp ht => ⟨hv, hp.trans he.deleted, fun _ => ht⟩
  have hsame : view { o with onDirty := false } s.db = o.view s.db := view_flags ..
  cases he with
  | balance _ amount =>
    exact ⟨_, _, hrestore (·.withBalance o.data.balance) rfl, hput _, hview _ hsame rfl rfl, rfl⟩
  | nonce _ nonce =>
    exact ⟨_, _, hrestore (·.withNonce o.data.nonce) rfl, hput _, hview _ hsame rfl rfl, rfl⟩
  | storage _ key value =>
    refine ⟨_, _, hrestore (·.withState key (o.storage s.db key)) rfl, hput _, hview _ ?_ rfl rfl, rfl⟩
    have hold : view { o.withState key value with onDirty := false } s.db = (o.withState key value).view s.db := view_flags ..
    have hstorage : storage { o.withState key value with onDirty := false } s.db =
        update (o.storage s.db) key value := by
      have h := congrArg AccountView.storage hold
      rw [view_withState] at h
      exact h
    rw [view_withState, hold, view_withState, hstorage]
    rw [update_idem, update_eq_self]
    rfl
  | code _ codeHash code =>
    refine ⟨_, _, hrestore (·.withCode o.data.codeHash (o.loadCode s.db).1) rfl, hput _, hview _ ?_ rfl rfl, rfl⟩
    rw [view_withCode, view_flags, view_withCode, loadCode_fst, codeOf_codeOf]
    rw [← loadCode_fst]
    rfl
  | suicide =>
    refine ⟨_, withBalance { o with onDirty := false } o.data.balance, ?_, hput _, hview _ hsame rfl rfl, rfl⟩
    unfold StateDB.undo
    dsimp only
    rw [hget]
    exact congrArg some (change_unarmed _ addr rfl)
  | touch _ hempty =>
    have ha := htouch hempty
    unfold StateDB.undo
    dsimp only
    rw [hget]
    split
    · refine ⟨_, { o with onDirty := false }, ?_, hput _, hview _ hsame rfl rfl, rfl⟩
      rw [ha]
      rfl
    next hc =>
      refine ⟨_, { o with touched := true, onDirty := false }, rfl, ?_, ?_, rfl⟩
      · rw [change_eq_put]
        rfl
      · refine ⟨view_flags .., rfl, ?_⟩
        intro hne
        cases ht : o.touched with
        | true => rfl
        | false => exact absurd ⟨by rw [ht]; rfl, hne⟩ hc

/-- **A harmless step can be taken back without a trace.** -/
theorem Traces.step_back {act : Act} (hs : s.Sound) (h : Step s act t) (hg : act.Harmless s) :
    Back StateDB.pop Traces (t.journal.length - s.journal.length) t s := by
  have ht := hs.step h
  cases h with
  | @load addr data ho htrie =>
    refine back_of_quiet hs ht rfl (Close.set (o := newObject data) ?_ rfl (.refl _) rfl).1
    rw [ho, htrie]
    rfl
  | @fill addr o o' ho hd hf =>
    refine back_of_quiet hs ht rfl (Close.set (o := o) ?_ (hf.deleted.trans hd) hf.likes hf.onDirty).1
    rw [ho]
    exact presents_live hd
  | @create addr ha =>
    have hslot : Slot s.db addr (s.trie addr) none false (s.stateObjects addr) (s.stateObjectsDirty addr) := by
      rcases absent_cases ha with ⟨ho, htrie⟩ | ⟨o, ho, hd⟩
      · cases hm : s.stateObjectsDirty addr with
        | false =>
          rw [ho]
          exact .absent htrie
        | true =>
          obtain ⟨o, ho'⟩ := hs.live addr hm
          rw [ho] at ho'
          cases ho'
      · obtain ⟨htrie, hr⟩ := hg o ho hd
        rw [ho]
        exact .dropped htrie hd hr
    refine back_of_entry hs ht rfl rfl ?_
    rw [put_of_uncreated]
    exact Close.put_self hslot
  | @reset addr prev ho hd =>
    have hslot : Slot s.db addr (s.trie addr) (some prev) true (s.stateObjects addr) (s.stateObjectsDirty addr) := by
      rw [ho]
      refine .present (presents_live hd) (presents_live hd) (.refl _) ?_
      rcases hg prev (by rw [getStateObject_live ho hd]) with hm | ⟨hne, hu⟩
      · exact .same hm.symm rfl
      · exact .marked hne rfl (.inr hu)
    refine back_of_entry hs ht rfl rfl ?_
    rw [put_of_unreset]
    exact Close.put_self hslot
  | @edit addr entry o o' ho hd he =>
    have hedit := hg o (by rw [getStateObject_live ho hd])
    have hempty : o.data.empty = true → o.onDirty = false := by
      intro hempty
      cases ha : o.onDirty with
      | false => rfl
      | true =>
        have hne : o.data.empty = false := (hedit ha).1
        rw [hempty] at hne
        cases hne
    obtain ⟨u, p, hu, hput, hl, hp⟩ := undo_edit he hd hempty
    refine back_of_entry hs ht (change_journal (s.append entry) addr o') hu ?_
    rw [hput]
    refine Close.put_self ?_
    rw [ho]
    refine .present (presents_live (hl.deleted.trans hd)) (presents_live hd) hl ?_
    cases ha : o.onDirty with
    | false => exact .same (Bool.or_false _) (hp.trans ha.symm)
    | true =>
      obtain ⟨hne, hr⟩ := hedit ha
      exact .marked hne (Bool.or_true _) hr
  | refund gas =>
    refine back_of_entry hs ht rfl rfl ?_
    have hself := Close.refl s
    exact ⟨rfl, rfl, rfl, hself.journal, hself.slots⟩
  | log log =>
    have hself := Close.refl s
    have hne : (s.addLog log).logs s.thash ≠ [] := ht.logs_ne_nil rfl
    exact back_of_entry hs ht rfl (if_neg hne) ⟨rfl, rfl, rfl, hself.journal, hself.slots⟩
  | @preimage hash preimage hp =>
    have hself := Close.refl s
    rw [addPreimage_of_none hp] at ht ⊢
    have hj : (s.append (.addPreimage hash)).journal = s.journal ++ [.addPreimage hash] := rfl
    refine back_of_entry hs ht hj rfl ⟨rfl, rfl, ?_, hself.journal, hself.slots⟩
    show update (update s.preimages hash (some preimage)) hash none = s.preimages
    rw [update_idem, ← hp, update_eq_self]
  | prepare thash bhash ti =>
    have hself := Close.refl s
    exact back_of_quiet hs ht rfl ⟨rfl, rfl, rfl, hself.journal, hself.slots⟩

end

end Bgmchain.State
