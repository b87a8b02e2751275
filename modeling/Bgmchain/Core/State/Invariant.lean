import Bgmchain.Core.State.Steps

/-! # What holds of every state database

The journal fits the accounts: while it has an entry for an account, the account is there and has no
callback left; while it has the entry for the creation of the account, the account is dirty. Steps
keep this, and so does taking a journal entry back. -/
namespace Bgmchain.State
open Common Core Lib.Rewind Function List

variable {js : List JournalEntry} {entry : JournalEntry}

namespace StateDB

/-! ## Changing an account -/

section
variable (s : StateDB) (addr : Address) (o : StateObject)

/-- A change drops the callback, and marks the account if the callback was there. -/
theorem change_eq : s.change addr o =
    { s with
      stateObjects := update s.stateObjects addr (some { o with onDirty := false })
      stateObjectsDirty := update s.stateObjectsDirty addr (s.stateObjectsDirty addr || o.onDirty) } := by
  unfold change
  cases h : o.onDirty with
  | true => simp [setStateObject]
  | false =>
    have ho : { o with onDirty := false } = o := by
      obtain ⟨⟩ := o
      cases h
      rfl
    simp [setStateObject, ho]

@[simp] theorem change_stateObjects : (s.change addr o).stateObjects =
    update s.stateObjects addr (some { o with onDirty := false }) := by
  rw [change_eq]

@[simp] theorem change_journal : (s.change addr o).journal = s.journal := by
  rw [change_eq]

end

/-! ## Taking the last journal entry back -/

@[simps -fullyApplied] def withJournal (s : StateDB) (journal : List JournalEntry) : StateDB := { s with journal := journal }

/-- The last journal entry is taken back and dropped. -/
def pop (s : StateDB) : Option StateDB :=
  s.journal.getLast?.bind fun entry => (s.undo entry).map (·.withJournal s.journal.dropLast)

section
variable (s : StateDB) (journal : List JournalEntry) (addr : Address)

theorem getStateObject_withJournal : (s.withJournal journal).getStateObject addr =
      ((s.getStateObject addr).1, (s.getStateObject addr).2.withJournal journal) := by
  unfold getStateObject
  dsimp only [withJournal]
  cases s.stateObjects addr with
  | some o => rfl
  | none =>
    cases s.trie addr with
    | some data | none => rfl

theorem change_withJournal (o : StateObject) :
    (s.withJournal journal).change addr o = (s.change addr o).withJournal journal := by
  rw [change_eq, change_eq]
  rfl

theorem restore_withJournal (f : StateObject → StateObject) :
    (s.withJournal journal).restore addr f = (s.restore addr f).map (·.withJournal journal) := by
  unfold restore
  rw [getStateObject_withJournal]
  cases s.getStateObject addr with
  | mk o t =>
    cases o with
    | none => rfl
    | some o => simp [change_withJournal]

/-- Undoing an entry does not look at the journal. -/
theorem undo_withJournal (entry : JournalEntry) :
    (s.withJournal journal).undo entry = (s.undo entry).map (·.withJournal journal) := by
  cases entry with
  | createObject addr | resetObject addr prev | refund prev | addPreimage hash => rfl
  | balance addr prev | nonce addr prev | storage addr key prevalue | code addr prevcode prevhash =>
    exact restore_withJournal s journal addr _
  | suicide addr prev prevbalance =>
    unfold undo
    dsimp only
    rw [getStateObject_withJournal]
    cases s.getStateObject addr with
    | mk o t =>
      cases o with
      | none => rfl
      | some o => simp [change_withJournal]
  | addLog txhash =>
    by_cases h : s.logs txhash = []
    · simp [undo, withJournal, h]
    · simp [undo, withJournal, h]
  | touch addr prev prevDirty =>
    unfold undo
    dsimp only
    rw [getStateObject_withJournal]
    split
    · cases s.getStateObject addr with
      | mk o t =>
        cases o with
        | none => rfl
        | some o => cases prevDirty <;> rfl
    · rfl

end

variable {s : StateDB}

theorem pop_eq (h : s.journal = js ++ [entry]) : s.pop = (s.undo entry).map (·.withJournal js) := by
  unfold pop
  rw [h]
  simp

theorem pop_cases {t : StateDB} (h : s.pop = some t) :
    ∃ js entry u, s.journal = js ++ [entry] ∧ s.undo entry = some u ∧ t = u.withJournal js := by
  rcases eq_nil_or_concat' s.journal with hnil | ⟨js, entry, hjs⟩
  · simp [pop, hnil] at h
  · rw [pop_eq hjs] at h
    obtain ⟨u, hu, ht⟩ := Option.map_eq_some_iff.1 h
    exact ⟨js, entry, u, hjs, hu, ht.symm⟩

theorem undoAll_withJournal (s : StateDB) (k js es : List JournalEntry) :
    ((s.withJournal k).undoAll es).map (·.withJournal js) = (s.undoAll es).map (·.withJournal js) := by
  unfold undoAll
  induction es.reverse generalizing s with
  | nil => rfl
  | cons entry es ih =>
    rw [foldlM_cons, foldlM_cons, undo_withJournal]
    cases s.undo entry with
    | none => rfl
    | some t => exact ih t

/-- The loop of `RevertToSnapshot`, with the entries dropped on the way. -/
theorem popN_undoAll (js es : List JournalEntry) (s : StateDB) (h : s.journal = js ++ es) :
    popN pop es.length s = (s.undoAll es).map (·.withJournal js) := by
  induction es using List.reverseRecOn generalizing s with
  | nil =>
    have hs : s.withJournal js = s := by
      obtain ⟨⟩ := s
      simp only [append_nil] at h
      cases h
      rfl
    simp [undoAll, popN, hs]
  | append_singleton es entry ih =>
    have hlast : s.undoAll (es ++ [entry]) = (s.undo entry).bind fun u => u.undoAll es := by
      unfold undoAll
      rw [reverse_append, reverse_singleton, singleton_append, foldlM_cons]
      rfl
    rw [length_append, length_singleton, popN, hlast,
      pop_eq (h.trans (append_assoc _ _ _).symm)]
    cases s.undo entry with
    | none => rfl
    | some u =>
      rw [Option.map_some, Option.bind_some, Option.bind_some, ih _ rfl]
      exact undoAll_withJournal u (js ++ es) js es

/-- Going back to a snapshot whose id is the first one that is not smaller. -/
theorem revertToSnapshot_eq {pre post : List Revision} {r : Revision}
    (h : s.validRevisions = pre ++ r :: post) (hlt : ∀ q ∈ pre, q.id < r.id) :
    s.revertToSnapshot r.id = (popN pop (s.journal.length - r.journalIndex) s).map fun u =>
      { u with validRevisions := pre } := by
  have hidx : s.validRevisions.findIdx (fun q => decide (r.id ≤ q.id)) = pre.length := by
    have hpre : pre.findIdx (fun q => decide (r.id ≤ q.id)) = pre.length := by
      rw [findIdx_eq_length]
      intro q hq
      simpa using hlt q hq
    rw [h, findIdx_append, hpre]
    simp [findIdx_cons]
  have hget : s.validRevisions[pre.length]? = some r := by simp [h]
  have htake : s.validRevisions.take pre.length = pre := by simp [h]
  have hlen : (s.journal.drop r.journalIndex).length = s.journal.length - r.journalIndex := length_drop
  unfold revertToSnapshot
  rw [hidx]
  dsimp only
  rw [hget, ← hlen, popN_undoAll _ _ s (take_append_drop r.journalIndex s.journal).symm, htake]
  simp only [ne_eq, not_true_eq_false, if_false]
  cases s.undoAll (s.journal.drop r.journalIndex) with
  | none | some t => rfl

end StateDB

/-! ## The invariant -/

/-- The journal has an entry for the creation of the account. -/
def Born (es : List JournalEntry) (addr : Address) : Prop :=
  .createObject addr ∈ es ∨ ∃ prev, .resetObject addr prev ∈ es

/-- The account that an entry is for. -/
def JournalEntry.account : JournalEntry → Option Address
  | .createObject addr | .resetObject addr _ | .suicide addr _ _ | .balance addr _ | .nonce addr _
  | .storage addr _ _ | .code addr _ _ | .touch addr _ _ => some addr
  | .refund _ | .addLog _ | .addPreimage _ => none

/-- The journal has an entry for the account. -/
def Named (es : List JournalEntry) (addr : Address) : Prop := ∃ entry ∈ es, entry.account = some addr

/-- An entry fits the entries before it. -/
def EntrySound (es : List JournalEntry) : JournalEntry → Prop
  | .createObject addr => ¬ Named es addr
  | .resetObject addr prev => prev.deleted = false ∧ prev.Consistent ∧ (Named es addr → prev.onDirty = false)
  | .touch addr _ prevDirty => prevDirty = false → ¬ Named es addr
  | _ => True

/-- The number of entries for a log of the transaction. -/
def logEntries (es : List JournalEntry) (txhash : Hash) : Nat :=
  es.countP fun
    | .addLog h => decide (h = txhash)
    | _ => false

structure StateDB.Sound (s : StateDB) : Prop where
  consistent : ∀ addr o, s.stateObjects addr = some o → o.Consistent
  live : ∀ addr, s.stateObjectsDirty addr = true → ∃ o, s.stateObjects addr = some o
  named : ∀ addr, Named s.journal addr → ∃ o, s.stateObjects addr = some o ∧ o.deleted = false ∧ o.onDirty = false
  born : ∀ addr, Born s.journal addr → s.stateObjectsDirty addr = true
  entries : ∀ es entry fs, s.journal = es ++ entry :: fs → EntrySound es entry
  logged : ∀ txhash, logEntries s.journal txhash ≤ (s.logs txhash).length
  funded : ∀ addr data, s.trie addr = some data → 0 ≤ data.balance

section
variable {es : List JournalEntry} {addr : Address}

theorem Born.append (h : Born es addr) (fs : List JournalEntry) : Born (es ++ fs) addr := by
  rcases h with h | ⟨prev, h⟩
  · exact .inl (mem_append_left fs h)
  · exact .inr ⟨prev, mem_append_left fs h⟩

variable {entry : JournalEntry}

theorem born_append_singleton (h : Born (es ++ [entry]) addr) :
    Born es addr ∨ entry = .createObject addr ∨ ∃ prev, entry = .resetObject addr prev := by
  rcases h with h | ⟨prev, h⟩
  · rcases mem_append.1 h with h | h
    · exact .inl (.inl h)
    · exact .inr (.inl (mem_singleton.1 h).symm)
  · rcases mem_append.1 h with h | h
    · exact .inl (.inr ⟨prev, h⟩)
    · exact .inr (.inr ⟨prev, (mem_singleton.1 h).symm⟩)

theorem Born.named (h : Born es addr) : Named es addr := by
  rcases h with h | ⟨prev, h⟩
  · exact ⟨_, h, rfl⟩
  · exact ⟨_, h, rfl⟩

theorem Named.append (h : Named es addr) (fs : List JournalEntry) : Named (es ++ fs) addr := by
  obtain ⟨entry, he, ha⟩ := h
  exact ⟨entry, mem_append_left fs he, ha⟩

theorem named_append_singleton (h : Named (es ++ [entry]) addr) :
    Named es addr ∨ entry.account = some addr := by
  obtain ⟨e, he, ha⟩ := h
  rcases mem_append.1 he with he | he
  · exact .inl ⟨e, he, ha⟩
  · exact .inr (mem_singleton.1 he ▸ ha)

theorem logEntries_append_of_ne (h : ∀ txhash, entry ≠ .addLog txhash) (txhash : Hash) :
    logEntries (es ++ [entry]) txhash = logEntries es txhash := by
  unfold logEntries
  rw [countP_append]
  cases entry with
  | addLog txhash => exact absurd rfl (h txhash)
  | _ => rfl

theorem logEntries_append_addLog (h txhash : Hash) :
    logEntries (es ++ [.addLog h]) txhash = logEntries es txhash + if h = txhash then 1 else 0 := by
  unfold logEntries
  rw [countP_append]
  by_cases heq : h = txhash <;> simp [heq]

/-- One more entry, which fits those before it. -/
theorem entries_append (h : ∀ es e fs, js = es ++ e :: fs → EntrySound es e) (he : EntrySound js entry) :
    ∀ es e fs, js ++ [entry] = es ++ e :: fs → EntrySound es e := by
  intro es e fs heq
  rcases eq_nil_or_concat' fs with rfl | ⟨fs', last, rfl⟩
  · obtain ⟨rfl, hcons⟩ := append_inj' heq rfl
    cases hcons
    exact he
  · have heq' : js ++ [entry] = (es ++ e :: fs') ++ [last] := by simpa using heq
    obtain ⟨hjs, -⟩ := append_inj' heq' rfl
    exact h es e fs' hjs

theorem entries_of_append (h : ∀ es e fs, js ++ [entry] = es ++ e :: fs → EntrySound es e) :
    ∀ es e fs, js = es ++ e :: fs → EntrySound es e := by
  intro es e fs heq
  exact h es e (fs ++ [entry]) (by simp [heq])

end

/-! ## Objects stay consistent -/

namespace StateObject

theorem consistent_newObject (data : Account) : (newObject data).Consistent := fun _ => .inl rfl

theorem consistent_fresh [Crypto] : fresh.Consistent := fun _ => .inl rfl

variable {o : StateObject}

theorem Consistent.of_same {o' : StateObject} (h : o.Consistent) (hd : o'.dirtyStorage = o.dirtyStorage)
    (hc : o'.cachedStorage = o.cachedStorage) (ht : o'.trie = o.trie) : o'.Consistent := by
  intro key
  rw [hd, hc, ht]
  exact h key

theorem Consistent.withState (h : o.Consistent) (key value : Hash) : (o.withState key value).Consistent := by
  intro k
  unfold StateObject.withState
  by_cases hk : k = key
  · subst hk
    exact .inl (by simp)
  · simpa [update_of_ne hk] using h k

theorem Consistent.edit [Crypto] [Roots] {db : Database} {addr : Address} {o' : StateObject}
    (h : o.Consistent) (he : Edit db addr entry o o') : o'.Consistent := by
  cases he with
  | storage _ key value => exact h.withState key value
  | balance | nonce | code | suicide | touch => exact h.of_same rfl rfl rfl

end StateObject

namespace Edit

variable [Crypto] [Roots] {db : Database} {addr : Address} {entry : JournalEntry} {o o' : StateObject}

section
variable (h : Edit db addr entry o o')
include h

theorem deleted : o'.deleted = o.deleted := by
  cases h <;> rfl

theorem onDirty : o'.onDirty = o.onDirty := by
  cases h <;> rfl

theorem not_log (txhash : Hash) : entry ≠ .addLog txhash := by
  cases h <;> exact fun h => by cases h

theorem account : entry.account = some addr := by
  cases h <;> rfl

theorem not_creation (a : Address) : ¬ (entry = .createObject a ∨ ∃ prev, entry = .resetObject a prev) := by
  cases h <;> exact fun h => by rcases h with h | ⟨prev, h⟩ <;> cases h

/-- The entry of a change fits the journal: an account with an entry there has no callback. -/
theorem entrySound {s : StateDB} (hs : s.Sound) (ho : s.stateObjects addr = some o) :
    EntrySound s.journal entry := by
  cases h with
  | balance | nonce | storage | code | suicide => trivial
  | touch =>
    intro hd hn
    obtain ⟨o', ho', -, ha⟩ := hs.named addr hn
    rw [ho] at ho'
    cases ho'
    rw [ha] at hd
    cases hd

end

end Edit

/-! ## Steps keep the invariant -/

namespace StateDB.Sound

variable {s t : StateDB} {addr : Address} {o : StateObject}

/-- An object is put in place of another one, or of none, with no new journal entry. -/
theorem setStateObject (hs : s.Sound) (ho : o.Consistent)
    (hnamed : Named s.journal addr → o.deleted = false ∧ o.onDirty = false) : (s.setStateObject addr o).Sound := by
  refine ⟨?_, ?_, ?_, hs.born, hs.entries, hs.logged, hs.funded⟩
  · intro a o' ho'
    by_cases ha : a = addr
    · subst ha
      simp only [setStateObject_stateObjects, update_self, Option.some.injEq] at ho'
      exact ho' ▸ ho
    · simp only [setStateObject_stateObjects, update_of_ne ha] at ho'
      exact hs.consistent a o' ho'
  · intro a hd
    by_cases ha : a = addr
    · subst ha
      exact ⟨o, by simp⟩
    · obtain ⟨o', ho'⟩ := hs.live a hd
      exact ⟨o', by simp [update_of_ne ha, ho']⟩
  · intro a hn
    obtain ⟨o', ho'⟩ := hs.named a hn
    by_cases ha : a = addr
    · subst ha
      exact ⟨o, by simp, hnamed hn⟩
    · exact ⟨o', by simpa [update_of_ne ha] using ho'⟩

/-- An account that is there may become dirty. -/
theorem mark (hs : s.Sound) {dirty : Bool} (ho : s.stateObjects addr = some o)
    (hdirty : s.stateObjectsDirty addr = true → dirty = true) :
    Sound { s with stateObjectsDirty := update s.stateObjectsDirty addr dirty } := by
  refine ⟨hs.consistent, ?_, hs.named, ?_, hs.entries, hs.logged, hs.funded⟩
  · intro a hda
    by_cases ha : a = addr
    · exact ⟨o, ha ▸ ho⟩
    · exact hs.live a (by simpa [update_of_ne ha] using hda)
  · intro a hb
    have hda := hs.born a hb
    by_cases ha : a = addr
    · subst ha
      simpa using hdirty hda
    · simpa [update_of_ne ha] using hda

/-- A change to a live account, without its journal entry. -/
theorem change (hs : s.Sound) (ho : o.Consistent) (hd : o.deleted = false) : (s.change addr o).Sound := by
  have hset : (s.setStateObject addr { o with onDirty := false }).Sound :=
    hs.setStateObject (ho.of_same rfl rfl rfl) fun _ => ⟨hd, rfl⟩
  rw [change_eq]
  exact hset.mark (update_self ..) fun h => Bool.or_eq_true_iff.2 (.inl h)

/-- One more journal entry, on a state that it fits. -/
theorem append (hs : s.Sound) (entry : JournalEntry) (he : EntrySound s.journal entry)
    (hlog : ∀ txhash, entry ≠ .addLog txhash) (hnamed : ∀ addr, entry.account = some addr →
      ∃ o, s.stateObjects addr = some o ∧ o.deleted = false ∧ o.onDirty = false)
    (hborn : ∀ addr, entry = .createObject addr ∨ (∃ prev, entry = .resetObject addr prev) →
      s.stateObjectsDirty addr = true) : (s.append entry).Sound := by
  refine ⟨hs.consistent, hs.live, ?_, ?_, entries_append hs.entries he, ?_, hs.funded⟩
  · intro addr hn
    rcases named_append_singleton hn with hn | hnew
    · exact hs.named addr hn
    · exact hnamed addr hnew
  · intro addr hb
    rcases born_append_singleton hb with hb | hnew
    · exact hs.born addr hb
    · exact hborn addr hnew
  · intro txhash
    rw [append_journal, logEntries_append_of_ne hlog]
    exact hs.logged txhash

theorem of_same (hs : s.Sound) (hobjects : t.stateObjects = s.stateObjects)
    (hdirty : t.stateObjectsDirty = s.stateObjectsDirty) (hjournal : t.journal = s.journal)
    (hlogs : t.logs = s.logs) (htrie : t.trie = s.trie) : t.Sound :=
  ⟨hobjects ▸ hs.consistent, hobjects ▸ hdirty ▸ hs.live, hobjects ▸ hjournal ▸ hs.named, hdirty ▸ hjournal ▸ hs.born,
    hjournal ▸ hs.entries, hjournal ▸ hlogs ▸ hs.logged, htrie ▸ hs.funded⟩

/-- A new object, with the entry for its creation. -/
theorem create (hs : s.Sound) (ho : o.Consistent)
    (hd : o.deleted = false) (ha : o.onDirty = false) (he : EntrySound s.journal entry)
    (hlog : ∀ txhash, entry ≠ .addLog txhash) (haccount : entry.account = some addr) :
    (((s.markStateObjectDirty addr).append entry).setStateObject addr o).Sound := by
  have hset : (s.setStateObject addr o).Sound := hs.setStateObject ho fun _ => ⟨hd, ha⟩
  have hmark : ((s.setStateObject addr o).markStateObjectDirty addr).Sound := hset.mark (update_self ..) fun _ => rfl
  refine (hmark.append entry he hlog ?_ ?_).of_same rfl rfl rfl rfl rfl
  · intro a hnew
    rw [haccount, Option.some.injEq] at hnew
    subst hnew
    exact ⟨o, by simp, hd, ha⟩
  · intro a hnew
    have haa : entry.account = some a := by
      rcases hnew with rfl | ⟨prev, rfl⟩
      · rfl
      · rfl
    rw [haccount, Option.some.injEq] at haa
    subst haa
    simp

end StateDB.Sound

section
variable [Crypto] [Roots]

/-- **Steps keep the invariant.** -/
theorem StateDB.Sound.step {s t : StateDB} {act : Act} (hs : s.Sound) (h : Step s act t) : t.Sound := by
  cases h with
  | load ho ht =>
    refine hs.setStateObject (StateObject.consistent_newObject _) fun hn => ?_
    obtain ⟨o, ho', -⟩ := hs.named _ hn
    rw [ho] at ho'
    cases ho'
  | fill ho hd hf =>
    refine hs.setStateObject (hf.consistent (hs.consistent _ _ ho)) fun hn => ?_
    obtain ⟨o, ho', -, ha⟩ := hs.named _ hn
    rw [ho] at ho'
    cases ho'
    exact ⟨hf.deleted.trans hd, hf.onDirty.trans ha⟩
  | create ha =>
    refine hs.create StateObject.consistent_fresh rfl rfl ?_ (fun _ h => by cases h) rfl
    intro hn
    obtain ⟨o, ho, hd, -⟩ := hs.named _ hn
    simp [StateDB.Absent, StateDB.getStateObject, ho, hd] at ha
  | reset ho hd =>
    refine hs.create (StateObject.consistent_fresh.of_same rfl rfl rfl) rfl rfl ⟨hd, hs.consistent _ _ ho, ?_⟩
      (fun _ h => by cases h) rfl
    intro hn
    obtain ⟨o, ho', -, ha⟩ := hs.named _ hn
    rw [ho] at ho'
    cases ho'
    exact ha
  | @edit addr entry o o' ho hd he =>
    have hchange : (s.change addr o').Sound := hs.change ((hs.consistent _ _ ho).edit he) (he.deleted.trans hd)
    have hentry : EntrySound (s.change addr o').journal entry := by
      rw [StateDB.change_journal]
      exact he.entrySound hs ho
    have hcomm : (s.append entry).change addr o' = (s.change addr o').append entry := by
      rw [StateDB.change_eq, StateDB.change_eq]
      rfl
    rw [hcomm]
    refine hchange.append entry hentry he.not_log ?_ fun a hnew => (he.not_creation a hnew).elim
    intro a hnew
    rw [he.account, Option.some.injEq] at hnew
    subst hnew
    exact ⟨{ o' with onDirty := false }, by simp, he.deleted.trans hd, rfl⟩
  | refund gas =>
    exact (hs.append (.refund s.refund) trivial (fun _ h => by cases h) (fun _ h => by cases h) (by simp)).of_same rfl rfl rfl rfl rfl
  | log log =>
    refine ⟨hs.consistent, hs.live, ?_, ?_, entries_append hs.entries trivial, ?_, hs.funded⟩
    · intro addr hn
      rcases named_append_singleton hn with hn | hn
      · exact hs.named addr hn
      · cases hn
    · intro addr hb
      rcases born_append_singleton hb with hb | hb | ⟨prev, hb⟩
      · exact hs.born addr hb
      · cases hb
      · cases hb
    · intro txhash
      have hlogged := hs.logged txhash
      show logEntries (s.journal ++ [.addLog s.thash]) txhash ≤
        (update s.logs s.thash (s.logs s.thash ++ [_]) txhash).length
      rw [logEntries_append_addLog]
      by_cases heq : s.thash = txhash
      · subst heq
        simpa using hlogged
      · simpa [heq, update_of_ne (Ne.symm heq)] using hlogged
  | @preimage hash preimage hp =>
    refine StateDB.Sound.of_same (hs.append (.addPreimage hash) trivial (fun _ h => by cases h) (fun _ h => by cases h) (by simp))
      ?_ ?_ ?_ ?_ ?_
    all_goals
      rw [StateDB.addPreimage_of_none hp]
  | prepare thash bhash ti => exact hs.of_same rfl rfl rfl rfl rfl

end

/-! ## Taking an entry back keeps the invariant -/

/-- What undoing an entry does. -/
inductive Undone (s : StateDB) : JournalEntry → StateDB → Prop where
  | create (addr : Address) : Undone s (.createObject addr)
      ({ s with stateObjects := update s.stateObjects addr none }.clean addr)
  | reset (addr : Address) (prev : StateObject) : Undone s (.resetObject addr prev) (s.setStateObject addr prev)
  /-- A field of an account is put back. -/
  | change {entry : JournalEntry} {addr : Address} {o o' : StateObject} {u : StateDB} (hget : s.getStateObject addr = (some o, u))
      (hd : o'.deleted = o.deleted) (hc : o.Consistent → o'.Consistent) : Undone s entry (u.change addr o')
  | touch {addr : Address} {prev prevDirty : Bool} {o : StateObject} {u : StateDB} (hget : s.getStateObject addr = (some o, u)) :
      Undone s (.touch addr prev prevDirty) (if prevDirty then u.setStateObject addr { o with touched := prev }
        else (u.setStateObject addr { o with touched := prev }).clean addr)
  | log (txhash : Hash) : Undone s (.addLog txhash)
      { s with logs := update s.logs txhash (s.logs txhash).dropLast, logSize := s.logSize - 1 }
  | aside {entry : JournalEntry} (refund : Int) (preimages : Hash → Option Bytes) :
      Undone s entry { s with refund := refund, preimages := preimages }

section
variable {s t : StateDB} {entry : JournalEntry}

theorem Undone.restore {addr : Address} {f : StateObject → StateObject} (h : s.restore addr f = some t)
    (hd : ∀ o, (f o).deleted = o.deleted) (hc : ∀ o : StateObject, o.Consistent → (f o).Consistent) : Undone s entry t := by
  unfold StateDB.restore at h
  split at h
  · cases h
  next o u hget =>
    cases h
    exact .change hget (hd o) (hc o)

theorem undo_cases (h : s.undo entry = some t) : Undone s entry t := by
  cases entry with
  | createObject addr =>
    cases h
    exact .create addr
  | resetObject addr prev =>
    cases h
    exact .reset addr prev
  | suicide addr prev prevbalance =>
    unfold StateDB.undo at h
    dsimp only at h
    split at h
    next u hget =>
      cases h
      cases StateDB.getStateObject_none hget
      exact .aside s.refund s.preimages
    next o u hget =>
      cases h
      exact .change hget rfl fun ho => ho.of_same rfl rfl rfl
  | balance | nonce | code => exact .restore h (fun _ => rfl) fun o ho => ho.of_same rfl rfl rfl
  | storage addr key prevalue => exact .restore h (fun _ => rfl) fun o ho => ho.withState key prevalue
  | refund prev =>
    cases h
    exact .aside prev s.preimages
  | addLog txhash =>
    unfold StateDB.undo at h
    dsimp only at h
    split at h
    · cases h
    · cases h
      exact .log txhash
  | addPreimage hash =>
    cases h
    exact .aside s.refund _
  | touch addr prev prevDirty =>
    unfold StateDB.undo at h
    dsimp only at h
    split at h
    · split at h
      · cases h
      next o u hget =>
        cases h
        exact .touch hget
    · cases h
      exact .aside s.refund s.preimages

end

namespace StateDB.Sound

variable {s t : StateDB} {addr : Address}

theorem getStateObject (hs : s.Sound) {o : StateObject} (h : s.getStateObject addr = (some o, t)) :
    t.Sound ∧ o.Consistent ∧ o.deleted = false ∧ t.journal = s.journal := by
  have hgot := s.got addr
  rw [h] at hgot
  cases hgot with
  | live ho hd => exact ⟨hs, hs.consistent _ _ ho, hd, rfl⟩
  | @loaded data ho ht =>
    refine ⟨hs.setStateObject (StateObject.consistent_newObject data) fun hn => ?_,
      StateObject.consistent_newObject data, rfl, rfl⟩
    obtain ⟨o, ho', -⟩ := hs.named _ hn
    rw [ho] at ho'
    cases ho'

/-- An account without an entry for its creation is taken out of the dirty ones. -/
theorem clean (hs : s.Sound) (h : ¬ Born s.journal addr) : (s.clean addr).Sound := by
  refine ⟨hs.consistent, ?_, hs.named, ?_, hs.entries, hs.logged, hs.funded⟩
  · intro a hda
    by_cases ha : a = addr
    · subst ha
      simp at hda
    · exact hs.live a (by simpa [update_of_ne ha] using hda)
  · intro a hb
    have ha : a ≠ addr := fun ha => h (ha ▸ hb)
    simpa [update_of_ne ha] using hs.born a hb

theorem undo (hs : s.Sound) (he : EntrySound s.journal entry)
    (hlog : ∀ txhash, entry = .addLog txhash → logEntries s.journal txhash < (s.logs txhash).length)
    (h : s.undo entry = some t) : t.Sound := by
  cases undo_cases h with
  | create addr =>
    -- nothing is left of the account
    have hclean := hs.clean fun hb => he hb.named
    refine ⟨?_, ?_, ?_, hclean.born, hs.entries, hs.logged, hs.funded⟩
    · intro a o ho
      by_cases ha : a = addr
      · subst ha
        simp at ho
      · exact hs.consistent a o (by simpa [update_of_ne ha] using ho)
    · intro a hda
      by_cases ha : a = addr
      · subst ha
        simp at hda
      · simpa [update_of_ne ha] using hclean.live a hda
    · intro a hn
      have ha : a ≠ addr := fun ha => he (ha ▸ hn)
      simpa [update_of_ne ha] using hs.named a hn
  | reset addr prev => exact hs.setStateObject he.2.1 fun hn => ⟨he.1, he.2.2 hn⟩
  | change hget hd hc =>
    obtain ⟨hu, ho, hdo, -⟩ := hs.getStateObject hget
    exact hu.change (hc ho) (hd.trans hdo)
  | aside => exact hs.of_same rfl rfl rfl rfl rfl
  | log txhash =>
    refine ⟨hs.consistent, hs.live, hs.named, hs.born, hs.entries, ?_, hs.funded⟩
    intro h
    have hlogged := hs.logged h
    have hlast := hlog txhash rfl
    by_cases heq : h = txhash
    · subst heq
      simp only [update_self, length_dropLast]
      omega
    · simpa [update_of_ne heq] using hlogged
  | @touch addr prev d o u hget =>
    obtain ⟨hu, ho, hdo, hj⟩ := hs.getStateObject hget
    have hset : (u.setStateObject addr { o with touched := prev }).Sound := by
      refine hu.setStateObject (ho.of_same rfl rfl rfl) fun hn => ⟨hdo, ?_⟩
      obtain ⟨o', ho', -, ha⟩ := hs.named addr (hj ▸ hn)
      have hgot := s.got addr
      rw [hget] at hgot
      cases hgot with
      | live ho'' =>
        rw [ho''] at ho'
        cases ho'
        exact ha
      | loaded hnone =>
        rw [hnone] at ho'
        cases ho'
    cases d with
    | true => exact hset
    | false => exact hset.clean fun hb => he rfl (hj ▸ hb.named)

/-- **Taking the last journal entry back keeps the invariant.** -/
theorem pop (hs : s.Sound) (h : s.pop = some t) : t.Sound := by
  obtain ⟨js, entry, u, hjs, hu, rfl⟩ := pop_cases h
  have hdrop : (s.withJournal js).Sound := by
    refine ⟨hs.consistent, hs.live, ?_, ?_, ?_, ?_, hs.funded⟩
    · intro addr hn
      exact hs.named addr (by rw [hjs]; exact hn.append [entry])
    · intro addr hb
      exact hs.born addr (by rw [hjs]; exact hb.append [entry])
    · have hentries := hs.entries
      rw [hjs] at hentries
      exact entries_of_append hentries
    · intro txhash
      refine le_trans ?_ (hs.logged txhash)
      rw [hjs]
      unfold logEntries
      rw [withJournal_journal, countP_append]
      exact Nat.le_add_right _ _
  refine hdrop.undo (hs.entries js entry [] hjs) ?_ ?_
  · intro txhash he
    have hlogged := hs.logged txhash
    rw [hjs, he, logEntries_append_addLog, if_pos rfl] at hlogged
    exact hlogged
  · rw [undo_withJournal, hu, Option.map_some]

theorem popN {n : Nat} (hs : s.Sound) (h : popN StateDB.pop n s = some t) : t.Sound :=
  popN_invariant (fun _ _ hs h => StateDB.Sound.pop hs h) hs h

end StateDB.Sound

end Bgmchain.State
