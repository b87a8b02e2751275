import Bgmchain.Core.State.Finalise

/-! # Two states that will have the same root

For one account, a relation between what two states hold of it: the live object, whether it is
dirty, and what the account trie has. It asks for the same view. The marks and callbacks need not
be the same if the account is not empty and one state has it marked, and the other one has it
marked as well, or not yet changed since it was read. It is kept by whatever is done to both
states alike, and it makes them write the same to the trie. -/
namespace Bgmchain.State
open Common Core Lib.Rewind Function

variable [Crypto] [Roots] {e1 e2 : JournalEntry}

/-! ## One account -/

/-- The object that `getStateObject` gives. -/
def presents (data : Option Account) : Option StateObject → Option StateObject
  | some o => if o.deleted then none else some o
  | none => data.map newObject

/-- Two objects that cannot be told apart by calls. That the RIPEMD account was touched is never
undone, and does not matter. -/
structure Likes (db : Database) (addr : Address) (o1 o2 : StateObject) : Prop where
  view : o1.view db = o2.view db
  deleted : o1.deleted = o2.deleted
  touched : addr ≠ StateDB.ripemd → o1.touched = o2.touched

/-- The account is as it was read from the trie. -/
structure Unchanged (db : Database) (data : Option Account) (o : StateObject) : Prop where
  onDirty : o.onDirty = true
  suicided : o.suicided = false
  data : data = some (o.view db).data

/-- The marks and callbacks of two objects that look alike. -/
inductive Flags (db : Database) (data : Option Account) (o1 : StateObject) (d1 : Bool) (o2 : StateObject) (d2 : Bool) :
    Prop where
  | same : d1 = d2 → o1.onDirty = o2.onDirty → Flags db data o1 d1 o2 d2
  | marked : (o2.view db).empty = false → d1 = true → (d2 = true ∨ Unchanged db data o2) → Flags db data o1 d1 o2 d2

/-- What two states hold of one account. -/
inductive Slot (db : Database) (addr : Address) (data : Option Account) :
    Option StateObject → Bool → Option StateObject → Bool → Prop where
  | present {x1 x2 : Option StateObject} {o1 o2 : StateObject} {d1 d2 : Bool} : presents data x1 = some o1 →
    presents data x2 = some o2 → Likes db addr o1 o2 → Flags db data o1 d1 o2 d2 → Slot db addr data x1 d1 x2 d2
  | absent {d : Bool} : data = none → Slot db addr data none d none d
  | gone {o1 o2 : StateObject} {d : Bool} : o1.deleted = true → o2.deleted = true → o1.view db = o2.view db →
    Slot db addr data (some o1) d (some o2) d
  | dropped {o2 : StateObject} {d2 : Bool} : data = none → o2.deleted = true → (o2.suicided = true ∨ d2 = false) →
    Slot db addr data none false (some o2) d2

section
variable {db : Database} {addr : Address} {data : Option Account} {o o1 o2 o3 : StateObject} {d d1 d2 d3 : Bool}
  {x1 x2 x3 : Option StateObject}

theorem Likes.refl (o : StateObject) : Likes db addr o o := ⟨rfl, rfl, fun _ => rfl⟩

theorem Likes.symm (h : Likes db addr o1 o2) : Likes db addr o2 o1 :=
  ⟨h.view.symm, h.deleted.symm, fun ha => (h.touched ha).symm⟩

theorem Likes.trans (h : Likes db addr o1 o2) (h' : Likes db addr o2 o3) : Likes db addr o1 o3 :=
  ⟨h.view.trans h'.view, h.deleted.trans h'.deleted, fun ha => (h.touched ha).trans (h'.touched ha)⟩

theorem StateObject.Filled.likes (h : o1.Filled db o2) : Likes db addr o2 o1 := ⟨h.view, h.deleted, fun _ => h.touched⟩

namespace Likes

section
variable (h : Likes db addr o1 o2)
include h

theorem empty : o1.data.empty = o2.data.empty := congrArg AccountView.empty h.view

theorem storage : o1.storage db = o2.storage db := congrArg AccountView.storage h.view

theorem code : (o1.loadCode db).1 = (o2.loadCode db).1 := congrArg AccountView.code h.view

theorem codeHash : o1.data.codeHash = o2.data.codeHash := congrArg AccountView.codeHash h.view

theorem balance : o1.data.balance = o2.data.balance := congrArg AccountView.balance h.view

theorem nonce : o1.data.nonce = o2.data.nonce := congrArg AccountView.nonce h.view

theorem suicided : o1.suicided = o2.suicided := congrArg AccountView.suicided h.view

theorem withBalance (amount : Int) : Likes db addr (o1.withBalance amount) (o2.withBalance amount) :=
  ⟨by rw [StateObject.view_withBalance, StateObject.view_withBalance, h.view], h.deleted, h.touched⟩

theorem withNonce (nonce : UInt64) : Likes db addr (o1.withNonce nonce) (o2.withNonce nonce) :=
  ⟨by rw [StateObject.view_withNonce, StateObject.view_withNonce, h.view], h.deleted, h.touched⟩

theorem withCode (codeHash : Hash) (code : Option Bytes) :
    Likes db addr (o1.withCode codeHash code) (o2.withCode codeHash code) :=
  ⟨by rw [StateObject.view_withCode, StateObject.view_withCode, h.view], h.deleted, h.touched⟩

theorem withState (key value : Hash) : Likes db addr (o1.withState key value) (o2.withState key value) :=
  ⟨by rw [StateObject.view_withState, StateObject.view_withState, h.storage, h.view], h.deleted, h.touched⟩

/-- What `Suicide` changes, and what undoing it changes back. -/
theorem withSuicided (suicided : Bool) (balance : Int) :
    Likes db addr (StateObject.withBalance { o1 with suicided := suicided } balance)
      (StateObject.withBalance { o2 with suicided := suicided } balance) :=
  ⟨by rw [StateObject.view_suicided, StateObject.view_suicided, h.view], h.deleted, h.touched⟩

theorem withTouched (touched : Bool) :
    Likes db addr { o1 with touched := touched } { o2 with touched := touched } := by
  refine ⟨?_, h.deleted, fun _ => rfl⟩
  rw [StateObject.view_flags o1, StateObject.view_flags o2, h.view]

end

end Likes

section
variable (h : Flags db data o1 d1 o2 d2)
include h

/-- The account is not empty, unless marks and callbacks are the same. -/
theorem Flags.onDirty : o1.onDirty = o2.onDirty ∨ (o2.view db).empty = false := by
  cases h with
  | same _ ha => exact .inl ha
  | marked he _ _ => exact .inr he

theorem Flags.trans (h' : Flags db data o2 d2 o3 d3)
    (hview : o2.view db = o3.view db) : Flags db data o1 d1 o3 d3 := by
  cases h with
  | same hd ha =>
    cases h' with
    | same hd' ha' => exact .same (hd.trans hd') (ha.trans ha')
    | marked he hd' hr => exact .marked he (hd.trans hd') hr
  | marked he hd hr =>
    cases h' with
    | same hd' ha' =>
      refine .marked (hview ▸ he) hd ?_
      rcases hr with hr | hr
      · exact .inl (hd' ▸ hr)
      · refine .inr ⟨ha' ▸ hr.onDirty, ?_, hview ▸ hr.data⟩
        exact (congrArg AccountView.suicided hview).symm.trans hr.suicided
    | marked he' _ hr' => exact .marked he' hd hr'

/-- Once both accounts are changed, their marks are the same. -/
theorem Flags.changed : (d1 || o1.onDirty) = (d2 || o2.onDirty) := by
  cases h with
  | same hd ha => rw [hd, ha]
  | marked _ hd hr =>
    rcases hr with hr | hr
    · rw [hd, hr]
      rfl
    · rw [hd, hr.onDirty, Bool.or_true]
      rfl

end

namespace Slot

theorem refl (x : Option StateObject) (d : Bool) : Slot db addr data x d x d := by
  cases x with
  | none =>
    cases hdata : data with
    | none => exact .absent rfl
    | some a => exact .present rfl rfl (.refl _) (.same rfl rfl)
  | some o =>
    cases hd : o.deleted with
    | true => exact .gone hd hd rfl
    | false =>
      have ho : presents data (some o) = some o := by simp [presents, hd]
      exact .present ho ho (.refl _) (.same rfl rfl)

section
omit [Crypto] [Roots]

theorem presents_gone (h : o.deleted = true) : presents data (some o) = none := by simp [presents, h]

theorem presents_live (h : o.deleted = false) : presents data (some o) = some o := by simp [presents, h]

end

section
variable (h : Slot db addr data x1 d1 x2 d2)
include h

theorem trans (h' : Slot db addr data x2 d2 x3 d3) : Slot db addr data x1 d1 x3 d3 := by
  cases h with
  | present h1 h2 hl hf =>
    cases h' with
    | present h2' h3 hl' hf' =>
      rw [h2] at h2'
      cases h2'
      exact .present h1 h3 (hl.trans hl') (hf.trans hf' hl'.view)
    | absent hdata | dropped hdata =>
      subst hdata
      cases h2
    | gone hd2 =>
      rw [presents_gone hd2] at h2
      cases h2
  | absent hdata =>
    cases h' with
    | present h2' =>
      subst hdata
      cases h2'
    | absent => exact .absent hdata
    | dropped _ hd hr => exact .dropped hdata hd hr
  | gone hd1 hd2 hview =>
    cases h' with
    | present h2' =>
      rw [presents_gone hd2] at h2'
      cases h2'
    | gone _ hd3 hview' => exact .gone hd1 hd3 (hview.trans hview')
  | dropped hdata hd2 hr =>
    cases h' with
    | present h2' =>
      rw [presents_gone hd2] at h2'
      cases h2'
    | gone _ hd3 hview =>
      refine .dropped hdata hd3 ?_
      rcases hr with hr | hr
      · exact .inl ((congrArg AccountView.suicided hview).symm.trans hr)
      · exact .inr hr

/-- An account that both states have. -/
theorem likes (h1 : presents data x1 = some o1) (h2 : presents data x2 = some o2) :
    Likes db addr o1 o2 ∧ Flags db data o1 d1 o2 d2 := by
  cases h with
  | present h1' h2' hl hf =>
    rw [h1] at h1'
    rw [h2] at h2'
    cases h1'
    cases h2'
    exact ⟨hl, hf⟩
  | absent hdata | dropped hdata _ _ =>
    subst hdata
    cases h1
  | gone hd1 _ _ =>
    rw [presents_gone hd1] at h1
    cases h1

theorem presents_iff : presents data x1 = none ↔ presents data x2 = none := by
  cases h with
  | present h1 h2 _ _ => simp [h1, h2]
  | absent => exact Iff.rfl
  | gone hd1 hd2 _ => simp [presents, hd1, hd2]
  | dropped hdata hd2 _ => simp [presents, hdata, hd2]

end

end Slot

end

/-! ## Journal entries -/

/-- Entries of two states that do the same when they are undone. -/
inductive EntryLike (db : Database) : JournalEntry → JournalEntry → Prop where
  | same (entry : JournalEntry) : EntryLike db entry entry
  | reset {addr : Address} {p1 p2 : StateObject} : Likes db addr p1 p2 →
    (p1.onDirty = p2.onDirty ∨ (p2.view db).empty = false) →
    EntryLike db (.resetObject addr p1) (.resetObject addr p2)
  | touch {addr : Address} {p1 p2 d : Bool} : (addr ≠ StateDB.ripemd → p1 = p2) →
    EntryLike db (.touch addr p1 d) (.touch addr p2 d)
  | refund (r1 r2 : Int) : EntryLike db (.refund r1) (.refund r2)
  | log (h1 h2 : Hash) : EntryLike db (.addLog h1) (.addLog h2)

theorem EntryLike.trans {db : Database} {e3 : JournalEntry} (h : EntryLike db e1 e2) (h' : EntryLike db e2 e3) :
    EntryLike db e1 e3 := by
  cases h with
  | same => exact h'
  | reset hl ha =>
    cases h' with
    | same => exact .reset hl ha
    | reset hl' ha' =>
      refine .reset (hl.trans hl') ?_
      rcases ha with ha | ha
      · rcases ha' with ha' | ha'
        · exact .inl (ha.trans ha')
        · exact .inr ha'
      · exact .inr (hl'.view ▸ ha)
  | touch hp =>
    cases h' with
    | same => exact .touch hp
    | touch hp' => exact .touch fun ha => (hp ha).trans (hp' ha)
  | refund r1 r2 =>
    cases h' with
    | same | refund => exact .refund _ _
  | log h1 h2 =>
    cases h' with
    | same | log => exact .log _ _

theorem EntryLike.trans_all {db : Database} {j1 j2 j3 : List JournalEntry} (h : List.Forall₂ (EntryLike db) j1 j2)
    (h' : List.Forall₂ (EntryLike db) j2 j3) : List.Forall₂ (EntryLike db) j1 j3 := by
  induction h generalizing j3 with
  | nil => exact h'
  | cons he _ ih =>
    cases h' with
    | cons he' hrest => exact .cons (he.trans he') (ih hrest)

/-! ## Two states -/

/-- What two states hold of all accounts, and their journals. Logs and the refund do not matter. -/
structure Close (s t : StateDB) : Prop where
  db : s.db = t.db
  trie : s.trie = t.trie
  preimages : s.preimages = t.preimages
  journal : List.Forall₂ (EntryLike s.db) s.journal t.journal
  slots : ∀ addr, Slot s.db addr (s.trie addr) (s.stateObjects addr) (s.stateObjectsDirty addr)
    (t.stateObjects addr) (t.stateObjectsDirty addr)

namespace StateDB

/-- The object and the mark of an account are set. -/
def put (s : StateDB) (addr : Address) (x : Option StateObject) (d : Bool) : StateDB :=
  { s with
    stateObjects := update s.stateObjects addr x
    stateObjectsDirty := update s.stateObjectsDirty addr d }

section
variable (s : StateDB) (addr : Address) (o : StateObject)

section
omit [Crypto] [Roots]

theorem put_self : s.put addr (s.stateObjects addr) (s.stateObjectsDirty addr) = s := by
  unfold put
  rw [update_eq_self, update_eq_self]

theorem setStateObject_eq_put : s.setStateObject addr o = s.put addr (some o) (s.stateObjectsDirty addr) := by
  unfold put
  rw [update_eq_self]
  rfl

theorem change_eq_put :
    s.change addr o = s.put addr (some { o with onDirty := false }) (s.stateObjectsDirty addr || o.onDirty) :=
  change_eq s addr o

theorem getStateObject_fst : (s.getStateObject addr).1 = presents (s.trie addr) (s.stateObjects addr) := by
  unfold getStateObject presents
  cases s.stateObjects addr with
  | some o => rfl
  | none => cases s.trie addr <;> rfl

end

end

end StateDB

namespace Close

variable {s t u : StateDB} {addr : Address}

theorem refl (s : StateDB) : Close s s :=
  ⟨rfl, rfl, rfl, List.forall₂_same.2 fun _ _ => .same _, fun _ => .refl _ _⟩

theorem trans (h : Close s t) (h' : Close t u) : Close s u := by
  refine ⟨h.db.trans h'.db, h.trie.trans h'.trie, h.preimages.trans h'.preimages, ?_, ?_⟩
  · have hj := h'.journal
    rw [← h.db] at hj
    exact EntryLike.trans_all h.journal hj
  · intro addr
    have hslot := h'.slots addr
    rw [← h.db, ← h.trie] at hslot
    exact (h.slots addr).trans hslot

theorem put (h : Close s t) {x1 x2 : Option StateObject} {d1 d2 : Bool}
    (hslot : Slot s.db addr (s.trie addr) x1 d1 x2 d2) : Close (s.put addr x1 d1) (t.put addr x2 d2) := by
  refine ⟨h.db, h.trie, h.preimages, h.journal, ?_⟩
  intro a
  unfold StateDB.put
  by_cases ha : a = addr
  · subst ha
    simpa using hslot
  · simpa [update_of_ne ha] using h.slots a

theorem append (h : Close s t) (he : EntryLike s.db e1 e2) : Close (s.append e1) (t.append e2) :=
  ⟨h.db, h.trie, h.preimages, List.rel_append h.journal (.cons he .nil), h.slots⟩

/-- Caches of an account are filled, or the account is loaded. -/
theorem set {o o' : StateObject} (ho : presents (s.trie addr) (s.stateObjects addr) = some o)
    (hd : o'.deleted = false) (hl : Likes s.db addr o' o) (ha : o'.onDirty = o.onDirty) :
    Close (s.setStateObject addr o') s ∧ Close s (s.setStateObject addr o') := by
  have hput : ∀ x1 x2, Slot s.db addr (s.trie addr) x1 (s.stateObjectsDirty addr) x2 (s.stateObjectsDirty addr) →
      Close (s.put addr x1 (s.stateObjectsDirty addr)) (s.put addr x2 (s.stateObjectsDirty addr)) :=
    fun _ _ h => (refl s).put h
  rw [StateDB.setStateObject_eq_put]
  constructor
  · have h := hput (some o') (s.stateObjects addr) (.present (Slot.presents_live hd) ho hl (.same rfl ha))
    rwa [StateDB.put_self] at h
  · have h := hput (s.stateObjects addr) (some o') (.present ho (Slot.presents_live hd) hl.symm (.same rfl ha.symm))
    rwa [StateDB.put_self] at h

theorem getStateObject_self (s : StateDB) (addr : Address) :
    Close (s.getStateObject addr).2 s ∧ Close s (s.getStateObject addr).2 := by
  have hgot := s.got addr
  generalize s.getStateObject addr = p at hgot
  cases hgot with
  | live | absent => exact ⟨refl s, refl s⟩
  | @loaded data ho ht => exact set (o := newObject data) (by rw [ho, ht]; rfl) rfl (.refl _) rfl

end Close

/-! ## The same call on both states -/

/-- An account that both states hold. -/
structure Pair (s t : StateDB) (addr : Address) (o1 o2 : StateObject) : Prop where
  close : Close s t
  left : s.stateObjects addr = some o1
  right : t.stateObjects addr = some o2
  deleted : o1.deleted = false
  likes : Likes s.db addr o1 o2
  flags : Flags s.db (s.trie addr) o1 (s.stateObjectsDirty addr) o2 (t.stateObjectsDirty addr)

section
variable {s t : StateDB} {addr : Address} {o1 o2 : StateObject}

theorem Close.pair (h : Close s t) (h1 : s.stateObjects addr = some o1) (hd1 : o1.deleted = false)
    (h2 : t.stateObjects addr = some o2) (hd2 : o2.deleted = false) : Pair s t addr o1 o2 := by
  have hslot := h.slots addr
  rw [h1, h2] at hslot
  obtain ⟨hl, hf⟩ := hslot.likes (Slot.presents_live hd1) (Slot.presents_live hd2)
  exact ⟨h, h1, h2, hd1, hl, hf⟩

theorem Close.getStateObject (h : Close s t) (addr : Address) :
    (s.getStateObject addr = (none, s) ∧ t.getStateObject addr = (none, t)) ∨
      ∃ o1 o2 s' t', s.getStateObject addr = (some o1, s') ∧ t.getStateObject addr = (some o2, t') ∧
        Pair s' t' addr o1 o2 := by
  have hclose := ((Close.getStateObject_self s addr).1.trans h).trans (Close.getStateObject_self t addr).2
  have hiff := (h.slots addr).presents_iff
  rw [← s.getStateObject_fst addr, h.trie, ← t.getStateObject_fst addr] at hiff
  cases h1 : s.getStateObject addr with
  | mk x1 s' =>
    cases h2 : t.getStateObject addr with
    | mk x2 t' =>
      rw [h1, h2] at hiff hclose
      cases x1 with
      | none =>
        obtain rfl : x2 = none := hiff.1 rfl
        rw [StateDB.getStateObject_none h1, StateDB.getStateObject_none h2]
        exact .inl ⟨rfl, rfl⟩
      | some o1 =>
        cases x2 with
        | none => cases hiff.2 rfl
        | some o2 =>
          obtain ⟨ho1, hd1⟩ := StateDB.getStateObject_some h1
          obtain ⟨ho2, hd2⟩ := StateDB.getStateObject_some h2
          exact .inr ⟨o1, o2, s', t', rfl, rfl, hclose.pair ho1 hd1 ho2 hd2⟩

namespace Pair

variable {o1' o2' : StateObject}

/-- The account is changed in both states. -/
theorem change (h : Pair s t addr o1 o2) (ha1 : o1'.onDirty = o1.onDirty)
    (ha2 : o2'.onDirty = o2.onDirty) (hd : o1'.deleted = false) (hl : Likes s.db addr o1' o2') :
    Close (s.change addr o1') (t.change addr o2') := by
  rw [StateDB.change_eq_put, StateDB.change_eq_put, ha1, ha2, h.flags.changed]
  refine h.close.put (.present (Slot.presents_live hd) (Slot.presents_live (hl.deleted.symm.trans hd)) ?_
    (.same rfl rfl))
  refine ⟨?_, hl.deleted, hl.touched⟩
  rw [StateObject.view_flags o1', StateObject.view_flags o2', hl.view]

/-- The account is changed in both states, with a journal entry. -/
theorem edit (h : Pair s t addr o1 o2) (he : EntryLike s.db e1 e2)
    (ha1 : o1'.onDirty = o1.onDirty) (ha2 : o2'.onDirty = o2.onDirty) (hd : o1'.deleted = false)
    (hl : Likes s.db addr o1' o2') : Close ((s.append e1).change addr o1') ((t.append e2).change addr o2') := by
  have hpair : Pair (s.append e1) (t.append e2) addr o1 o2 :=
    ⟨h.close.append he, h.left, h.right, h.deleted, h.likes, h.flags⟩
  exact hpair.change ha1 ha2 hd hl

/-- Caches are filled in both states. -/
theorem fill (h : Pair s t addr o1 o2) (hf1 : o1.Filled s.db o1') (hf2 : o2.Filled t.db o2') :
    Close (s.setStateObject addr o1') (t.setStateObject addr o2') := by
  have hd2 := h.likes.deleted.symm.trans h.deleted
  have h1 := (Close.set (s := s) (by rw [h.left]; exact Slot.presents_live h.deleted)
    (hf1.deleted.trans h.deleted) hf1.likes hf1.onDirty).1
  have h2 := (Close.set (s := t) (by rw [h.right]; exact Slot.presents_live hd2)
    (hf2.deleted.trans hd2) hf2.likes hf2.onDirty).2
  exact (h1.trans h.close).trans h2

end Pair

/-- An account is made in both states. -/
theorem Close.create (h : Close s t) {o : StateObject} (he : EntryLike s.db e1 e2) :
    Close (((s.markStateObjectDirty addr).append e1).setStateObject addr o)
      (((t.markStateObjectDirty addr).append e2).setStateObject addr o) := by
  have hslot : Slot s.db addr (s.trie addr) (some o) true (some o) true := .refl _ _
  exact (h.append he).put hslot

theorem Close.getOrNewStateObject (h : Close s t) (addr : Address) :
    Pair (s.getOrNewStateObject addr).2 (t.getOrNewStateObject addr).2 addr (s.getOrNewStateObject addr).1
      (t.getOrNewStateObject addr).1 := by
  unfold StateDB.getOrNewStateObject
  rcases h.getStateObject addr with ⟨h1, h2⟩ | ⟨o1, o2, s', t', h1, h2, hpair⟩
  · rw [h1, h2]
    dsimp only
    rw [createObject_absent (congrArg Prod.fst h1), createObject_absent (congrArg Prod.fst h2)]
    exact (h.create (.same _)).pair (by simp) rfl (by simp) rfl
  · rw [h1, h2]
    exact hpair

theorem Close.createAccount (h : Close s t) (addr : Address) : Close (s.createAccount addr) (t.createAccount addr) := by
  rcases h.getStateObject addr with ⟨h1, h2⟩ | ⟨o1, o2, s', t', h1, h2, hpair⟩
  · rw [createAccount_absent (congrArg Prod.fst h1), createAccount_absent (congrArg Prod.fst h2)]
    exact h.create (.same _)
  · rw [createAccount_present h1, createAccount_present h2, hpair.likes.balance]
    exact hpair.close.create (.reset hpair.likes hpair.flags.onDirty)

theorem Close.objectSetBalance (h : Pair s t addr o1 o2) (amount : Int) :
    Close (s.objectSetBalance addr o1 amount) (t.objectSetBalance addr o2 amount) := by
  unfold StateDB.objectSetBalance
  rw [h.likes.balance]
  exact h.edit (.same _) rfl rfl h.deleted (h.likes.withBalance amount)

/-- An empty account has the same callback in both states. -/
theorem Close.touch (h : Pair s t addr o1 o2) (he : o2.data.empty = true) :
    Close (s.touch addr o1) (t.touch addr o2) := by
  have ha : o1.onDirty = o2.onDirty := by
    rcases h.flags.onDirty with ha | hne
    · exact ha
    · have hne' : o2.data.empty = false := hne
      rw [he] at hne'
      cases hne'
  have hentry : EntryLike s.db (.touch addr o1.touched (!o1.onDirty)) (.touch addr o2.touched (!o2.onDirty)) := by
    rw [ha]
    exact .touch h.likes.touched
  exact h.edit hentry rfl rfl h.deleted (h.likes.withTouched true)

section
variable (h : Close s t)
include h

section
variable (addr : Address) (amount : Int)

theorem Close.addBalance : Close (s.addBalance addr amount) (t.addBalance addr amount) := by
  have hpair := h.getOrNewStateObject addr
  unfold StateDB.addBalance
  dsimp only
  rw [hpair.likes.empty, hpair.likes.balance]
  split
  · split
    next he => exact Close.touch hpair he
    · exact hpair.close
  · exact Close.objectSetBalance hpair _

theorem Close.subBalance : Close (s.subBalance addr amount) (t.subBalance addr amount) := by
  have hpair := h.getOrNewStateObject addr
  unfold StateDB.subBalance
  dsimp only
  rw [hpair.likes.balance]
  split
  · exact hpair.close
  · exact Close.objectSetBalance hpair _

theorem Close.setNonce (nonce : UInt64) : Close (s.setNonce addr nonce) (t.setNonce addr nonce) := by
  have hpair := h.getOrNewStateObject addr
  unfold StateDB.setNonce
  dsimp only
  rw [hpair.likes.nonce]
  exact hpair.edit (.same _) rfl rfl hpair.deleted (hpair.likes.withNonce nonce)

theorem Close.setCode (code : Option Bytes) : Close (s.setCode addr code) (t.setCode addr code) := by
  have hpair := h.getOrNewStateObject addr
  have hf1 := (s.getOrNewStateObject addr).1.filled_loadCode (s.getOrNewStateObject addr).2.db
  have hf2 := (t.getOrNewStateObject addr).1.filled_loadCode (t.getOrNewStateObject addr).2.db
  rw [← hpair.close.db] at hf2
  have hl := (hf1.likes.trans hpair.likes).trans hf2.likes.symm
  unfold StateDB.setCode
  dsimp only
  rw [← hpair.close.db, hl.codeHash, hpair.likes.code]
  exact hpair.edit (.same _) hf1.onDirty hf2.onDirty (hf1.deleted.trans hpair.deleted) (hl.withCode _ code)

theorem Close.setState (key value : Hash) : Close (s.setState addr key value) (t.setState addr key value) := by
  have hpair := h.getOrNewStateObject addr
  have hf1 := (s.getOrNewStateObject addr).1.filled_getState (s.getOrNewStateObject addr).2.db key
  have hf2 := (t.getOrNewStateObject addr).1.filled_getState (t.getOrNewStateObject addr).2.db key
  rw [← hpair.close.db] at hf2
  have hl := (hf1.likes.trans hpair.likes).trans hf2.likes.symm
  have hvalue := congrFun hpair.likes.storage key
  unfold StateObject.storage at hvalue
  unfold StateDB.setState
  dsimp only
  rw [← hpair.close.db, hvalue]
  exact hpair.edit (.same _) hf1.onDirty hf2.onDirty (hf1.deleted.trans hpair.deleted) (hl.withState key value)

theorem Close.suicide : Close (s.suicide addr) (t.suicide addr) := by
  unfold StateDB.suicide
  rcases h.getStateObject addr with ⟨h1, h2⟩ | ⟨o1, o2, s', t', h1, h2, hpair⟩
  · rw [h1, h2]
    exact h
  · rw [h1, h2]
    dsimp only
    rw [hpair.likes.suicided, hpair.likes.balance]
    exact hpair.edit (.same _) rfl rfl hpair.deleted (hpair.likes.withSuicided true 0)

theorem Close.getCode : Close (s.getCode addr).2 (t.getCode addr).2 := by
  unfold StateDB.getCode
  rcases h.getStateObject addr with ⟨h1, h2⟩ | ⟨o1, o2, s', t', h1, h2, hpair⟩
  · rw [h1, h2]
    exact h
  · rw [h1, h2]
    exact hpair.fill (o1.filled_loadCode _) (o2.filled_loadCode _)

theorem Close.getState (key : Hash) : Close (s.getState addr key).2 (t.getState addr key).2 := by
  unfold StateDB.getState
  rcases h.getStateObject addr with ⟨h1, h2⟩ | ⟨o1, o2, s', t', h1, h2, hpair⟩
  · rw [h1, h2]
    exact h
  · rw [h1, h2]
    exact hpair.fill (o1.filled_getState _ key) (o2.filled_getState _ key)

end

end

/-- **The same call keeps two states close.** -/
theorem Close.apply (h : Close s t) {op : Op} (hop : op.Stepwise) :
    ∃ s' t', op.apply s = some s' ∧ op.apply t = some t' ∧ Close s' t' := by
  cases op with
  | snapshot | revertToSnapshot | finalise | deleteSuicides | commitTo => exact hop.elim
  | createAccount addr => exact ⟨_, _, rfl, rfl, h.createAccount addr⟩
  | addBalance addr amount => exact ⟨_, _, rfl, rfl, h.addBalance addr amount⟩
  | subBalance addr amount => exact ⟨_, _, rfl, rfl, h.subBalance addr amount⟩
  | setBalance addr amount => exact ⟨_, _, rfl, rfl, Close.objectSetBalance (h.getOrNewStateObject addr) amount⟩
  | setNonce addr nonce => exact ⟨_, _, rfl, rfl, h.setNonce addr nonce⟩
  | setCode addr code => exact ⟨_, _, rfl, rfl, h.setCode addr code⟩
  | setState addr key value => exact ⟨_, _, rfl, rfl, h.setState addr key value⟩
  | suicide addr => exact ⟨_, _, rfl, rfl, h.suicide addr⟩
  | addRefund gas =>
    have hclose := h.append (.refund s.refund t.refund)
    exact ⟨_, _, rfl, rfl, hclose.db, hclose.trie, hclose.preimages, hclose.journal, hclose.slots⟩
  | addLog log =>
    have hclose := h.append (.log s.thash t.thash)
    exact ⟨_, _, rfl, rfl, hclose.db, hclose.trie, hclose.preimages, hclose.journal, hclose.slots⟩
  | addPreimage hash preimage =>
    refine ⟨_, _, rfl, rfl, ?_⟩
    have hclose := h.append (.same (.addPreimage hash))
    unfold StateDB.addPreimage
    rw [← h.preimages]
    split
    · exact h
    · exact ⟨hclose.db, hclose.trie, rfl, hclose.journal, hclose.slots⟩
  | prepare thash bhash ti => exact ⟨_, _, rfl, rfl, h.db, h.trie, h.preimages, h.journal, h.slots⟩
  | exist addr =>
    exact ⟨_, _, rfl, rfl,
      ((Close.getStateObject_self s addr).1.trans h).trans (Close.getStateObject_self t addr).2⟩
  | getCode addr => exact ⟨_, _, rfl, rfl, h.getCode addr⟩
  | getState addr key => exact ⟨_, _, rfl, rfl, h.getState addr key⟩

end


end Bgmchain.State
