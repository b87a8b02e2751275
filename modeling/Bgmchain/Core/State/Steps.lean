import Bgmchain.Core.State.StateDB
import Bgmchain.Lib.Rewind

/-! # The steps of a state database

What a caller can see of an account, and what the calls between two finalisations do, as a
handful of steps: an account is loaded, a value is kept, an account is created or made anew, a
field of it is changed, each with its journal entry. Going back to a snapshot takes journal
entries back one by one. What every step keeps is shown here once and for all. -/
namespace Bgmchain.State
open Common Core Lib.Rewind Function StateDB

variable [Crypto] [Roots] {o o' : StateObject}

/-! ## What is seen of an account -/

structure AccountView where
  nonce : UInt64
  balance : Int
  codeHash : Hash
  code : Option Bytes
  storage : StorageTrie
  suicided : Bool

/-- The code that a code field and a code hash stand for. -/
def codeOf (db : Database) (code : Option Bytes) (codeHash : Hash) : Option Bytes :=
  code.orElse fun _ => if codeHash = emptyCodeHash then none else db.contractCode codeHash

/-- The trie that a trie field and a root stand for. -/
def trieOf (db : Database) (trie : Option StorageTrie) (root : Hash) : StorageTrie :=
  trie.getD ((db.openStorageTrie root).getD emptyStorage)

namespace StateObject

/-- The values that `GetState` gives. -/
def storage (o : StateObject) (db : Database) : StorageTrie := fun key => (o.getState db key).1

def view (o : StateObject) (db : Database) : AccountView where
  nonce := o.data.nonce
  balance := o.data.balance
  codeHash := o.data.codeHash
  code := (o.loadCode db).1
  storage := o.storage db
  suicided := o.suicided

section
variable (o : StateObject) (db : Database)

omit [Crypto] in
theorem storage_eq (key : Hash) : o.storage db key = (o.cachedStorage key).getD ((o.getTrie db).1 key) := by
  unfold storage getState
  cases hc : o.cachedStorage key with
  | some value => rfl
  | none =>
    dsimp only
    split
    next h => simp [h]
    · rfl

omit [Roots] in
theorem loadCode_fst : (o.loadCode db).1 = codeOf db o.code o.data.codeHash := by
  unfold loadCode codeOf
  cases hc : o.code with
  | some code => rfl
  | none =>
    by_cases he : o.data.codeHash = emptyCodeHash
    · simp [he]
    · cases db.contractCode o.data.codeHash with
      | none | some code => simp [he]

omit [Crypto] in
theorem getTrie_fst : (o.getTrie db).1 = trieOf db o.trie o.data.root := by
  unfold getTrie trieOf
  cases o.trie with
  | some tr => rfl
  | none => cases db.openStorageTrie o.data.root <;> rfl

/-- The view by the fields of the object. -/
theorem view_eq : o.view db = ⟨o.data.nonce, o.data.balance, o.data.codeHash, codeOf db o.code o.data.codeHash,
    fun key => (o.cachedStorage key).getD (trieOf db o.trie o.data.root key), o.suicided⟩ := by
  unfold view
  rw [loadCode_fst, funext (o.storage_eq db), getTrie_fst]

/-- A value that is only cached is the one in the trie. -/
def Consistent (o : StateObject) : Prop :=
  ∀ key, o.dirtyStorage key = o.cachedStorage key ∨
    (o.dirtyStorage key = none ∧ ∃ tr, o.trie = some tr ∧ o.cachedStorage key = some (tr key))

/-- What reading an account can do to its object: caches are filled. -/
structure Filled (db : Database) (o o' : StateObject) : Prop where
  data : o'.data = o.data
  dirtyStorage : o'.dirtyStorage = o.dirtyStorage
  suicided : o'.suicided = o.suicided
  touched : o'.touched = o.touched
  deleted : o'.deleted = o.deleted
  onDirty : o'.onDirty = o.onDirty
  view : o'.view db = o.view db
  consistent : o.Consistent → o'.Consistent

omit [Crypto] in
theorem getTrie_snd :
    ∃ dbErr, (o.getTrie db).2 = { o with trie := some (o.getTrie db).1, dbErr := dbErr } := by
  unfold getTrie
  cases ht : o.trie with
  | some tr =>
    obtain ⟨data, dbErr, trie⟩ := o
    cases ht
    exact ⟨dbErr, rfl⟩
  | none =>
    cases db.openStorageTrie o.data.root with
    | some tr | none => exact ⟨_, rfl⟩

end

omit [Crypto] in
/-- Opening a trie once more changes nothing. -/
theorem getTrie_of_trie {tr : StorageTrie} (h : o.trie = some tr) (db : Database) : o.getTrie db = (tr, o) := by
  unfold getTrie
  rw [h]

theorem filled_getTrie (o : StateObject) (db : Database) : Filled db o (o.getTrie db).2 := by
  obtain ⟨e, he⟩ := getTrie_snd o db
  have hview : (o.getTrie db).2.view db = o.view db := by
    rw [he, view_eq, view_eq, getTrie_fst]
    rfl
  refine ⟨by rw [he], by rw [he], by rw [he], by rw [he], by rw [he], by rw [he], hview, ?_⟩
  intro hc key
  rw [he]
  rcases hc key with h | ⟨h, tr, htr, h'⟩
  · exact .inl h
  · refine .inr ⟨h, tr, ?_, h'⟩
    rw [getTrie_of_trie htr]

theorem Filled.refl (db : Database) (o : StateObject) : Filled db o o :=
  ⟨rfl, rfl, rfl, rfl, rfl, rfl, rfl, id⟩

theorem Filled.trans {db : Database} {o'' : StateObject} (h : Filled db o o') (h' : Filled db o' o'') :
    Filled db o o'' :=
  ⟨h'.data.trans h.data, h'.dirtyStorage.trans h.dirtyStorage, h'.suicided.trans h.suicided,
    h'.touched.trans h.touched, h'.deleted.trans h.deleted, h'.onDirty.trans h.onDirty,
    h'.view.trans h.view, h'.consistent ∘ h.consistent⟩

omit [Crypto] in
theorem getState_snd (o : StateObject) (db : Database) (key : Hash) :
    (o.getState db key).2 = o ∨ (o.cachedStorage key = none ∧
      ((o.getState db key).2 = (o.getTrie db).2 ∨
        (o.getState db key).2 = { (o.getTrie db).2 with
          cachedStorage := update o.cachedStorage key (some ((o.getTrie db).1 key)) })) := by
  unfold getState
  cases hc : o.cachedStorage key with
  | some value => exact .inl rfl
  | none =>
    obtain ⟨e, he⟩ := getTrie_snd o db
    refine .inr ⟨rfl, ?_⟩
    dsimp only
    split
    · exact .inl rfl
    · refine .inr ?_
      rw [he]

/-- A value of the trie that is kept. -/
theorem filled_keep {db : Database} {key : Hash} {tr : StorageTrie} (ht : o.trie = some tr)
    (hc : o.cachedStorage key = none) :
    Filled db o { o with cachedStorage := update o.cachedStorage key (some (tr key)) } := by
  refine ⟨rfl, rfl, rfl, rfl, rfl, rfl, ?_, ?_⟩
  · rw [view_eq, view_eq, ht]
    congr 1
    funext k
    by_cases hk : k = key
    · subst hk
      simp [hc, trieOf]
    · simp [update_of_ne hk]
  · intro hcon k
    by_cases hk : k = key
    · subst hk
      refine .inr ⟨?_, tr, ht, by simp⟩
      rcases hcon k with h | ⟨h, -⟩
      · exact h.trans hc
      · exact h
    · simpa [update_of_ne hk] using hcon k

theorem filled_getState (o : StateObject) (db : Database) (key : Hash) : Filled db o (o.getState db key).2 := by
  rcases getState_snd o db key with h | ⟨hc, h | h⟩
  · rw [h]
    exact .refl db o
  · rw [h]
    exact filled_getTrie o db
  · rw [h]
    refine (filled_getTrie o db).trans ?_
    obtain ⟨e, he⟩ := getTrie_snd o db
    rw [he]
    exact filled_keep rfl hc

theorem filled_loadCode (o : StateObject) (db : Database) : Filled db o (o.loadCode db).2 := by
  -- the code that is kept is the one the view shows
  have keep : ∀ (code : Option Bytes) (dbErr : Bool),
      codeOf db code o.data.codeHash = codeOf db o.code o.data.codeHash → Filled db o { o with code := code, dbErr := dbErr } := by
    intro code dbErr h
    refine ⟨rfl, rfl, rfl, rfl, rfl, rfl, ?_, id⟩
    rw [view_eq, view_eq, h]
  unfold loadCode
  cases hc : o.code with
  | some code => exact .refl db o
  | none =>
    by_cases he : o.data.codeHash = emptyCodeHash
    · simp only [he, if_true]
      exact .refl db o
    · cases hd : db.contractCode o.data.codeHash with
      | none =>
        simp only [he, if_false]
        exact keep none true (by rw [hc])
      | some code =>
        simp only [he, if_false]
        exact keep (some code) o.dbErr (by simp [codeOf, hc, he, hd])

/-- The object that `createObject` makes. -/
def fresh : StateObject := { newObject .blank with onDirty := false }

end StateObject

/-! ## Steps -/

namespace StateDB

/-- The account is not there. -/
def Absent (s : StateDB) (addr : Address) : Prop := (s.getStateObject addr).1 = none

instance (s : StateDB) (addr : Address) : Decidable (s.Absent addr) :=
  inferInstanceAs (Decidable (_ = none))

/-- What `getStateObject` gives: a live object, one that is loaded from the trie, or none. -/
inductive Got (s : StateDB) (addr : Address) : Option StateObject × StateDB → Prop
  | live {o : StateObject} : s.stateObjects addr = some o → o.deleted = false → Got s addr (some o, s)
  | loaded {data : Account} : s.stateObjects addr = none → s.trie addr = some data →
    Got s addr (some (newObject data), s.setStateObject addr (newObject data))
  | absent : s.Absent addr → Got s addr (none, s)

omit [Crypto] [Roots] in
theorem got (s : StateDB) (addr : Address) : s.Got addr (s.getStateObject addr) := by
  have habsent : (s.getStateObject addr).1 = none → s.Got addr (none, s) := .absent
  unfold getStateObject at habsent ⊢
  cases ho : s.stateObjects addr with
  | some o =>
    rw [ho] at habsent
    cases hd : o.deleted with
    | false => simpa [hd] using Got.live ho hd
    | true => simpa [hd] using habsent
  | none =>
    rw [ho] at habsent
    cases ht : s.trie addr with
    | some data => exact .loaded ho ht
    | none => simpa [ht] using habsent

variable {addr : Address}

section
omit [Crypto] [Roots]

theorem getStateObject_some {s t : StateDB}
    (h : s.getStateObject addr = (some o, t)) : t.stateObjects addr = some o ∧ o.deleted = false := by
  have hgot := s.got addr
  rw [h] at hgot
  cases hgot with
  | live ho hd => exact ⟨ho, hd⟩
  | loaded => exact ⟨by simp, rfl⟩

theorem Absent.getStateObject {s : StateDB} (h : s.Absent addr) : s.getStateObject addr = (none, s) := by
  have hgot := s.got addr
  unfold Absent at h
  generalize s.getStateObject addr = p at h hgot
  cases hgot with
  | live | loaded => cases h
  | absent => rfl

theorem getStateObject_none {s t : StateDB} (h : s.getStateObject addr = (none, t)) : t = s := by
  have ha : s.Absent addr := by rw [Absent, h]
  rw [ha.getStateObject] at h
  exact (Prod.mk.inj h).2.symm

end

end StateDB

/-- A change to a field of an account, with the journal entry made for it. -/
inductive Edit (db : Database) (addr : Address) : JournalEntry → StateObject → StateObject → Prop where
  | balance (o : StateObject) (amount : Int) : Edit db addr (.balance addr o.data.balance) o (o.withBalance amount)
  | nonce (o : StateObject) (nonce : UInt64) : Edit db addr (.nonce addr o.data.nonce) o (o.withNonce nonce)
  | storage (o : StateObject) (key value : Hash) :
    Edit db addr (.storage addr key (o.storage db key)) o (o.withState key value)
  | code (o : StateObject) (codeHash : Hash) (code : Option Bytes) :
    Edit db addr (.code addr (o.loadCode db).1 o.data.codeHash) o (o.withCode codeHash code)
  | suicide (o : StateObject) :
    Edit db addr (.suicide addr o.suicided o.data.balance) o { o.withBalance 0 with suicided := true }
  | touch (o : StateObject) : o.data.empty = true →
    Edit db addr (.touch addr o.touched (!o.onDirty)) o { o with touched := true }

/-- What a step does to an account. -/
inductive Act where
  | quiet
  | create (addr : Address)
  | reset (addr : Address)
  | edit (addr : Address)

/-- One step. -/
inductive Step (s : StateDB) : Act → StateDB → Prop where
  | load {addr : Address} {data : Account} : s.stateObjects addr = none → s.trie addr = some data →
    Step s .quiet (s.setStateObject addr (newObject data))
  | fill {addr : Address} {o o' : StateObject} : s.stateObjects addr = some o → o.deleted = false →
    o.Filled s.db o' → Step s .quiet (s.setStateObject addr o')
  | create {addr : Address} : s.Absent addr →
    Step s (.create addr) (((s.markStateObjectDirty addr).append (.createObject addr)).setStateObject addr .fresh)
  | reset {addr : Address} {prev : StateObject} : s.stateObjects addr = some prev → prev.deleted = false →
    Step s (.reset addr) (((s.markStateObjectDirty addr).append (.resetObject addr prev)).setStateObject addr
      (StateObject.fresh.withBalance prev.data.balance))
  | edit {addr : Address} {entry : JournalEntry} {o o' : StateObject} : s.stateObjects addr = some o →
    o.deleted = false → Edit s.db addr entry o o' → Step s (.edit addr) ((s.append entry).change addr o')
  | refund (gas : Int) : Step s .quiet (s.addRefund gas)
  | log (log : Log) : Step s .quiet (s.addLog log)
  | preimage {hash : Hash} (preimage : Bytes) : s.preimages hash = none →
    Step s .quiet (s.addPreimage hash preimage)
  | prepare (thash bhash : Hash) (ti : Nat) : Step s .quiet (s.prepare thash bhash ti)

/-- Steps that a condition on the state and the act allows. -/
def Steps (g : StateDB → Act → Prop) : StateDB → StateDB → Prop :=
  Relation.ReflTransGen fun s t => ∃ act, g s act ∧ Step s act t

/-- A condition that reading does not change, and that allows changes to an account once its
callback is gone. -/
structure Guard (g : StateDB → Act → Prop) : Prop where
  quiet : ∀ s, g s .quiet
  stable : ∀ s t act, Step s .quiet t → g s act → g t act
  edited : ∀ s addr o, s.stateObjects addr = some o → o.onDirty = false → g s (.edit addr)

/-! ## The calls are made of steps -/

section
variable {g : StateDB → Act → Prop} {s t : StateDB} {addr : Address}

theorem Steps.quiet (hg : Guard g) (h : Step s .quiet t) : Steps g s t := .single ⟨.quiet, hg.quiet s, h⟩

theorem steps_getStateObject (hg : Guard g) (s : StateDB) (addr : Address) :
    Steps g s (s.getStateObject addr).2 := by
  have hgot := s.got addr
  generalize s.getStateObject addr = p at hgot
  cases hgot with
  | live | absent => exact .refl
  | loaded ho ht => exact .quiet hg (.load ho ht)

/-- The account is there, and the condition allows to change it. -/
structure Ready (g : StateDB → Act → Prop) (s t : StateDB) (addr : Address) (o : StateObject) : Prop where
  steps : Steps g s t
  object : t.stateObjects addr = some o
  deleted : o.deleted = false
  allowed : g t (.edit addr)

theorem ready_of_getStateObject (hg : Guard g) (h : s.getStateObject addr = (some o, t))
    (he : g s (.edit addr)) : Ready g s t addr o := by
  have hgot := s.got addr
  rw [h] at hgot
  cases hgot with
  | live ho hd => exact ⟨.refl, ho, hd, he⟩
  | loaded ho ht =>
    refine ⟨.quiet hg (.load ho ht), ?_, rfl, hg.stable _ _ _ (.load ho ht) he⟩
    simp [setStateObject]

section
omit [Roots]

theorem createObject_absent (h : s.Absent addr) : s.createObject addr = (.fresh, none,
      ((s.markStateObjectDirty addr).append (.createObject addr)).setStateObject addr .fresh) := by
  unfold createObject
  rw [h.getStateObject]
  rfl

theorem createAccount_absent (h : s.Absent addr) :
    s.createAccount addr = ((s.markStateObjectDirty addr).append (.createObject addr)).setStateObject addr .fresh := by
  unfold createAccount
  rw [createObject_absent h]

/-- An account that is there is made anew, with its balance. -/
theorem createAccount_present {prev : StateObject} (h : s.getStateObject addr = (some prev, t)) :
    s.createAccount addr = ((t.markStateObjectDirty addr).append (.resetObject addr prev)).setStateObject addr
      (StateObject.fresh.withBalance prev.data.balance) := by
  unfold createAccount createObject
  rw [h]
  simp [change, setStateObject, StateObject.fresh, StateObject.withBalance]

end

theorem ready_of_getOrNew (hg : Guard g) (hc : s.Absent addr → g s (.create addr))
    (he : ¬ s.Absent addr → g s (.edit addr)) :
    Ready g s (s.getOrNewStateObject addr).2 addr (s.getOrNewStateObject addr).1 := by
  unfold getOrNewStateObject
  cases h : s.getStateObject addr with
  | mk prev t =>
    cases prev with
    | some o =>
      have hna : ¬ s.Absent addr := by
        rw [StateDB.Absent, h]
        exact nofun
      exact ready_of_getStateObject hg h (he hna)
    | none =>
      have ha : s.Absent addr := by rw [StateDB.Absent, h]
      obtain rfl := getStateObject_none h
      dsimp only
      rw [createObject_absent ha]
      have hstep : Step t (.create addr) _ := .create ha
      refine ⟨.single ⟨_, hc ha, hstep⟩, ?_, rfl, ?_⟩
      · simp [setStateObject]
      · exact hg.edited _ _ .fresh (by simp [setStateObject]) rfl

namespace Ready

variable {o : StateObject}

theorem edit (h : Ready g s t addr o) {entry : JournalEntry} (he : Edit t.db addr entry o o') :
    Steps g s ((t.append entry).change addr o') :=
  h.steps.tail ⟨.edit addr, h.allowed, .edit h.object h.deleted he⟩

omit [Crypto] [Roots] in
theorem change_setStateObject (t : StateDB) (addr : Address) (entry : JournalEntry) (o o' : StateObject) :
    ((t.setStateObject addr o).append entry).change addr o' = (t.append entry).change addr o' := by
  unfold change setStateObject append markStateObjectDirty
  simp

/-- A change after the caches are filled. -/
theorem fill_edit (hg : Guard g) (h : Ready g s t addr o) {entry : JournalEntry} {o'' : StateObject}
    (hf : o.Filled t.db o') (he : Edit t.db addr entry o' o'') :
    Steps g s ((t.append entry).change addr o'') := by
  have hstep : Step t .quiet (t.setStateObject addr o') := .fill h.object h.deleted hf
  have hready : Ready g s (t.setStateObject addr o') addr o' :=
    ⟨h.steps.tail ⟨.quiet, hg.quiet t, hstep⟩, by simp [setStateObject], hf.deleted.trans h.deleted,
      hg.stable _ _ _ hstep h.allowed⟩
  rw [← change_setStateObject t addr entry o' o'']
  exact hready.edit he

end Ready

/-- The calls that are made of steps. -/
def Op.Stepwise : Op → Prop
  | .snapshot | .revertToSnapshot _ | .finalise _ _ | .deleteSuicides _ | .commitTo _ _ => False
  | _ => True

/-- What a call does to an account, on a state. -/
def Op.acts (s : StateDB) : Op → List Act
  | .createAccount addr => if s.Absent addr then [.create addr] else [.reset addr]
  | .addBalance addr amount =>
    match (s.getStateObject addr).1 with
    | none => [.create addr, .edit addr]
    | some o => if amount = 0 ∧ ¬ o.data.empty then [] else [.edit addr]
  | .subBalance addr amount =>
    (if s.Absent addr then [.create addr] else []) ++ (if amount = 0 then [] else [.edit addr])
  | .setBalance addr _ | .setNonce addr _ | .setCode addr _ | .setState addr _ _ =>
    if s.Absent addr then [.create addr, .edit addr] else [.edit addr]
  | .suicide addr => if s.Absent addr then [] else [.edit addr]
  | _ => []

section
variable (hg : Guard g)
include hg

/-- The calls that set a field, on the account that they make if it is not there. -/
theorem ready_of_setter
    (h : ∀ act ∈ (if s.Absent addr then [Act.create addr, .edit addr] else [.edit addr]), g s act) :
    Ready g s (s.getOrNewStateObject addr).2 addr (s.getOrNewStateObject addr).1 := by
  refine ready_of_getOrNew hg ?_ ?_
  · intro ha
    exact h _ (by simp [ha])
  · intro ha
    exact h _ (by simp [ha])

/-- A call that fills the caches of an account. -/
theorem steps_read (s : StateDB) (addr : Address) (f : StateObject → StateObject)
    (hf : ∀ o, StateObject.Filled s.db o (f o)) :
    Steps g s (match s.getStateObject addr with
      | (none, s) => s
      | (some o, s) => s.setStateObject addr (f o)) := by
  have hgot := s.got addr
  generalize s.getStateObject addr = p at hgot
  cases hgot with
  | live ho hd => exact .quiet hg (.fill ho hd (hf _))
  | loaded ho ht =>
    refine Relation.ReflTransGen.tail (Steps.quiet hg (.load ho ht)) ⟨.quiet, hg.quiet _, ?_⟩
    exact .fill (by simp [setStateObject]) rfl (hf _)
  | absent => exact .refl

theorem steps_createAccount (h : ∀ act ∈ (Op.createAccount addr).acts s, g s act) :
    Steps g s (s.createAccount addr) := by
  by_cases ha : s.Absent addr
  · rw [createAccount_absent ha]
    exact .single ⟨_, h _ (by simp [Op.acts, ha]), .create ha⟩
  · have hreset : g s (.reset addr) := h _ (by simp [Op.acts, ha])
    have hgot := s.got addr
    generalize hget : s.getStateObject addr = p at hgot
    cases hgot with
    | live ho hd =>
      rw [createAccount_present hget]
      exact .single ⟨_, hreset, .reset ho hd⟩
    | loaded ho ht =>
      rw [createAccount_present hget]
      refine Relation.ReflTransGen.tail (Steps.quiet hg (.load ho ht)) ⟨_, hg.stable _ _ _ (.load ho ht) hreset, ?_⟩
      exact .reset (by simp [setStateObject]) rfl
    | absent ha' => exact absurd ha' ha

theorem steps_addBalance {amount : Int} (h : ∀ act ∈ (Op.addBalance addr amount).acts s, g s act) :
    Steps g s (s.addBalance addr amount) := by
  unfold addBalance
  by_cases hq : amount = 0 ∧ ∃ o, (s.getStateObject addr).1 = some o ∧ o.data.empty = false
  · -- nothing to do
    obtain ⟨hz, o, ho, he⟩ := hq
    have hget : s.getOrNewStateObject addr = (o, (s.getStateObject addr).2) := by
      unfold getOrNewStateObject
      cases hp : s.getStateObject addr with
      | mk prev t =>
        rw [hp] at ho
        cases ho
        rfl
    rw [hget]
    simp only [hz, if_true, he]
    exact steps_getStateObject hg s addr
  · have hready : Ready g s (s.getOrNewStateObject addr).2 addr (s.getOrNewStateObject addr).1 := by
      refine ready_of_setter hg ?_
      intro act hact
      apply h
      unfold Op.acts
      unfold StateDB.Absent at hact
      cases ho : (s.getStateObject addr).1 with
      | none => simpa [ho] using hact
      | some o =>
        have hne : amount = 0 → o.data.empty = true := by
          intro hz
          by_contra hb
          exact hq ⟨hz, o, ho, by simpa using hb⟩
        have hact' : act = .edit addr := by simpa [ho] using hact
        rw [hact']
        simpa [ho] using hne
    dsimp only
    split
    · split
      next hempty => exact hready.edit (.touch _ hempty)
      · exact hready.steps
    · exact hready.edit (.balance _ _)

theorem steps_subBalance {amount : Int} (h : ∀ act ∈ (Op.subBalance addr amount).acts s, g s act) :
    Steps g s (s.subBalance addr amount) := by
  unfold subBalance
  have hc : s.Absent addr → g s (.create addr) := fun ha => h _ (by simp [Op.acts, ha])
  dsimp only
  split
  next hz =>
    by_cases ha : s.Absent addr
    · have hnew : (s.getOrNewStateObject addr).2 = (s.createObject addr).2.2 := by
        unfold getOrNewStateObject
        rw [ha.getStateObject]
      rw [hnew, createObject_absent ha]
      exact .single ⟨_, hc ha, .create ha⟩
    · have hold : (s.getOrNewStateObject addr).2 = (s.getStateObject addr).2 := by
        unfold getOrNewStateObject
        cases hp : s.getStateObject addr with
        | mk prev t =>
          cases prev with
          | some o => rfl
          | none => exact absurd (by rw [StateDB.Absent, hp]) ha
      rw [hold]
      exact steps_getStateObject hg s addr
  next hz =>
    exact (ready_of_getOrNew hg hc fun _ => h _ (by simp [Op.acts, hz])).edit (.balance _ _)

/-- **Every call between two finalisations is made of steps**, of those acts on accounts that the
state determines. -/
theorem steps_apply {op : Op} (hop : op.Stepwise) (hacts : ∀ act ∈ op.acts s, g s act)
    (h : op.apply s = some t) : Steps g s t := by
  cases op with
  | snapshot | revertToSnapshot | finalise | deleteSuicides | commitTo => exact hop.elim
  | createAccount addr =>
    cases h
    exact steps_createAccount hg hacts
  | addBalance addr amount =>
    cases h
    exact steps_addBalance hg hacts
  | subBalance addr amount =>
    cases h
    exact steps_subBalance hg hacts
  | setBalance addr amount =>
    cases h
    exact (ready_of_setter hg hacts).edit (.balance _ amount)
  | setNonce addr nonce =>
    cases h
    exact (ready_of_setter hg hacts).edit (.nonce _ nonce)
  | setCode addr code =>
    cases h
    have hready := ready_of_setter hg hacts
    unfold setCode
    generalize s.getOrNewStateObject addr = p at hready
    have hf := p.1.filled_loadCode p.2.db
    have hcode : ((p.1.loadCode p.2.db).2.loadCode p.2.db).1 = (p.1.loadCode p.2.db).1 :=
      congrArg AccountView.code hf.view
    have hedit : Edit p.2.db addr (.code addr (p.1.loadCode p.2.db).1 (p.1.loadCode p.2.db).2.data.codeHash)
        (p.1.loadCode p.2.db).2 ((p.1.loadCode p.2.db).2.withCode (Crypto.keccak256 (code.getD [])) code) := by
      rw [← hcode]
      exact .code _ _ _
    exact hready.fill_edit hg hf hedit
  | setState addr key value =>
    cases h
    have hready := ready_of_setter hg hacts
    unfold setState
    generalize s.getOrNewStateObject addr = p at hready
    have hf := p.1.filled_getState p.2.db key
    have hvalue : (p.1.getState p.2.db key).2.storage p.2.db key = (p.1.getState p.2.db key).1 :=
      congrFun (congrArg AccountView.storage hf.view) key
    have hedit : Edit p.2.db addr (.storage addr key (p.1.getState p.2.db key).1) (p.1.getState p.2.db key).2
        ((p.1.getState p.2.db key).2.withState key value) := by
      rw [← hvalue]
      exact .storage _ _ _
    exact hready.fill_edit hg hf hedit
  | suicide addr =>
    cases h
    unfold suicide
    split
    next hget =>
      rw [getStateObject_none hget]
      exact .refl
    next hget =>
      have he : g s (.edit addr) := hacts _ (by simp [Op.acts, StateDB.Absent, hget])
      exact (ready_of_getStateObject hg hget he).edit (.suicide _)
  | addRefund gas =>
    cases h
    exact .quiet hg (.refund gas)
  | addLog log =>
    cases h
    exact .quiet hg (.log log)
  | addPreimage hash preimage =>
    cases h
    cases hp : s.preimages hash with
    | none => exact .quiet hg (.preimage preimage hp)
    | some p =>
      unfold addPreimage
      rw [hp]
      exact .refl
  | prepare thash bhash ti =>
    cases h
    exact .quiet hg (.prepare thash bhash ti)
  | exist addr =>
    cases h
    exact steps_getStateObject hg s addr
  | getCode addr =>
    cases h
    have hread := steps_read hg s addr (fun o => (o.loadCode s.db).2) fun o => o.filled_loadCode s.db
    have hgot := s.got addr
    unfold getCode
    generalize s.getStateObject addr = p at hread hgot
    cases hgot <;> exact hread
  | getState addr key =>
    cases h
    have hread := steps_read hg s addr (fun o => (o.getState s.db key).2) fun o => o.filled_getState s.db key
    have hgot := s.got addr
    unfold getState
    generalize s.getStateObject addr = p at hread hgot
    cases hgot <;> exact hread

end

end

end Bgmchain.State
