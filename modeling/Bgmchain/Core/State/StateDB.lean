import Bgmchain.Core.Types.Receipt

/-! # The state database

`core/state`: accounts that are loaded from the account trie when they are first used,
changed in memory with a journal that takes the changes back, and written to the trie when
the state is finalised or committed.

A trie is given by what it holds, which its root stands for; that the tries of this package
keep what is written to them, and that their roots tell contents apart, is shown in the
modules on tries. Go maps are functions. A loop over the keys of a map takes them in the order
that it is given. `Error`, `Reset` and the caches of `cachingDB` are left out. -/
namespace Bgmchain.State
open Common Core Function

/-- `Account`. A code hash has 32 bytes. -/
structure Account where
  nonce : UInt64
  balance : Int
  root : Hash
  codeHash : Hash
deriving DecidableEq

/-- What a storage trie holds; keys that it does not have are zero. -/
abbrev StorageTrie := Hash → Hash

/-- What the account trie holds. -/
abbrev AccountTrie := Address → Option Account

/-- The root hashes of tries, by what the tries hold. -/
class Roots where
  storage : StorageTrie → Hash
  accounts : AccountTrie → Hash

def zeroHash : Hash := .zero 32

def emptyStorage : StorageTrie := fun _ => zeroHash

/-- `Database`: the tries and contract codes that can be read, by their hashes. -/
structure Database where
  storageTrie : Hash → Option StorageTrie
  accountTrie : Hash → Option AccountTrie
  contractCode : Hash → Option Bytes

section
variable [Roots]

/-- `OpenStorageTrie` -/
def Database.openStorageTrie (db : Database) (root : Hash) : Option StorageTrie :=
  if root = zeroHash ∨ root = Roots.storage emptyStorage then some emptyStorage else db.storageTrie root

/-- `OpenTrie` -/
def Database.openTrie (db : Database) (root : Hash) : Option AccountTrie :=
  if root = zeroHash ∨ root = Roots.accounts (fun _ => none) then some fun _ => none else db.accountTrie root

/-! What a committed batch adds to the database. -/

def Database.putStorage (db : Database) (tr : StorageTrie) : Database :=
  { db with storageTrie := update db.storageTrie (Roots.storage tr) (some tr) }

def Database.putAccounts (db : Database) (tr : AccountTrie) : Database :=
  { db with accountTrie := update db.accountTrie (Roots.accounts tr) (some tr) }

end

def Database.putCode (db : Database) (codeHash : Hash) (code : Bytes) : Database :=
  { db with contractCode := update db.contractCode codeHash (some code) }

/-- `Storage` -/
abbrev Storage := Hash → Option Hash

/-- `stateObject`. `onDirty` says that the callback is still there. -/
structure StateObject where
  data : Account
  dbErr : Bool
  trie : Option StorageTrie
  code : Option Bytes
  cachedStorage : Storage
  dirtyStorage : Storage
  dirtyCode : Bool
  suicided : Bool
  touched : Bool
  deleted : Bool
  onDirty : Bool

section
variable [Crypto]

def emptyCodeHash : Hash := Crypto.keccak256 []

/-- `Account{}` as `newObject` completes it. -/
def Account.blank : Account := ⟨0, 0, zeroHash, emptyCodeHash⟩

/-- `newObject` -/
def newObject (data : Account) : StateObject where
  data := data
  dbErr := false
  trie := none
  code := none
  cachedStorage := fun _ => none
  dirtyStorage := fun _ => none
  dirtyCode := false
  suicided := false
  touched := false
  deleted := false
  onDirty := true

/-- `empty` -/
def Account.empty (data : Account) : Bool := data.nonce = 0 ∧ data.balance = 0 ∧ data.codeHash = emptyCodeHash

end

namespace StateObject

section
variable [Roots]

/-- `getTrie` -/
def getTrie (o : StateObject) (db : Database) : StorageTrie × StateObject :=
  match o.trie with
  | some tr => (tr, o)
  | none =>
    match db.openStorageTrie o.data.root with
    | some tr => (tr, { o with trie := some tr })
    | none => (emptyStorage, { o with trie := some emptyStorage, dbErr := true })

/-- `GetState` -/
def getState (o : StateObject) (db : Database) (key : Hash) : Hash × StateObject :=
  match o.cachedStorage key with
  | some value => (value, o)
  | none =>
    let (tr, o) := o.getTrie db
    if tr key = zeroHash then (zeroHash, o)
    else (tr key, { o with cachedStorage := update o.cachedStorage key (some (tr key)) })

/-- `updateTrie`. Every dirty key is written on its own; zero deletes it. -/
def updateTrie (o : StateObject) (db : Database) : StorageTrie × StateObject :=
  let (tr, o) := o.getTrie db
  let tr := fun key => (o.dirtyStorage key).getD (tr key)
  (tr, { o with trie := some tr, dirtyStorage := fun _ => none })

/-- `updateRoot` -/
def updateRoot (o : StateObject) (db : Database) : StateObject :=
  let (tr, o) := o.updateTrie db
  { o with data := { o.data with root := Roots.storage tr } }

end

section
variable [Crypto]

/-- `Code` -/
def loadCode (o : StateObject) (db : Database) : Option Bytes × StateObject :=
  match o.code with
  | some code => (some code, o)
  | none =>
    if o.data.codeHash = emptyCodeHash then (none, o)
    else
      match db.contractCode o.data.codeHash with
      | some code => (some code, { o with code := some code })
      | none => (none, { o with dbErr := true })

end

/-! The fields that the setters change. -/

def withBalance (o : StateObject) (amount : Int) : StateObject := { o with data := { o.data with balance := amount } }

def withNonce (o : StateObject) (nonce : UInt64) : StateObject := { o with data := { o.data with nonce := nonce } }

def withCode (o : StateObject) (codeHash : Hash) (code : Option Bytes) : StateObject :=
  { o with code := code, data := { o.data with codeHash := codeHash }, dirtyCode := true }

def withState (o : StateObject) (key value : Hash) : StateObject :=
  { o with
    cachedStorage := update o.cachedStorage key (some value)
    dirtyStorage := update o.dirtyStorage key (some value) }

/-- The code part of a turn of `CommitTo`. -/
def commitCode (o : StateObject) (dbw : Database) : StateObject × Database :=
  match o.code with
  | some code => if o.dirtyCode then ({ o with dirtyCode := false }, dbw.putCode o.data.codeHash code) else (o, dbw)
  | none => (o, dbw)

/-- `deepCopy`, for a copy of the state with the same database. -/
def deepCopy (o : StateObject) : StateObject :=
  { o with dbErr := false, cachedStorage := o.dirtyStorage, touched := false, onDirty := true }

end StateObject

/-- `journalEntry` -/
inductive JournalEntry where
  | createObject (account : Address)
  | resetObject (account : Address) (prev : StateObject)
  | suicide (account : Address) (prev : Bool) (prevbalance : Int)
  | balance (account : Address) (prev : Int)
  | nonce (account : Address) (prev : UInt64)
  | storage (account : Address) (key prevalue : Hash)
  | code (account : Address) (prevcode : Option Bytes) (prevhash : Hash)
  | refund (prev : Int)
  | addLog (txhash : Hash)
  | addPreimage (hash : Hash)
  | touch (account : Address) (prev prevDirty : Bool)

structure Revision where
  id : Nat
  journalIndex : Nat

structure StateDB where
  db : Database
  trie : AccountTrie
  stateObjects : Address → Option StateObject
  stateObjectsDirty : Address → Bool
  refund : Int
  thash : Hash
  bhash : Hash
  txIndex : Nat
  logs : Hash → List Log
  logSize : Nat
  preimages : Hash → Option Bytes
  journal : List JournalEntry
  validRevisions : List Revision
  nextRevisionId : Nat

namespace StateDB

/-- The state that `New` makes of a trie. -/
def ofTrie (db : Database) (tr : AccountTrie) : StateDB where
  db := db
  trie := tr
  stateObjects := fun _ => none
  stateObjectsDirty := fun _ => false
  refund := 0
  thash := zeroHash
  bhash := zeroHash
  txIndex := 0
  logs := fun _ => []
  logSize := 0
  preimages := fun _ => none
  journal := []
  validRevisions := []
  nextRevisionId := 0

/-- `New` -/
def new [Roots] (root : Hash) (db : Database) : Option StateDB := (db.openTrie root).map (ofTrie db)

@[simps -fullyApplied] def append (s : StateDB) (entry : JournalEntry) : StateDB := { s with journal := s.journal ++ [entry] }

@[simps -fullyApplied] def setStateObject (s : StateDB) (addr : Address) (o : StateObject) : StateDB :=
  { s with stateObjects := update s.stateObjects addr (some o) }

/-- `MarkStateObjectDirty` -/
@[simps -fullyApplied] def markStateObjectDirty (s : StateDB) (addr : Address) : StateDB :=
  { s with stateObjectsDirty := update s.stateObjectsDirty addr true }

/-- Takes an account out of the dirty ones. -/
@[simps -fullyApplied] def clean (s : StateDB) (addr : Address) : StateDB :=
  { s with stateObjectsDirty := update s.stateObjectsDirty addr false }

/-- A setter's change to an object. The callback is called the first time only. -/
def change (s : StateDB) (addr : Address) (o : StateObject) : StateDB :=
  if o.onDirty then (s.markStateObjectDirty addr).setStateObject addr { o with onDirty := false } else s.setStateObject addr o

section
variable [Crypto]

/-- `getStateObject` -/
def getStateObject (s : StateDB) (addr : Address) : Option StateObject × StateDB :=
  match s.stateObjects addr with
  | some o => (if o.deleted then none else some o, s)
  | none =>
    match s.trie addr with
    | none => (none, s)
    | some data => (some (newObject data), s.setStateObject addr (newObject data))

/-- `createObject`. Setting the nonce calls the callback of the new object. -/
def createObject (s : StateDB) (addr : Address) : StateObject × Option StateObject × StateDB :=
  let (prev, s) := s.getStateObject addr
  let newobj := { newObject .blank with onDirty := false }
  let entry := match prev with
    | none => .createObject addr
    | some prev => .resetObject addr prev
  (newobj, prev, (((s.markStateObjectDirty addr).append entry).setStateObject addr newobj))

/-- `GetOrNewStateObject` -/
def getOrNewStateObject (s : StateDB) (addr : Address) : StateObject × StateDB :=
  match s.getStateObject addr with
  | (some o, s) => (o, s)
  | (none, s) =>
    let (o, _, s) := s.createObject addr
    (o, s)

/-- `CreateAccount` -/
def createAccount (s : StateDB) (addr : Address) : StateDB :=
  match s.createObject addr with
  | (_, none, s) => s
  | (newobj, some prev, s) => s.change addr (newobj.withBalance prev.data.balance)

/-- `stateObject.SetBalance` -/
def objectSetBalance (s : StateDB) (addr : Address) (o : StateObject) (amount : Int) : StateDB :=
  (s.append (.balance addr o.data.balance)).change addr (o.withBalance amount)

/-- `touch` -/
def touch (s : StateDB) (addr : Address) (o : StateObject) : StateDB :=
  (s.append (.touch addr o.touched (!o.onDirty))).change addr { o with touched := true }

/-- `AddBalance` -/
def addBalance (s : StateDB) (addr : Address) (amount : Int) : StateDB :=
  let (o, s) := s.getOrNewStateObject addr
  if amount = 0 then
    if o.data.empty then s.touch addr o else s
  else s.objectSetBalance addr o (o.data.balance + amount)

/-- `SubBalance` -/
def subBalance (s : StateDB) (addr : Address) (amount : Int) : StateDB :=
  let (o, s) := s.getOrNewStateObject addr
  if amount = 0 then s else s.objectSetBalance addr o (o.data.balance - amount)

/-- `SetBalance` -/
def setBalance (s : StateDB) (addr : Address) (amount : Int) : StateDB :=
  let (o, s) := s.getOrNewStateObject addr
  s.objectSetBalance addr o amount

/-- `SetNonce` -/
def setNonce (s : StateDB) (addr : Address) (nonce : UInt64) : StateDB :=
  let (o, s) := s.getOrNewStateObject addr
  (s.append (.nonce addr o.data.nonce)).change addr (o.withNonce nonce)

/-- `SetCode` -/
def setCode (s : StateDB) (addr : Address) (code : Option Bytes) : StateDB :=
  let (o, s) := s.getOrNewStateObject addr
  let (prevcode, o) := o.loadCode s.db
  (s.append (.code addr prevcode o.data.codeHash)).change addr (o.withCode (Crypto.keccak256 (code.getD [])) code)

/-- `Suicide` -/
def suicide (s : StateDB) (addr : Address) : StateDB :=
  match s.getStateObject addr with
  | (none, s) => s
  | (some o, s) =>
    (s.append (.suicide addr o.suicided o.data.balance)).change addr { o.withBalance 0 with suicided := true }

variable [Roots]

/-- `SetState` -/
def setState (s : StateDB) (addr : Address) (key value : Hash) : StateDB :=
  let (o, s) := s.getOrNewStateObject addr
  let (prevalue, o) := o.getState s.db key
  (s.append (.storage addr key prevalue)).change addr (o.withState key value)

/-! ## Reading -/

/-- `Exist` -/
def exist (s : StateDB) (addr : Address) : Bool := (s.getStateObject addr).1.isSome

/-- `GetBalance` -/
def getBalance (s : StateDB) (addr : Address) : Int := ((s.getStateObject addr).1.map (·.data.balance)).getD 0

/-- `GetNonce` -/
def getNonce (s : StateDB) (addr : Address) : UInt64 := ((s.getStateObject addr).1.map (·.data.nonce)).getD 0

/-- `GetCodeHash` -/
def getCodeHash (s : StateDB) (addr : Address) : Hash := ((s.getStateObject addr).1.map (·.data.codeHash)).getD zeroHash

/-- `HasSuicided` -/
def hasSuicided (s : StateDB) (addr : Address) : Bool := ((s.getStateObject addr).1.map (·.suicided)).getD false

/-- `GetCode`, which keeps the code that it loads. -/
def getCode (s : StateDB) (addr : Address) : Bytes × StateDB :=
  match s.getStateObject addr with
  | (none, s) => ([], s)
  | (some o, s) =>
    let (code, o) := o.loadCode s.db
    (code.getD [], s.setStateObject addr o)

/-- `GetState`, which keeps the value that it loads. -/
def getState (s : StateDB) (addr : Address) (key : Hash) : Hash × StateDB :=
  match s.getStateObject addr with
  | (none, s) => (zeroHash, s)
  | (some o, s) =>
    let (value, o) := o.getState s.db key
    (value, s.setStateObject addr o)

end

/-! ## Logs, preimages and the refund -/

/-- `AddLog` -/
def addLog (s : StateDB) (log : Log) : StateDB :=
  let log := { log with txHash := s.thash, blockHash := s.bhash, txIndex := s.txIndex, index := s.logSize }
  { s.append (.addLog s.thash) with
    logs := update s.logs s.thash (s.logs s.thash ++ [log])
    logSize := s.logSize + 1 }

/-- `AddPreimage` -/
def addPreimage (s : StateDB) (hash : Hash) (preimage : Bytes) : StateDB :=
  match s.preimages hash with
  | some _ => s
  | none => { s.append (.addPreimage hash) with preimages := update s.preimages hash (some preimage) }

theorem addPreimage_of_none {s : StateDB} {hash : Hash} (h : s.preimages hash = none) (preimage : Bytes) :
    s.addPreimage hash preimage =
      { s.append (.addPreimage hash) with preimages := update s.preimages hash (some preimage) } := by
  unfold addPreimage
  rw [h]

/-- `AddRefund` -/
def addRefund (s : StateDB) (gas : Int) : StateDB :=
  { s.append (.refund s.refund) with refund := s.refund + gas }

/-- `Prepare` -/
def prepare (s : StateDB) (thash bhash : Hash) (ti : Nat) : StateDB :=
  { s with thash := thash, bhash := bhash, txIndex := ti }

/-! ## Snapshots -/

/-- `Snapshot` -/
def snapshot (s : StateDB) : Nat × StateDB :=
  (s.nextRevisionId,
    { s with
      nextRevisionId := s.nextRevisionId + 1
      validRevisions := s.validRevisions ++ [⟨s.nextRevisionId, s.journal.length⟩] })

def ripemd : Address := ⟨List.replicate 19 0 ++ [3], rfl⟩

section
variable [Crypto]

/-- An undo that sets a field of an account. The account is expected to be there. -/
def restore (s : StateDB) (addr : Address) (f : StateObject → StateObject) : Option StateDB :=
  match s.getStateObject addr with
  | (none, _) => none
  | (some o, s) => some (s.change addr (f o))

/-- `undo`; none where the code would dereference a nil pointer or cut an empty slice. -/
def undo (s : StateDB) : JournalEntry → Option StateDB
  | .createObject addr =>
    some ({ s with stateObjects := update s.stateObjects addr none }.clean addr)
  | .resetObject addr prev => some (s.setStateObject addr prev)
  | .suicide addr prev prevbalance =>
    match s.getStateObject addr with
    | (none, s) => some s
    | (some o, s) => some (s.change addr ({ o with suicided := prev }.withBalance prevbalance))
  | .balance addr prev => s.restore addr (·.withBalance prev)
  | .nonce addr prev => s.restore addr (·.withNonce prev)
  | .storage addr key prevalue => s.restore addr (·.withState key prevalue)
  | .code addr prevcode prevhash => s.restore addr (·.withCode prevhash prevcode)
  | .refund prev => some { s with refund := prev }
  | .addLog txhash =>
    if s.logs txhash = [] then none
    else some { s with logs := update s.logs txhash (s.logs txhash).dropLast, logSize := s.logSize - 1 }
  | .addPreimage hash => some { s with preimages := update s.preimages hash none }
  | .touch addr prev prevDirty =>
    if !prev ∧ addr ≠ ripemd then
      match s.getStateObject addr with
      | (none, _) => none
      | (some o, s) =>
        let s := s.setStateObject addr { o with touched := prev }
        some (if prevDirty then s else s.clean addr)
    else some s

/-- The loop of `RevertToSnapshot` over journal entries, the last one first. -/
def undoAll (s : StateDB) (entries : List JournalEntry) : Option StateDB := entries.reverse.foldlM undo s

/-- `RevertToSnapshot`; none where it panics. The revisions are sorted by their ids. -/
def revertToSnapshot (s : StateDB) (revid : Nat) : Option StateDB :=
  let idx := s.validRevisions.findIdx fun r => decide (revid ≤ r.id)
  match s.validRevisions[idx]? with
  | none => none
  | some r =>
    if r.id ≠ revid then none
    else
      match s.undoAll (s.journal.drop r.journalIndex) with
      | none => none
      | some s' => some { s' with journal := s.journal.take r.journalIndex, validRevisions := s.validRevisions.take idx }

end

/-! ## Finalising, committing and copying -/

/-- `clearJournalAndRefund` -/
def clearJournalAndRefund (s : StateDB) : StateDB := { s with journal := [], validRevisions := [], refund := 0 }

/-- `deleteStateObject` -/
def deleteStateObject (s : StateDB) (addr : Address) (o : StateObject) : StateDB :=
  { s.setStateObject addr { o with deleted := true } with trie := update s.trie addr none }

/-- `updateStateObject`, which panics if the balance is negative. -/
def updateStateObject (s : StateDB) (addr : Address) (o : StateObject) : Option StateDB :=
  if o.data.balance < 0 then none
  else some { s.setStateObject addr o with trie := update s.trie addr (some o.data) }

section
variable [Crypto] [Roots]

/-- One turn of the loop of `Finalise`. -/
def finaliseObject (s : StateDB) (deleteEmptyObjects : Bool) (addr : Address) : Option StateDB :=
  match s.stateObjects addr with
  | none => none
  | some o =>
    if o.suicided ∨ (deleteEmptyObjects ∧ o.data.empty) then some (s.deleteStateObject addr o)
    else s.updateStateObject addr (o.updateRoot s.db)

/-- `Finalise`, for an order of the dirty accounts. -/
def finalise (s : StateDB) (deleteEmptyObjects : Bool) (order : List Address) : Option StateDB :=
  (order.foldlM (fun (s : StateDB) addr => s.finaliseObject deleteEmptyObjects addr) s).map clearJournalAndRefund

/-- `IntermediateRoot` -/
def intermediateRoot (s : StateDB) (deleteEmptyObjects : Bool) (order : List Address) : Option (Hash × StateDB) :=
  (s.finalise deleteEmptyObjects order).map fun s => (Roots.accounts s.trie, s)

/-- `DeleteSuicides`, for an order of the dirty accounts. -/
def deleteSuicides (s : StateDB) (order : List Address) : Option StateDB :=
  order.foldlM (fun (s : StateDB) addr =>
    (s.stateObjects addr).map fun o =>
      (if o.suicided then s.setStateObject addr { o with deleted := true } else s).clean addr)
    s.clearJournalAndRefund

/-- One turn of the loop of `CommitTo`. Beside the state there is the database as it will be once
the batch is written; the flag says that the turn ends without an error. -/
def commitObject (s : StateDB) (dbw : Database) (deleteEmptyObjects : Bool) (addr : Address) :
    Option (Bool × StateDB × Database) :=
  match s.stateObjects addr with
  | none => none
  | some o =>
    let isDirty := s.stateObjectsDirty addr
    if o.suicided ∨ (isDirty ∧ deleteEmptyObjects ∧ o.data.empty) then
      some (true, (s.deleteStateObject addr o).clean addr, dbw)
    else if isDirty then
      let (o, dbw) := o.commitCode dbw
      let (tr, o) := o.updateTrie s.db
      if o.dbErr then some (false, s.setStateObject addr o, dbw)
      else
        (s.updateStateObject addr { o with data := { o.data with root := Roots.storage tr } }).map fun s =>
          (true, s.clean addr, dbw.putStorage tr)
    else some (true, s.clean addr, dbw)

def commitObjects (deleteEmptyObjects : Bool) :
    List Address → StateDB → Database → Option (Bool × StateDB × Database)
  | [], s, dbw => some (true, s, dbw)
  | addr :: order, s, dbw =>
    match s.commitObject dbw deleteEmptyObjects addr with
    | some (true, s, dbw) => commitObjects deleteEmptyObjects order s dbw
    | r => r

/-- `CommitTo`, for an order of the live accounts, and the batch written to the same database.
There is no root if it ends with an error. -/
def commitTo (s : StateDB) (deleteEmptyObjects : Bool) (order : List Address) : Option (Option Hash × StateDB) :=
  (commitObjects deleteEmptyObjects order s s.db).map fun (ok, s, dbw) =>
    if ok then (some (Roots.accounts s.trie), { s.clearJournalAndRefund with db := dbw.putAccounts s.trie })
    else (none, { s.clearJournalAndRefund with db := dbw })

end

/-- `Copy`. The copy has the trie of the original, not one of its own. -/
def copy (s : StateDB) : StateDB :=
  { ofTrie s.db s.trie with
    stateObjects := fun addr => if s.stateObjectsDirty addr then (s.stateObjects addr).map (·.deepCopy) else none
    stateObjectsDirty := s.stateObjectsDirty
    refund := s.refund
    logs := s.logs
    logSize := s.logSize
    preimages := s.preimages }

end StateDB

/-! ## Calls -/

/-- A call of a state database. Reverting names one of the ids that are valid, by its place among
them; with any other id the call panics. -/
inductive Op where
  | createAccount (addr : Address)
  | addBalance (addr : Address) (amount : Int)
  | subBalance (addr : Address) (amount : Int)
  | setBalance (addr : Address) (amount : Int)
  | setNonce (addr : Address) (nonce : UInt64)
  | setCode (addr : Address) (code : Option Bytes)
  | setState (addr : Address) (key value : Hash)
  | suicide (addr : Address)
  | addRefund (gas : Int)
  | addLog (log : Log)
  | addPreimage (hash : Hash) (preimage : Bytes)
  | prepare (thash bhash : Hash) (ti : Nat)
  | exist (addr : Address)
  | getCode (addr : Address)
  | getState (addr : Address) (key : Hash)
  | snapshot
  | revertToSnapshot (place : Nat)
  | finalise (deleteEmptyObjects : Bool) (order : List Address)
  | deleteSuicides (order : List Address)
  | commitTo (deleteEmptyObjects : Bool) (order : List Address)

section
variable [Crypto] [Roots]

/-- The state after a call; none where the call panics. -/
def Op.apply (s : StateDB) : Op → Option StateDB
  | .createAccount addr => some (s.createAccount addr)
  | .addBalance addr amount => some (s.addBalance addr amount)
  | .subBalance addr amount => some (s.subBalance addr amount)
  | .setBalance addr amount => some (s.setBalance addr amount)
  | .setNonce addr nonce => some (s.setNonce addr nonce)
  | .setCode addr code => some (s.setCode addr code)
  | .setState addr key value => some (s.setState addr key value)
  | .suicide addr => some (s.suicide addr)
  | .addRefund gas => some (s.addRefund gas)
  | .addLog log => some (s.addLog log)
  | .addPreimage hash preimage => some (s.addPreimage hash preimage)
  | .prepare thash bhash ti => some (s.prepare thash bhash ti)
  | .exist addr => some (s.getStateObject addr).2
  | .getCode addr => some (s.getCode addr).2
  | .getState addr key => some (s.getState addr key).2
  | .snapshot => some s.snapshot.2
  | .revertToSnapshot place => s.validRevisions[place]?.bind fun r => s.revertToSnapshot r.id
  | .finalise deleteEmptyObjects order => s.finalise deleteEmptyObjects order
  | .deleteSuicides order => s.deleteSuicides order
  | .commitTo deleteEmptyObjects order => (s.commitTo deleteEmptyObjects order).map (·.2)

/-- The calls of a list, one after the other. -/
def StateDB.run (s : StateDB) (ops : List Op) : Option StateDB := ops.foldlM Op.apply s

theorem StateDB.run_cons {s t : StateDB} {op : Op} {ops : List Op} :
    s.run (op :: ops) = some t ↔ ∃ u, op.apply s = some u ∧ u.run ops = some t := Option.bind_eq_some_iff

end

end Bgmchain.State
