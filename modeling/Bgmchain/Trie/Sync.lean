import Bgmchain.Lib.Table
import Bgmchain.Trie.Decode

/-! # The trie download scheduler

`trie/sync.go`. A request waits for the data of a node, then for the nodes that its own
node refers to, and goes into the batch when nothing is missing below it. A request is
known by its hash: `deps` counts how often it stands among the parents of requests that
are open, so that no request outlives one it is a parent of. -/
namespace Bgmchain
open Common Lib

/-- What a callback asks the scheduler for. -/
inductive LeafCall where
  | subTrie (root : Hash) (depth : Nat)
  | rawEntry (hash : Hash) (depth : Nat)

/-- `TrieSyncLeafCallback`: none for an error. The tries that a callback adds have no
callback of their own. -/
abbrev LeafCallback := Bytes → Option (List LeafCall)

structure Request where
  hash : Hash
  data : Option Bytes := none
  raw : Bool := false
  parents : List Hash := []
  depth : Nat
  deps : Int := 0
  callback : Option LeafCallback := none

/-- `TrieSync` with its `syncMemBatch`. -/
structure TrieSync where
  database : Hash → Option Bytes
  batch : Hash → Option Bytes
  order : List Hash
  requests : List Request
  queue : List (Hash × Nat)

inductive SyncError where
  | notRequested
  | alreadyProcessed
  | decode
  | leaf
  | noAncestor
deriving DecidableEq

/-! ## The queue -/

/-- `PopItem`: an item of the greatest priority, here the oldest. -/
def popItem (queue : List (Hash × Nat)) : Option (Hash × List (Hash × Nat)) :=
  match queue.find? fun e => queue.all fun e' => e'.2 ≤ e.2 with
  | none => none
  | some e => some (e.1, queue.erase e)

def popItems : Nat → List (Hash × Nat) → List Hash × List (Hash × Nat)
  | 0, queue => ([], queue)
  | n + 1, queue =>
    match popItem queue with
    | none => ([], queue)
    | some (h, queue) => (h :: (popItems n queue).1, (popItems n queue).2)

/-- What a node refers to, with the depth it stands at. `decodeNode` gives no other node. -/
def Node.kids (depth : Nat) : Node → List (Node × Nat)
  | .short k val _ => [(val, depth + k.length)]
  | .full cs _ => (List.finRange 17).filterMap fun i => if (cs i).isNil then none else some (cs i, depth + 1)
  | _ => []

namespace TrieSync

def request (s : TrieSync) (h : Hash) : Option Request := Table.find Request.hash s.requests h

/-- A request is changed where it stands. -/
def modify (s : TrieSync) (h : Hash) (f : Request → Request) : TrieSync :=
  { s with requests := Table.modify Request.hash s.requests h f }

/-- `Missing` -/
def missing (s : TrieSync) (max : Nat) : List Hash × TrieSync :=
  let popped := popItems (if max = 0 then s.queue.length else max) s.queue
  (popped.1, { s with queue := popped.2 })

/-- `Pending` -/
def pending (s : TrieSync) : Nat := s.requests.length

/-- `schedule` -/
def schedule (s : TrieSync) (req : Request) : TrieSync :=
  match s.request req.hash with
  | some _ => s.modify req.hash fun old => { old with parents := old.parents ++ req.parents }
  | none => { s with queue := s.queue ++ [(req.hash, req.depth)], requests := s.requests ++ [req] }

/-- The end of `AddSubTrie` and `AddRawEntry`: the ancestor waits for the request. They
panic if there is none. -/
def link (s : TrieSync) (parent : Hash) (req : Request) : Except SyncError TrieSync :=
  if parent = .zero 32 then .ok (s.schedule req)
  else
    match s.request parent with
    | none => .error .noAncestor
    | some _ =>
      .ok ((s.modify parent fun a => { a with deps := a.deps + 1 }).schedule
        { req with parents := req.parents ++ [parent] })

/-- `AddSubTrie` -/
def addSubTrie (s : TrieSync) (root : Hash) (depth : Nat) (parent : Hash) (callback : Option LeafCallback) :
    Except SyncError TrieSync :=
  if root = emptyRoot then .ok s
  else if (s.batch root).isSome then .ok s
  else if ((s.database root).bind (mustDecodeNode root 0)).isSome then .ok s
  else s.link parent { hash := root, depth := depth, callback := callback }

/-- `commit`, up to its loop. -/
def enter (s : TrieSync) (req : Request) : TrieSync :=
  { s with
    batch := Function.update s.batch req.hash (some (req.data.getD []))
    order := s.order ++ [req.hash]
    requests := Table.erase Request.hash s.requests req.hash }

/-- The loop of `commit` for one parent. -/
def release (commit : TrieSync → Hash → TrieSync) (s : TrieSync) (p : Hash) : TrieSync :=
  match s.request p with
  | none => s
  | some parent =>
    let s := s.modify p fun r => { r with deps := r.deps - 1 }
    if parent.deps - 1 = 0 then commit s p else s

def commitFrom : Nat → TrieSync → Hash → TrieSync
  | 0, s, _ => s
  | f + 1, s, h =>
    match s.request h with
    | none => s
    | some req => req.parents.foldl (release (commitFrom f)) (s.enter req)

/-- `commit`; each call removes a request. -/
def commit (s : TrieSync) (h : Hash) : TrieSync := commitFrom s.requests.length s h

/-- The request for a child that is neither in the batch nor in the database. -/
def childRequest (s : TrieSync) (req : Request) (child : Node × Nat) : List Request :=
  match child.1 with
  | .hash h =>
    if (s.batch h).isSome || (s.database h).isSome then []
    else [{ hash := h, parents := [req.hash], depth := child.2, callback := req.callback }]
  | _ => []

section
variable [Crypto]

/-- The hash of the empty string, `emptyState`. -/
def emptyState : Hash := Crypto.keccak256 []

/-- `AddRawEntry` -/
def addRawEntry (s : TrieSync) (hash : Hash) (depth : Nat) (parent : Hash) : Except SyncError TrieSync :=
  if hash = emptyState then .ok s
  else if (s.batch hash).isSome then .ok s
  else if (s.database hash).isSome then .ok s
  else s.link parent { hash := hash, raw := true, depth := depth }

def perform (parent : Hash) (s : TrieSync) : LeafCall → Except SyncError TrieSync
  | .subTrie root depth => s.addSubTrie root depth parent none
  | .rawEntry hash depth => s.addRawEntry hash depth parent

/-- The callback for a child that is a value. -/
def leaf (s : TrieSync) (req : Request) (child : Node) : Except SyncError TrieSync :=
  match req.callback, child with
  | some callback, .value v =>
    match callback v with
    | none => .error .leaf
    | some calls => calls.foldlM (perform req.hash) s
  | _, _ => .ok s

/-- `children`. What a callback has added before an error stays. -/
def children (req : Request) : List (Node × Nat) → TrieSync → EStateM.Result SyncError TrieSync (List Request)
  | [], s => .ok [] s
  | child :: rest, s =>
    match s.leaf req child.1 with
    | .error e => .error e s
    | .ok s =>
      match children req rest s with
      | .error e s' => .error e s'
      | .ok requests s' => .ok (s.childRequest req child ++ requests) s'

/-- The loop of `Process` for one result: whether something was committed. -/
def processItem (s : TrieSync) (item : Hash × Bytes) : EStateM.Result SyncError TrieSync Bool :=
  match s.request item.1 with
  | none => .error .notRequested s
  | some req =>
    if req.data.isSome then .error .alreadyProcessed s
    else if req.raw then .ok true ((s.modify item.1 fun r => { r with data := some item.2 }).commit item.1)
    else
      match mustDecodeNode item.1 0 item.2 with
      | none => .error .decode s
      | some n =>
        match children req (n.kids req.depth) (s.modify item.1 fun r => { r with data := some item.2 }) with
        | .error e s => .error e s
        | .ok requests s =>
          if requests.isEmpty && ((s.request item.1).map Request.deps).getD 0 = 0 then .ok true (s.commit item.1)
          else
            .ok false (requests.foldl schedule
              (s.modify item.1 fun r => { r with deps := r.deps + requests.length }))

def processFrom : Nat → Bool → List (Hash × Bytes) → TrieSync → (Bool × Nat × Option SyncError) × TrieSync
  | _, committed, [], s => ((committed, 0, none), s)
  | i, committed, item :: rest, s =>
    match s.processItem item with
    | .error e s => ((committed, i, some e), s)
    | .ok c s => processFrom (i + 1) (committed || c) rest s

/-- `Process` -/
def process (s : TrieSync) (results : List (Hash × Bytes)) : (Bool × Nat × Option SyncError) × TrieSync :=
  processFrom 0 false results s

end

/-- The database after so many of the `Put`s of `Commit`. -/
def putFirst (s : TrieSync) (n : Nat) : Hash → Option Bytes :=
  (s.order.take n).foldl (fun db h => Function.update db h (some ((s.batch h).getD []))) s.database

/-- `Commit` to the scheduler's own database, which may refuse a `Put`. -/
def commitTo (s : TrieSync) (refused : Option Nat) : Except Nat Nat × TrieSync :=
  match refused.filter (· < s.order.length) with
  | some i => (.error i, { s with database := s.putFirst i })
  | none => (.ok s.order.length, { s with database := s.putFirst s.order.length, batch := fun _ => none, order := [] })

/-- A scheduler without requests. -/
def idle (database : Hash → Option Bytes) : TrieSync := ⟨database, fun _ => none, [], [], []⟩

end TrieSync

/-- `NewTrieSync` -/
def newTrieSync (root : Hash) (database : Hash → Option Bytes) (callback : Option LeafCallback) : TrieSync :=
  match (TrieSync.idle database).addSubTrie root 0 (.zero 32) callback with
  | .ok s => s
  | .error _ => .idle database

end Bgmchain
