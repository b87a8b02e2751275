import Bgmchain.Core.State.Sync
import Bgmchain.Trie.SyncQueue

/-! # Fetching a state from peers

`bgm/downloader/statesync.go`. Two loops share the work: `stateSync.loop` takes hashes from
the trie scheduler as tasks, puts them into requests for idle peers and processes what comes
back; `runStateSync` keeps the requests that are out, by peer, and the finished ones that
wait to be processed. A step is one event of either loop. The order in which a map is ranged
over, the idle peers with their capacities, what a peer sends and whether the database takes
a batch are inputs of the events. Timers, statistics and logging are left out. -/
namespace Bgmchain.Downloader
open Common Lib Function Crypto List TrieSync

abbrev PeerId := String

/-- `stateTask` -/
structure StateTask where
  attempts : List PeerId := []
deriving DecidableEq

abbrev StateTasks := List (Hash × StateTask)

/-- An assignment to a map of tasks. -/
def putTask (tasks : StateTasks) (h : Hash) (t : StateTask) : StateTasks := Table.erase Prod.fst tasks h ++ [(h, t)]

/-- `stateReq`. Requests are told apart by `id`, as the source tells pointers apart. -/
structure StateReq where
  id : Nat
  peer : PeerId
  items : List Hash
  tasks : StateTasks
  response : Option (List Bytes) := none
  dropped : Bool := false
deriving DecidableEq

def StateReq.timedOut (req : StateReq) : Bool := req.response.isNone

/-- The blobs that came. -/
def StateReq.blobs (req : StateReq) : List Bytes := req.response.getD []

/-- A request without the task for a hash. -/
def StateReq.served (req : StateReq) (h : Hash) : StateReq := { req with tasks := Table.erase Prod.fst req.tasks h }

inductive StateSyncError where
  | cancelStateFetch
  | dbWrite
  | invalidStateNode (hash : Hash) (err : SyncError)
  | failedWithAllPeers (hash : Hash) (tries peers : Nat)
deriving DecidableEq

/-- Where `stateSync.loop` is: before a round, assigning tasks to idle peers, handing a
request over, waiting, processing the rest of a response, or at its end. -/
inductive Phase where
  | head
  | assign (peers : List (PeerId × Nat))
  | track (req : StateReq) (peers : List (PeerId × Nat))
  | wait
  | process (req : StateReq) (blobs : List Bytes) (stale : Bool)
  | done (err : Option StateSyncError)

/-- The request that the loop has in its hands. -/
def Phase.req : Phase → Option StateReq
  | .track req _ => some req
  | .process req _ _ => some req
  | _ => none

/-- `stateSync`, with `active` and `finished` of `runStateSync`. -/
structure StateSync where
  sched : TrieSync
  tasks : StateTasks
  bytesUncommitted : Nat
  phase : Phase
  cancelled : Bool
  active : PeerId → Option StateReq
  finished : List StateReq
  nextId : Nat

/-! ## Assigning tasks -/

/-- The loop of `fillTasks`: the tasks assigned to a peer, at most `n`, and the others. -/
def takeTasks (peer : PeerId) : Nat → StateTasks → StateTasks × StateTasks
  | 0, todo => ([], todo)
  | _ + 1, [] => ([], [])
  | n + 1, (h, t) :: todo =>
    if peer ∈ t.attempts then
      ((takeTasks peer (n + 1) todo).1, (h, t) :: (takeTasks peer (n + 1) todo).2)
    else
      ((h, ⟨t.attempts ++ [peer]⟩) :: (takeTasks peer n todo).1, (takeTasks peer n todo).2)

/-- A peer that sent something, or was too late, may be tried again. -/
def attemptsLeft (req : StateReq) (t : StateTask) : List PeerId :=
  if 0 < req.blobs.length || req.timedOut then t.attempts.erase req.peer else t.attempts

/-- The end of `process`: the tasks that are left go back, unless one has failed with all
peers. -/
def putBack (req : StateReq) (npeers : Nat) : StateTasks → StateTasks → Except StateSyncError StateTasks
  | [], tasks => .ok tasks
  | (h, t) :: todo, tasks =>
    if npeers ≤ (attemptsLeft req t).length then .error (.failedWithAllPeers h (attemptsLeft req t).length npeers)
    else putBack req npeers todo (putTask tasks h ⟨attemptsLeft req t⟩)

namespace StateSync

/-- `commit`. The scheduler's batch is emptied also if the database does not take it. -/
def commit (s : StateSync) (force wrote : Bool) : Option StateSyncError × StateSync :=
  if !force && s.bytesUncommitted < 100 * 1024 then (none, s)
  else
    let sched := (s.sched.commitTo none).2
    if wrote then (none, { s with sched := sched, bytesUncommitted := 0 })
    else (some .dbWrite, { s with sched := { sched with database := s.sched.database } })

/-- The refill at the start of `fillTasks`. -/
def refill (s : StateSync) (n : Nat) : StateSync :=
  if s.tasks.length < n then
    let (new, sched) := s.sched.missing (n - s.tasks.length)
    { s with sched := sched, tasks := new.foldl (fun tasks h => putTask tasks h {}) s.tasks }
  else s

/-- The rest of `fillTasks`, with the tasks in the order in which they are ranged over. -/
def fillTasks (s : StateSync) (n : Nat) (peer : PeerId) (order : StateTasks) : StateReq × StateSync :=
  let (taken, left) := takeTasks peer n order
  ({ id := s.nextId, peer := peer, items := taken.map Prod.fst, tasks := taken },
    { s with tasks := left, nextId := s.nextId + 1 })

/-- The request that is out to a peer is finished, changed by `f`; nothing, if there is none. -/
def finishActive (s : StateSync) (peer : PeerId) (f : StateReq → StateReq) : StateSync :=
  match s.active peer with
  | none => s
  | some req => { s with active := update s.active peer none, finished := s.finished ++ [f req] }

/-- A request is tracked. The peer may have an older one, which is dropped. -/
def trackStateReq (s : StateSync) (req : StateReq) : StateSync :=
  let s := s.finishActive req.peer fun old => { old with dropped := true }
  { s with active := update s.active req.peer (some req) }

section
variable [Crypto]

/-- One blob of `process`, with `processNodeData`. -/
def processBlob (s : StateSync) (req : StateReq) (blob : Bytes) (blobs : List Bytes) (stale : Bool) : StateSync :=
  let hash := keccak256 blob
  let next := Phase.process (req.served hash) blobs (stale && (Table.find Prod.fst req.tasks hash).isNone)
  match s.sched.process [(hash, blob)] with
  | ((_, _, none), sched) =>
    { s with sched := sched, bytesUncommitted := s.bytesUncommitted + blob.length, phase := next }
  | ((_, _, some .notRequested), sched) => { s with sched := sched, phase := next }
  | ((_, _, some .alreadyProcessed), sched) => { s with sched := sched, phase := next }
  | ((_, _, some err), sched) => { s with sched := sched, phase := .done (some (.invalidStateNode hash err)) }

end

end StateSync

/-! ## The events -/

/-- The events: those of `loop`, then those of `runStateSync`. -/
inductive SyncEvent where
  /-- a turn of the loop, with the idle peers -/
  | round (peers : List (PeerId × Nat)) (wrote : Bool)
  | fill (order : StateTasks)
  | track
  | assigned
  | newPeer
  | cancel
  | deliver
  | blob
  | requeue (npeers : Nat) (order : StateTasks)
  | pack (peer : PeerId) (states : Option (List Bytes))
  | peerDrop (peer : PeerId)
  | timeout (peer : PeerId) (id : Nat)
  /-- another root is asked for -/
  | switch

namespace StateSync

/-- `newStateSync`, as its loops start. -/
def init (root : Hash) (stateDB : Hash → Option Bytes) : StateSync :=
  ⟨newStateSync root stateDB, [], 0, .head, false, fun _ => none, [], 0⟩

/-- A turn of the loop, up to the assignment of tasks. -/
def turn (s : StateSync) (peers : List (PeerId × Nat)) (wrote : Bool) : StateSync :=
  if s.sched.pending = 0 then { (s.commit true wrote).2 with phase := .done (s.commit true wrote).1 }
  else
    match s.commit false wrote with
    | (none, s) => { s with phase := .assign peers }
    | (some err, s) => { s with phase := .done (some err) }

/-- A turn of the loop of `assignTasks`. -/
def assign (s : StateSync) (peer : PeerId) (n : Nat) (peers : List (PeerId × Nat)) (order : StateTasks) : StateSync :=
  let (req, s) := s.fillTasks n peer order
  { s with phase := if 0 < req.items.length then .track req peers else .assign peers }

/-- The end of `process`, which ranges over the tasks in some order. -/
def requeue (s : StateSync) (req : StateReq) (npeers : Nat) (order : StateTasks) : StateSync :=
  match putBack req npeers order s.tasks with
  | .ok tasks => { s with tasks := tasks, phase := .head }
  | .error err => { s with phase := .done (some err) }

/-- The first finished request is delivered to the loop. -/
def deliver (s : StateSync) : Option StateSync :=
  match s.finished with
  | [] => none
  | req :: finished =>
    some { s with phase := .process req req.blobs (decide (0 < req.blobs.length)), finished := finished }

section
variable [Crypto]

/-- An event, where it can happen. Once another root is asked for, `runStateSync` is gone:
the loop's requests are taken by nobody, and it ends where it waits. -/
def step (s : StateSync) (ev : SyncEvent) : Option StateSync :=
  match ev, s.phase with
  | .round peers wrote, .head => some (s.turn peers wrote)
  | .fill order, .assign ((peer, n) :: peers) =>
    if order.Perm (s.refill n).tasks then some ((s.refill n).assign peer n peers order) else none
  | .track, .track req peers => some { (if s.cancelled then s else s.trackStateReq req) with phase := .assign peers }
  | .assigned, .assign [] => some { s with phase := .wait }
  | .newPeer, .wait => some { s with phase := .head }
  | .cancel, .wait => if s.cancelled then some { s with phase := .done (some .cancelStateFetch) } else none
  | .deliver, .wait => if s.cancelled then none else s.deliver
  | .blob, .process req (blob :: blobs) stale => some (s.processBlob req blob blobs stale)
  | .requeue npeers order, .process req [] _ =>
    if order.Perm req.tasks then some (s.requeue req npeers order) else none
  | .pack peer states, _ =>
    if s.cancelled then none else some (s.finishActive peer fun req => { req with response := states })
  | .peerDrop peer, _ =>
    if s.cancelled then none else some (s.finishActive peer fun req => { req with dropped := true })
  | .timeout peer id, _ =>
    if s.cancelled then none
    -- a timeout of an older request is ignored
    else if (s.active peer).map StateReq.id = some id then some (s.finishActive peer fun req => req)
    else some s
  | .switch, _ => if s.cancelled then none else some { s with cancelled := true }
  | _, _ => none

/-- Any number of events. -/
def run (s : StateSync) (evs : List SyncEvent) : Option StateSync := evs.foldlM step s

end

/-! ## Who holds a hash -/

/-- A request that is out, finished but not delivered, or in the hands of the loop. -/
def Outstanding (s : StateSync) (req : StateReq) : Prop :=
  (∃ peer, s.active peer = some req) ∨ req ∈ s.finished ∨ s.phase.req = some req

/-- A hash is in the task set of such a request. -/
def Requested (s : StateSync) (x : Hash) : Prop := ∃ req, s.Outstanding req ∧ ∃ t, (x, t) ∈ req.tasks

/-- A hash is in the scheduler's queue, among the tasks or in a request. -/
def Held (s : StateSync) (x : Hash) : Prop := s.sched.Queued x ∨ (∃ t, (x, t) ∈ s.tasks) ∨ s.Requested x

/-- Nothing that the trie scheduler waits for is lost. -/
def Safe (s : StateSync) : Prop := ∀ x, s.sched.Waits x → s.Held x

/-- The sync has neither finished nor been given up for another root. -/
def Running (s : StateSync) : Prop := s.cancelled = false ∧ ∀ err, s.phase ≠ .done err

end StateSync

/-! ## Moving tasks -/

variable {x : Hash} {req : StateReq}

theorem mem_putTask {tasks : StateTasks} {h : Hash} {t : StateTask} (hx : x = h ∨ ∃ t', (x, t') ∈ tasks) :
    ∃ t', (x, t') ∈ putTask tasks h t := by
  by_cases heq : x = h
  · exact ⟨t, mem_append_right _ (heq ▸ mem_singleton_self _)⟩
  · obtain ⟨t', ht'⟩ := hx.resolve_left heq
    exact ⟨t', mem_append_left _ (Table.mem_erase.mpr ⟨ht', heq⟩)⟩

theorem mem_putTasks : ∀ {new : List Hash} {tasks : StateTasks}, (x ∈ new ∨ ∃ t, (x, t) ∈ tasks) →
    ∃ t, (x, t) ∈ new.foldl (fun tasks h => putTask tasks h {}) tasks
  | [], _, hx => hx.resolve_left not_mem_nil
  | h :: new, tasks, hx => by
    apply @mem_putTasks new (putTask tasks h {})
    rcases hx with hx | hx
    · rcases mem_cons.mp hx with rfl | hx
      · exact .inr (mem_putTask (.inl rfl))
      · exact .inl hx
    · exact .inr (mem_putTask (.inr hx))

theorem mem_takeTasks (peer : PeerId) {t : StateTask} : ∀ {n : Nat} {todo : StateTasks}, (x, t) ∈ todo →
    (∃ t', (x, t') ∈ (takeTasks peer n todo).1) ∨ (x, t) ∈ (takeTasks peer n todo).2
  | 0, _, hx => .inr (by unfold takeTasks; exact hx)
  | n + 1, (h, t') :: todo, hx => by
    unfold takeTasks
    split
    · rcases mem_cons.mp hx with heq | hx
      · exact .inr (heq ▸ mem_cons_self)
      · exact (mem_takeTasks peer hx).imp_right (mem_cons_of_mem _)
    · rcases mem_cons.mp hx with heq | hx
      · cases heq
        exact .inl ⟨_, mem_cons_self⟩
      · exact (mem_takeTasks peer hx).imp_left fun ⟨t', ht'⟩ => ⟨t', mem_cons_of_mem _ ht'⟩

theorem mem_putBack {npeers : Nat} : ∀ {todo tasks tasks' : StateTasks},
    putBack req npeers todo tasks = .ok tasks' → ((∃ t, (x, t) ∈ todo) ∨ ∃ t, (x, t) ∈ tasks) → ∃ t, (x, t) ∈ tasks'
  | [], tasks, tasks', hput, hx => by
    cases hput
    exact hx.resolve_left fun ⟨t, ht⟩ => not_mem_nil ht
  | (h, t) :: todo, tasks, tasks', hput, hx => by
    unfold putBack at hput
    split at hput
    · cases hput
    refine mem_putBack hput ?_
    rcases hx with ⟨t', ht'⟩ | hx
    · rcases mem_cons.mp ht' with heq | ht'
      · cases heq
        exact .inr (mem_putTask (.inl rfl))
      · exact .inl ⟨t', ht'⟩
    · exact .inr (mem_putTask (.inr hx))

/-! ## What each event keeps -/

namespace StateSync
variable {s s' : StateSync} {stale : Bool}

/-- With the scheduler unchanged, it is enough that no holder lets go of a hash. -/
theorem Safe.of_held (hs : s.Safe) (hsched : s'.sched = s.sched) (hheld : ∀ x, s.Held x → s'.Held x) : s'.Safe := by
  intro x hx
  rw [hsched] at hx
  exact hheld x (hs x hx)

/-- A change of the phase that drops no request. -/
theorem Safe.setPhase (hs : s.Safe) {phase : Phase} (hreq : s.phase.req = none ∨ s.phase.req = phase.req) :
    Safe { s with phase := phase } := by
  refine hs.of_held rfl fun x hx => ?_
  rcases hx with hq | ht | ⟨req, hout, ht⟩
  · exact .inl hq
  · exact .inr (.inl ht)
  · refine .inr (.inr ⟨req, ?_, ht⟩)
    rcases hout with ha | hf | hp
    · exact .inl ha
    · exact .inr (.inl hf)
    · rcases hreq with hreq | hreq
      · rw [hreq] at hp
        cases hp
      · exact .inr (.inr (hreq ▸ hp))

theorem Safe.finishActive (hs : s.Safe) (peer : PeerId) {f : StateReq → StateReq} (hf : ∀ req, (f req).tasks = req.tasks) :
    (s.finishActive peer f).Safe := by
  unfold StateSync.finishActive
  cases hact : s.active peer with
  | none => exact hs
  | some old =>
    refine hs.of_held rfl fun x hx => ?_
    rcases hx with hq | ht | ⟨req, hout, ht⟩
    · exact .inl hq
    · exact .inr (.inl ht)
    refine .inr (.inr ?_)
    rcases hout with ⟨p, hp⟩ | hfin | hph
    · by_cases hpeer : p = peer
      · -- this is the request that is finished
        subst hpeer
        rw [hact] at hp
        cases hp
        exact ⟨f old, .inr (.inl (mem_append_right _ (mem_singleton_self _))), (hf old).symm ▸ ht⟩
      · exact ⟨req, .inl ⟨p, (update_of_ne hpeer ..).trans hp⟩, ht⟩
    · exact ⟨req, .inr (.inl (mem_append_left _ hfin)), ht⟩
    · exact ⟨req, .inr (.inr hph), ht⟩

theorem active_finishActive (s : StateSync) (peer : PeerId) (f : StateReq → StateReq) :
    (s.finishActive peer f).active peer = none := by
  unfold StateSync.finishActive
  cases hact : s.active peer with
  | none => exact hact
  | some old => exact update_self ..

theorem frame_finishActive (s : StateSync) (peer : PeerId) (f : StateReq → StateReq) :
    (s.finishActive peer f).phase = s.phase ∧ (s.finishActive peer f).cancelled = s.cancelled := by
  unfold StateSync.finishActive
  cases s.active peer <;> exact ⟨rfl, rfl⟩

/-- A request goes from the loop to those that are out. -/
theorem Safe.trackStateReq (hs : s.Safe) {peers : List (PeerId × Nat)} (hphase : s.phase = .track req peers) :
    Safe { s.trackStateReq req with phase := .assign peers } := by
  have hfin := hs.finishActive req.peer (f := fun old => { old with dropped := true }) fun _ => rfl
  refine hfin.of_held rfl fun x hx => ?_
  rcases hx with hq | ht | ⟨old, hout, ht⟩
  · exact .inl hq
  · exact .inr (.inl ht)
  refine .inr (.inr ⟨old, ?_, ht⟩)
  rcases hout with ⟨p, hp⟩ | hf | hph
  · refine .inl ⟨p, ?_⟩
    have hne : p ≠ req.peer := by
      intro heq
      rw [heq, active_finishActive] at hp
      cases hp
    exact (update_of_ne hne ..).trans hp
  · exact .inr (.inl hf)
  · rw [(frame_finishActive ..).1, hphase] at hph
    cases hph
    exact .inl ⟨req.peer, update_self ..⟩

theorem Safe.deliver (hs : s.Safe) (hphase : s.phase = .wait) (h : s.deliver = some s') : s'.Safe := by
  unfold StateSync.deliver at h
  cases hfin : s.finished with
  | nil => rw [hfin] at h; cases h
  | cons first finished =>
    rw [hfin] at h
    cases h
    refine hs.of_held rfl fun x hx => ?_
    rcases hx with hq | ht | ⟨req, hout, ht⟩
    · exact .inl hq
    · exact .inr (.inl ht)
    refine .inr (.inr ⟨req, ?_, ht⟩)
    rcases hout with ha | hf | hph
    · exact .inl ha
    · rw [hfin] at hf
      rcases mem_cons.mp hf with rfl | hf
      · exact .inr (.inr rfl)
      · exact .inr (.inl hf)
    · rw [hphase] at hph
      cases hph

theorem Safe.requeue (hs : s.Safe) {npeers : Nat} {order : StateTasks}
    (hphase : s.phase = .process req [] stale) (horder : order.Perm req.tasks)
    (hrun : ∀ err, (s.requeue req npeers order).phase ≠ .done err) : (s.requeue req npeers order).Safe := by
  unfold StateSync.requeue at hrun ⊢
  cases hput : putBack req npeers order s.tasks with
  | error err => rw [hput] at hrun; exact absurd rfl (hrun _)
  | ok tasks =>
    refine hs.of_held rfl fun x hx => ?_
    rcases hx with hq | ht | ⟨old, hout, ht⟩
    · exact .inl hq
    · exact .inr (.inl (mem_putBack hput (.inr ht)))
    rcases hout with ha | hf | hph
    · exact .inr (.inr ⟨old, .inl ha, ht⟩)
    · exact .inr (.inr ⟨old, .inr (.inl hf), ht⟩)
    · rw [hphase] at hph
      cases hph
      obtain ⟨t, ht⟩ := ht
      exact .inr (.inl (mem_putBack hput (.inl ⟨t, horder.mem_iff.mpr ht⟩)))

theorem Safe.refill (hs : s.Safe) (n : Nat) : (s.refill n).Safe := by
  unfold StateSync.refill
  split
  · intro x hx
    rcases hs x hx with hq | ht | hr
    · rcases s.sched.missing_queued (n - s.tasks.length) hq with hnew | hq
      · exact .inr (.inl (mem_putTasks (.inl hnew)))
      · exact .inl hq
    · exact .inr (.inl (mem_putTasks (.inr ht)))
    · exact .inr (.inr hr)
  · exact hs

theorem phase_refill (s : StateSync) (n : Nat) : (s.refill n).phase = s.phase := by
  unfold StateSync.refill
  split <;> rfl

theorem Safe.assign (hs : s.Safe) {peer : PeerId} {n : Nat} {peers : List (PeerId × Nat)} {order : StateTasks}
    (hphase : s.phase.req = none) (horder : order.Perm s.tasks) : (s.assign peer n peers order).Safe := by
  refine hs.of_held rfl fun x hx => ?_
  rcases hx with hq | ⟨t, ht⟩ | ⟨req, hout, ht⟩
  · exact .inl hq
  · rcases mem_takeTasks peer (n := n) (horder.mem_iff.mpr ht) with ⟨t', htaken⟩ | hleft
    · -- something was taken, so that the request is sent
      refine .inr (.inr ⟨(s.fillTasks n peer order).1, .inr (.inr ?_), t', htaken⟩)
      have hlen : 0 < (s.fillTasks n peer order).1.items.length :=
        length_pos_of_mem (mem_map.mpr ⟨_, htaken, rfl⟩)
      show (if 0 < (s.fillTasks n peer order).1.items.length then Phase.track (s.fillTasks n peer order).1 peers
        else .assign peers).req = _
      rw [if_pos hlen]
      rfl
    · exact .inr (.inl ⟨t, hleft⟩)
  · refine .inr (.inr ⟨req, ?_, ht⟩)
    rcases hout with ha | hf | hph
    · exact .inl ha
    · exact .inr (.inl hf)
    · rw [hphase] at hph
      cases hph

theorem Safe.commit (hs : s.Safe) (force wrote : Bool) : (s.commit force wrote).2.Safe := by
  unfold StateSync.commit
  split
  · exact hs
  · dsimp only
    split <;> exact hs

theorem frame_commit (s : StateSync) (force wrote : Bool) :
    (s.commit force wrote).2.phase = s.phase ∧ (s.commit force wrote).2.cancelled = s.cancelled := by
  unfold StateSync.commit
  split
  · exact ⟨rfl, rfl⟩
  · dsimp only
    split <;> exact ⟨rfl, rfl⟩

theorem Safe.turn (hs : s.Safe) (hphase : s.phase = .head) (peers : List (PeerId × Nat)) (wrote : Bool) :
    (s.turn peers wrote).Safe := by
  have hreq : ∀ force, (s.commit force wrote).2.phase.req = none := fun force => by rw [(frame_commit ..).1, hphase]; rfl
  unfold StateSync.turn
  split
  · exact (hs.commit true wrote).setPhase (.inl (hreq true))
  · have hcommit := hs.commit false wrote
    have hreq := hreq false
    cases hc : s.commit false wrote with
    | mk err s1 =>
      rw [hc] at hcommit hreq
      cases err with
      | none | some err => exact hcommit.setPhase (.inl hreq)

/-! The loop cancels nothing. -/

section
variable (s : StateSync)

theorem cancelled_turn (peers : List (PeerId × Nat)) (wrote : Bool) :
    (s.turn peers wrote).cancelled = s.cancelled := by
  unfold StateSync.turn
  split
  · exact (frame_commit s true wrote).2
  · have h := (frame_commit s false wrote).2
    cases hc : s.commit false wrote with
    | mk err s1 =>
      rw [hc] at h
      cases err <;> exact h

theorem cancelled_refill (n : Nat) : (s.refill n).cancelled = s.cancelled := by
  unfold StateSync.refill
  split <;> rfl

theorem cancelled_requeue (req : StateReq) (npeers : Nat) (order : StateTasks) :
    (s.requeue req npeers order).cancelled = s.cancelled := by
  unfold StateSync.requeue
  split <;> rfl

end

theorem running_finishActive {peer : PeerId} {f : StateReq → StateReq} (h : (s.finishActive peer f).Running) : s.Running :=
  ⟨(frame_finishActive s peer f).2.symm.trans h.1, (frame_finishActive s peer f).1 ▸ h.2⟩

theorem init_safe (root : Hash) (stateDB : Hash → Option Bytes) : (init root stateDB).Safe := by
  -- before the root is added nothing is waited for
  have hidle : ∀ x, ¬ (idle stateDB).Waits x := fun x hx => nomatch hx.choose_spec.1
  intro x hx
  refine .inl ?_
  have hasked := asked_addSubTrie (.idle stateDB) root 0 (.zero 32) (some accountLeaf)
  change (newTrieSync root stateDB (some accountLeaf)).Waits x at hx
  show (newTrieSync root stateDB (some accountLeaf)).Queued x
  unfold newTrieSync at hx ⊢
  cases hadd : (idle stateDB).addSubTrie root 0 (.zero 32) (some accountLeaf) with
  | error e => rw [hadd] at hx; exact absurd hx (hidle x)
  | ok sched =>
    rw [hadd] at hasked hx
    exact TrieSync.Queues.not_waits hasked (hidle x) hx

section
variable [Crypto]

/-- A hash leaves the task set of a request when the scheduler has taken its data, or did
not wait for it. -/
theorem Safe.processed (hs : s.Safe) {blob : Bytes} {blobs : List Bytes}
    (hphase : s.phase = .process req (blob :: blobs) stale) {sched : TrieSync} {n : Nat} {stale' : Bool}
    (hqueues : s.sched.Queues sched) (hdone : sched.Waits (keccak256 blob) → sched.Queued (keccak256 blob)) :
    Safe { s with
      sched := sched, bytesUncommitted := n, phase := .process (req.served (keccak256 blob)) blobs stale' } := by
  intro x hx
  by_cases heq : x = keccak256 blob
  · subst heq
    exact .inl (hdone hx)
  rcases hqueues.waits x hx with hw | hq
  · rcases hs x hw with hq | ht | ⟨old, hout, t, ht⟩
    · exact .inl (hqueues.queue x hq)
    · exact .inr (.inl ht)
    refine .inr (.inr ?_)
    rcases hout with ha | hf | hph
    · exact ⟨old, .inl ha, t, ht⟩
    · exact ⟨old, .inr (.inl hf), t, ht⟩
    · rw [hphase] at hph
      cases hph
      exact ⟨_, .inr (.inr rfl), t, Table.mem_erase.mpr ⟨ht, heq⟩⟩
  · exact .inl hq

theorem process_singleton (s : TrieSync) (item : Hash × Bytes) :
    s.process [item] = match s.processItem item with
      | .ok c s' => ((c, 0, none), s')
      | .error e s' => ((false, 0, some e), s') := by
  unfold process processFrom
  cases s.processItem item with
  | error e s' => rfl
  | ok c s' => simp [processFrom]

theorem Safe.processBlob (hs : s.Safe) {blob : Bytes} {blobs : List Bytes}
    (hphase : s.phase = .process req (blob :: blobs) stale)
    (hrun : ∀ err, (s.processBlob req blob blobs stale).phase ≠ .done err) :
    (s.processBlob req blob blobs stale).Safe := by
  have hitem := delivered_processItem s.sched (keccak256 blob, blob)
  unfold StateSync.processBlob at hrun ⊢
  dsimp only at hrun ⊢
  rw [process_singleton] at hrun ⊢
  cases hp : s.sched.processItem (keccak256 blob, blob) with
  | ok c sched =>
    rw [hp] at hitem
    exact hs.processed hphase hitem.1 hitem.2
  | error e sched =>
    rw [hp] at hitem hrun
    have hunchanged : sched = s.sched ∧ ¬ s.sched.Waits (keccak256 blob) →
        ∀ stale', Safe { s with sched := sched, phase := .process (req.served (keccak256 blob)) blobs stale' } := by
      intro h stale'
      obtain ⟨rfl, hnot⟩ := h
      exact hs.processed hphase (.refl _) fun hw => absurd hw hnot
    cases e with
    | notRequested | alreadyProcessed => exact hunchanged hitem _
    | decode | leaf | noAncestor => exact absurd rfl (hrun _)

/-! ## Whole runs -/

theorem cancelled_processBlob (s : StateSync) (req : StateReq) (blob : Bytes) (blobs : List Bytes) (stale : Bool) :
    (s.processBlob req blob blobs stale).cancelled = s.cancelled := by
  unfold StateSync.processBlob
  dsimp only
  split <;> rfl

/-- One event. The sync ran before it, if it runs after it. -/
theorem step_safe {ev : SyncEvent} (h : s.step ev = some s') (hs : s.Running → s.Safe) (hrun : s'.Running) : s'.Safe := by
  obtain ⟨hcan, hdone⟩ := hrun
  unfold step at h
  split at h
  case h_1 peers wrote hphase =>
    cases h
    rw [cancelled_turn] at hcan
    exact (hs ⟨hcan, fun _ => hphase ▸ nofun⟩).turn hphase peers wrote
  case h_2 order peer n peers hphase =>
    split at h
    next horder =>
      cases h
      have hcan : s.cancelled = false := (cancelled_refill s n).symm.trans hcan
      refine ((hs ⟨hcan, fun _ => hphase ▸ nofun⟩).refill n).assign ?_ horder
      rw [phase_refill, hphase]
      rfl
    · cases h
  case h_3 req peers hphase =>
    cases h
    split at hcan
    next hcan' =>
      rw [hcan'] at hcan
      cases hcan
    next hcan' =>
      rw [if_neg hcan']
      exact (hs ⟨Bool.not_eq_true _ ▸ hcan', fun _ => hphase ▸ nofun⟩).trackStateReq hphase
  case h_4 hphase | h_5 hphase =>
    cases h
    exact (hs ⟨hcan, fun _ => hphase ▸ nofun⟩).setPhase (.inl (hphase ▸ rfl))
  case h_6 hphase =>
    split at h
    · cases h
      exact absurd rfl (hdone _)
    · cases h
  case h_7 hphase =>
    split at h
    · cases h
    next hcan' =>
      exact (hs ⟨Bool.not_eq_true _ ▸ hcan', fun _ => hphase ▸ nofun⟩).deliver hphase h
  case h_8 req blob blobs stale hphase =>
    cases h
    rw [cancelled_processBlob] at hcan
    exact (hs ⟨hcan, fun _ => hphase ▸ nofun⟩).processBlob hphase hdone
  case h_9 npeers order req stale hphase =>
    split at h
    next horder =>
      cases h
      rw [cancelled_requeue] at hcan
      exact (hs ⟨hcan, fun _ => hphase ▸ nofun⟩).requeue hphase horder hdone
    · cases h
  case h_10 peer _ | h_11 peer =>
    split at h
    · cases h
    · cases h
      exact (hs (running_finishActive ⟨hcan, hdone⟩)).finishActive peer fun _ => rfl
  case h_12 peer id =>
    split at h
    · cases h
    split at h
    · cases h
      exact (hs (running_finishActive ⟨hcan, hdone⟩)).finishActive peer fun _ => rfl
    · cases h
      exact hs ⟨hcan, hdone⟩
  case h_13 =>
    split at h
    · cases h
    · cases h
      cases hcan
  case h_14 => cases h

theorem run_safe : ∀ {evs : List SyncEvent} {s s' : StateSync}, s.run evs = some s' → (s.Running → s.Safe) → s'.Running → s'.Safe
  | [], s, s', h, hs, hrun => by
    cases h
    exact hs hrun
  | ev :: evs, s, s', h, hs, hrun => by
    unfold run at h
    rw [foldlM_cons] at h
    obtain ⟨s1, h1, h⟩ := Option.bind_eq_some_iff.mp h
    exact run_safe h (step_safe h1 hs) hrun

/-- **No missing node is lost.** While a sync runs, every hash that the trie scheduler waits
for is in the scheduler's queue, among the tasks, or in the task set of a request; so that
nothing is missing when all of them are empty. -/
theorem waiting_hash_held (root : Hash) (stateDB : Hash → Option Bytes) (evs : List SyncEvent) (s : StateSync)
    (h : (init root stateDB).run evs = some s) (hrun : s.Running) : (∀ x, s.sched.Waits x → s.Held x) ∧
      (s.sched.queue = [] → s.tasks = [] → (∀ req, ¬ s.Outstanding req) → ∀ x, ¬ s.sched.Waits x) := by
  have hsafe : s.Safe := run_safe h (fun _ => init_safe root stateDB) hrun
  refine ⟨hsafe, ?_⟩
  intro hqueue htasks hreqs x hx
  rcases hsafe x hx with ⟨d, hd⟩ | ⟨t, ht⟩ | ⟨req, hout, -⟩
  · rw [hqueue] at hd
    cases hd
  · rw [htasks] at ht
    cases ht
  · exact hreqs req hout

end

/-! ## A root that nobody has been asked for -/

namespace OneRoot

/-- The first bytes as hash. -/
scoped instance : Crypto where
  keccak256 b := .ofBytes 32 (b.take 32)
  keccak512 b := .ofBytes 64 b
  ecrecover _ _ := none

def root : Hash := .ofBytes 32 [1]

/-- A peer is asked for the root and leaves. -/
def departure : List SyncEvent := [.round [("a", 1)] true, .fill [(root, {})], .track, .assigned, .peerDrop "a"]

theorem departed_root_held : ∃ s, (init root fun _ => none).run departure = some s ∧ s.Running ∧ s.Held root :=
  ⟨_, rfl, ⟨rfl, nofun⟩, (waiting_hash_held root (fun _ => none) departure _ rfl ⟨rfl, nofun⟩).1 root ⟨_, rfl, rfl⟩⟩

/-- At the start the root is missing, and neither a task nor a request is there. -/
theorem fresh_root_missing : ∃ s, (init root fun _ => none).run [] = some s ∧ s.Running ∧ s.tasks = [] ∧
    (∀ req, ¬ s.Outstanding req) ∧ s.sched.Waits root := by
  refine ⟨_, rfl, ⟨rfl, nofun⟩, rfl, ?_, _, rfl, rfl⟩
  intro req hout
  rcases hout with ⟨peer, hp⟩ | hf | hph
  · cases hp
  · cases hf
  · cases hph

end OneRoot

end StateSync

end Bgmchain.Downloader
