import Bgmchain.Trie.SyncRuns

/-! # What the trie scheduler waits for

A hash that the scheduler comes to wait for is put into its queue at the same time, and a
queue loses nothing but what `Missing` takes from it. This needs nothing of the hashes. -/
namespace Bgmchain.TrieSync
open Common Lib

/-- The data of a node is still to come. -/
def Waits (s : TrieSync) (x : Hash) : Prop := ∃ r, s.request x = some r ∧ r.data = none

/-- A hash in the queue. -/
def Queued (s : TrieSync) (x : Hash) : Prop := ∃ depth, (x, depth) ∈ s.queue

/-- A later state, in which the hashes waited for anew are in the queue. -/
structure Queues (s s' : TrieSync) : Prop where
  queue : ∀ x, s.Queued x → s'.Queued x
  waits : ∀ x, s'.Waits x → s.Waits x ∨ s'.Queued x

theorem Queues.refl (s : TrieSync) : Queues s s := ⟨fun _ h => h, fun _ h => .inl h⟩

theorem Queues.trans {s s' s'' : TrieSync} (h : Queues s s') (h' : Queues s' s'') : Queues s s'' := by
  refine ⟨fun x hx => h'.queue x (h.queue x hx), ?_⟩
  intro x hx
  rcases h'.waits x hx with hx | hx
  · exact (h.waits x hx).imp_right (h'.queue x)
  · exact .inr hx

/-- What is not waited for is waited for later only as part of the queue. -/
theorem Queues.not_waits {s s' : TrieSync} (h : Queues s s') {x : Hash} (hx : ¬ s.Waits x) : s'.Waits x → s'.Queued x :=
  fun hw => (h.waits x hw).resolve_left hx

variable {s s' : TrieSync}

theorem request_modify {h : Hash} {f : Request → Request} (hf : ∀ r, (f r).hash = r.hash) (x : Hash) :
    (s.modify h f).request x = (s.request x).map fun r => if r.hash = h then f r else r := Table.find_modify hf x

theorem hash_of_request {x : Hash} {r : Request} (h : s.request x = some r) : r.hash = x := (Table.mem_of_find h).2

theorem queues_modify {h : Hash} {f : Request → Request} (hf : ∀ r, (f r).hash = r.hash)
    (hdata : ∀ r, (f r).data = none → r.data = none) : Queues s (s.modify h f) := by
  refine ⟨fun _ hx => hx, ?_⟩
  intro x hx
  obtain ⟨r', hr', hd⟩ := hx
  rw [request_modify hf, Option.map_eq_some_iff] at hr'
  obtain ⟨r, hr, rfl⟩ := hr'
  refine .inl ⟨r, hr, ?_⟩
  split at hd
  · exact hdata r hd
  · exact hd

/-- Data that came is no longer waited for. -/
theorem not_waits_setData (s : TrieSync) (h : Hash) (data : Bytes) :
    ¬ (s.modify h fun r => { r with data := some data }).Waits h := by
  intro hw
  obtain ⟨r', hr', hd⟩ := hw
  rw [request_modify (f := fun r => { r with data := some data }) fun _ => rfl, Option.map_eq_some_iff] at hr'
  obtain ⟨r, hr, rfl⟩ := hr'
  rw [if_pos (hash_of_request hr)] at hd
  cases hd

theorem queues_setData (h : Hash) (data : Bytes) : Queues s (s.modify h fun r => { r with data := some data }) :=
  queues_modify (fun _ => rfl) nofun

theorem queues_setDeps (h : Hash) (g : Int → Int) : Queues s (s.modify h fun r => { r with deps := g r.deps }) :=
  queues_modify (fun _ => rfl) fun _ hd => hd

theorem queues_schedule (req : Request) : Queues s (s.schedule req) := by
  unfold schedule
  cases hreq : s.request req.hash with
  | some old => exact queues_modify (fun _ => rfl) fun _ hd => hd
  | none =>
    refine ⟨fun x hx => ?_, fun x hx => ?_⟩
    · obtain ⟨d, hd⟩ := hx
      exact ⟨d, List.mem_append_left _ hd⟩
    · obtain ⟨r, hr, hd⟩ := hx
      by_cases heq : x = req.hash
      · exact .inr ⟨req.depth, List.mem_append_right _ (heq ▸ List.mem_singleton_self _)⟩
      · refine .inl ⟨r, ?_, hd⟩
        -- the request that was added has another hash
        simp only [request, Table.find, List.find?_append] at hr ⊢
        simpa [Ne.symm heq] using hr

theorem queues_enter (req : Request) : Queues s (s.enter req) := by
  refine ⟨fun _ hx => hx, ?_⟩
  intro x hx
  obtain ⟨r, hr, hd⟩ := hx
  have hr : (if x = req.hash then none else s.request x) = some r := (Table.find_erase x).symm.trans hr
  split at hr
  · cases hr
  · exact .inl ⟨r, hr, hd⟩

theorem queues_foldl {α : Type} {step : TrieSync → α → TrieSync} (hstep : ∀ s a, Queues s (step s a)) :
    ∀ (l : List α) (s : TrieSync), Queues s (l.foldl step s)
  | [], s => .refl s
  | a :: l, s => (hstep s a).trans (queues_foldl hstep l (step s a))

/-! ## Committing -/

theorem queues_commitFrom (f : Nat) : ∀ (s : TrieSync) (h : Hash), Queues s (commitFrom f s h) := by
  induction f with
  | zero => exact fun s _ => .refl s
  | succ f ih =>
    intro s h
    have hrelease : ∀ (s : TrieSync) (p : Hash), Queues s (release (commitFrom f) s p) := by
      intro s p
      unfold release
      cases s.request p with
      | none => exact .refl s
      | some parent =>
        dsimp only
        split
        · exact (queues_setDeps p (· - 1)).trans (ih _ p)
        · exact queues_setDeps p (· - 1)
    unfold commitFrom
    cases s.request h with
    | none => exact .refl s
    | some req => exact (queues_enter req).trans (queues_foldl hrelease _ _)

theorem queues_commit (s : TrieSync) (h : Hash) : Queues s (s.commit h) := queues_commitFrom _ s h

/-! ## What a node and its leaves ask for -/

/-- What may come of asking for more nodes. -/
def Asked (s : TrieSync) : Except SyncError TrieSync → Prop
  | .ok s' => Queues s s'
  | .error e => e = .leaf ∨ e = .noAncestor

theorem Asked.refl (s : TrieSync) : Asked s (.ok s) := Queues.refl s

theorem Asked.trans (h : Queues s s') {r : Except SyncError TrieSync} (h' : Asked s' r) : Asked s r := by
  cases r with
  | ok s'' => exact Queues.trans h h'
  | error e => exact h'

theorem asked_link (s : TrieSync) (parent : Hash) (req : Request) : Asked s (s.link parent req) := by
  unfold link
  split
  · exact queues_schedule req
  · cases s.request parent with
    | none => exact .inr rfl
    | some a => exact (queues_setDeps parent (· + 1)).trans (queues_schedule _)

theorem asked_addSubTrie (s : TrieSync) (root : Hash) (depth : Nat) (parent : Hash) (callback : Option LeafCallback) :
    Asked s (s.addSubTrie root depth parent callback) := by
  unfold addSubTrie
  split
  · exact .refl s
  split
  · exact .refl s
  split
  · exact .refl s
  exact asked_link s parent _

section
variable [Crypto]

theorem asked_addRawEntry (s : TrieSync) (hash : Hash) (depth : Nat) (parent : Hash) :
    Asked s (s.addRawEntry hash depth parent) := by
  unfold addRawEntry
  split
  · exact .refl s
  split
  · exact .refl s
  split
  · exact .refl s
  exact asked_link s parent _

theorem asked_perform (parent : Hash) (s : TrieSync) (call : LeafCall) : Asked s (perform parent s call) := by
  cases call with
  | subTrie root depth => exact asked_addSubTrie s root depth parent none
  | rawEntry hash depth => exact asked_addRawEntry s hash depth parent

theorem asked_performAll (parent : Hash) : ∀ (calls : List LeafCall) (s : TrieSync),
    Asked s (calls.foldlM (perform parent) s)
  | [], s => .refl s
  | call :: calls, s => by
    rw [List.foldlM_cons]
    have hcall := asked_perform parent s call
    cases hp : perform parent s call with
    | error e => rw [hp] at hcall; exact hcall
    | ok s1 => rw [hp] at hcall; exact .trans hcall (asked_performAll parent calls s1)

theorem asked_leaf (s : TrieSync) (req : Request) (child : Node) : Asked s (s.leaf req child) := by
  unfold leaf
  split
  · split
    · exact .inl rfl
    · exact asked_performAll req.hash _ s
  · exact .refl s

/-- The same for `children`, which keeps its state on an error. -/
def AskedAll (s : TrieSync) : EStateM.Result SyncError TrieSync (List Request) → Prop
  | .ok _ s' => Queues s s'
  | .error e _ => e = .leaf ∨ e = .noAncestor

theorem askedAll_children (req : Request) : ∀ (kids : List (Node × Nat)) (s : TrieSync), AskedAll s (children req kids s)
  | [], s => Queues.refl s
  | child :: rest, s => by
    unfold children
    have hleaf := asked_leaf s req child.1
    cases hl : s.leaf req child.1 with
    | error e => rw [hl] at hleaf; exact hleaf
    | ok s1 =>
      rw [hl] at hleaf
      have hrest := askedAll_children req rest s1
      dsimp only
      cases hc : children req rest s1 with
      | error e s2 => rw [hc] at hrest; exact hrest
      | ok requests s2 => rw [hc] at hrest; exact Queues.trans hleaf hrest

/-! ## A delivery -/

/-- What may come of a delivery. One that is accepted is waited for no longer, unless it is
in the queue again; one that is not waited for changes nothing. -/
def Delivered (s : TrieSync) (h : Hash) : EStateM.Result SyncError TrieSync Bool → Prop
  | .ok _ s' => Queues s s' ∧ (s'.Waits h → s'.Queued h)
  | .error .notRequested s' => s' = s ∧ ¬ s.Waits h
  | .error .alreadyProcessed s' => s' = s ∧ ¬ s.Waits h
  | .error _ _ => True

theorem delivered_processItem (s : TrieSync) (item : Hash × Bytes) : Delivered s item.1 (s.processItem item) := by
  -- an accepted delivery goes on from the state in which the data has been entered
  have haccepted : ∀ {s'}, Queues (s.modify item.1 fun r => { r with data := some item.2 }) s' →
      Queues s s' ∧ (s'.Waits item.1 → s'.Queued item.1) := fun h =>
    ⟨(queues_setData item.1 item.2).trans h, h.not_waits (not_waits_setData s item.1 item.2)⟩
  unfold processItem
  cases hreq : s.request item.1 with
  | none =>
    refine ⟨rfl, fun hw => ?_⟩
    obtain ⟨r, hr, -⟩ := hw
    rw [hreq] at hr
    cases hr
  | some req =>
    dsimp only
    split
    next hdata =>
      refine ⟨rfl, fun hw => ?_⟩
      obtain ⟨r, hr, hnone⟩ := hw
      rw [hreq] at hr
      cases hr
      rw [hnone] at hdata
      cases hdata
    split
    · exact haccepted (queues_commit _ _)
    cases mustDecodeNode item.1 0 item.2 with
    | none => exact trivial
    | some n =>
      dsimp only
      have hkids := askedAll_children req (n.kids req.depth) (s.modify item.1 fun r => { r with data := some item.2 })
      cases hc : children req (n.kids req.depth) (s.modify item.1 fun r => { r with data := some item.2 }) with
      | error e s1 =>
        rw [hc] at hkids
        rcases hkids with rfl | rfl <;> exact trivial
      | ok requests s1 =>
        rw [hc] at hkids
        dsimp only
        split
        · exact haccepted (Queues.trans hkids (queues_commit _ _))
        · exact haccepted (Queues.trans hkids
            ((queues_setDeps item.1 (· + (requests.length : Int))).trans (queues_foldl (fun _ r => queues_schedule r) _ _)))

end

/-! ## Taking from the queue -/

theorem missing_queued (s : TrieSync) (max : Nat) {x : Hash} (hx : s.Queued x) :
    x ∈ (s.missing max).1 ∨ (s.missing max).2.Queued x := by
  obtain ⟨d, hd⟩ := hx
  exact (popItems_cases (if max = 0 then s.queue.length else max) _ hd).imp_right fun h => ⟨d, h⟩

end Bgmchain.TrieSync
