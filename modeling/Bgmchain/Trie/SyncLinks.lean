import Bgmchain.Trie.Sync

/-! # What the download scheduler keeps up

The requests, the batch and the database of a scheduler are tied together: a request
whose data has come waits for what its node refers to and that is not stored, a batch
refers to what stands before it, and the database is closed. What a string refers to
depends on what it was asked for as. Where one hash may be asked for as several things,
only what all of them refer to is sure to be stored with it. -/
namespace Bgmchain
open Common Lib List Function

/-- What a string is asked for as: raw, or as a node with a callback for its leaves. -/
abbrev Kind := Bool × Option LeafCallback

def Request.kind (r : Request) : Kind := (r.raw, r.callback)

/-- What is fixed for a scheduler: what each hash may be asked for as, the data that may
come for it, what may be in the database, the references that are sure to be stored with a
string, and which hashes `Missing` has handed out. -/
structure Plan where
  asked : Hash → Kind → Prop
  right : Hash → Bytes → Prop
  stored : Hash → Bytes → Prop
  keeps : Hash → Bytes → Hash → Prop
  handed : Hash → Prop

section
variable [Crypto]

def LeafCall.target : LeafCall → List Hash
  | .subTrie root _ => if root = emptyRoot then [] else [root]
  | .rawEntry hash _ => if hash = TrieSync.emptyState then [] else [hash]

/-- What a child of a node refers to. -/
def childRefs (callback : Option LeafCallback) : Node → List Hash
  | .hash h => [h]
  | .value v => ((callback.bind fun f => f v).getD []).flatMap LeafCall.target
  | _ => []

/-- What a string refers to, as a thing of its kind. -/
def refs (kind : Kind) (h : Hash) (data : Bytes) : List Hash :=
  if kind.1 then []
  else
    match mustDecodeNode h 0 data with
    | none => []
    | some n => (n.kids 0).flatMap fun child => childRefs kind.2 child.1

/-- What a callback asks for may be asked for. -/
def LeafCall.Suits (asked : Hash → Kind → Prop) : LeafCall → Prop
  | .subTrie root _ => root ≠ emptyRoot → asked root (false, none)
  | .rawEntry hash _ => hash ≠ TrieSync.emptyState → asked hash (true, none)

/-- A child whose references may be asked for and that passes the callback. -/
def ChildSuits (asked : Hash → Kind → Prop) (callback : Option LeafCallback) : Node → Prop
  | .hash h => asked h (false, callback)
  | .value v => ∀ f, callback = some f → ∃ calls, f v = some calls ∧ ∀ call ∈ calls, call.Suits asked
  | _ => True

/-- A string that can be taken as a thing of its kind. The zero hash stands for no parent. -/
structure Suits (W : Plan) (kind : Kind) (h : Hash) (data : Bytes) : Prop where
  keeps : ∀ c, W.keeps h data c → c ∈ refs kind h data
  zero : kind.2.isSome → h ≠ .zero 32
  children : kind.1 = false → ∃ n, mustDecodeNode h 0 data = some n ∧
    ∀ child ∈ n.kids 0, ChildSuits W.asked kind.2 child.1

/-- A plan by which all right data can be taken. -/
structure Plan.Sound (W : Plan) : Prop where
  suits : ∀ h kind d, W.asked h kind → W.right h d → Suits W kind h d
  stored : ∀ h d, W.right h d → W.stored h d
  decodes : ∀ h kind d, W.asked h kind → kind.1 = false → W.stored h d → ∃ n, mustDecodeNode h 0 d = some n

end

theorem Node.map_fst_kids (n : Node) (depth : Nat) : (n.kids depth).map Prod.fst = (n.kids 0).map Prod.fst := by
  cases n with
  | full cs flags =>
    simp only [Node.kids, map_filterMap]
    congr 1
    funext i
    split <;> rfl
  | _ => rfl

namespace TrieSync

/-- A string that is in the batch or in the database. -/
def Has (s : TrieSync) (h : Hash) : Prop := (s.batch h).isSome ∨ (s.database h).isSome

/-- How often a hash stands among the parents of requests. -/
def openChildren (s : TrieSync) (h : Hash) : Nat := Table.total (fun r => r.parents.count h) s.requests

/-- A later state: nothing that was stored or requested is lost. -/
structure Advances (s s' : TrieSync) : Prop where
  has : ∀ h, s.Has h → s'.Has h
  kept : ∀ r ∈ s.requests, (∃ r' ∈ s'.requests, r'.hash = r.hash ∧ (r.data.isSome → r'.data.isSome)) ∨ s'.Has r.hash

theorem Advances.refl (s : TrieSync) : Advances s s := ⟨fun _ h => h, fun r hr => .inl ⟨r, hr, rfl, fun hd => hd⟩⟩

theorem Advances.trans {s s' s'' : TrieSync} (h : Advances s s') (h' : Advances s' s'') : Advances s s'' := by
  refine ⟨fun x hx => h'.has x (h.has x hx), ?_⟩
  intro r hr
  rcases h.kept r hr with ⟨r', hr', heq, hdata⟩ | hhas
  · rcases h'.kept r' hr' with ⟨r'', hr'', heq', hdata'⟩ | hhas'
    · exact .inl ⟨r'', hr'', heq'.trans heq, fun hd => hdata' (hdata hd)⟩
    · exact .inr (heq ▸ hhas')
  · exact .inr (h'.has _ hhas)

variable {s : TrieSync}

theorem openChildren_pos {h : Hash} (hpos : 0 < s.openChildren h) : ∃ q ∈ s.requests, h ∈ q.parents := by
  obtain ⟨q, hq, hcount⟩ := Table.exists_of_total_pos hpos
  exact ⟨q, hq, count_pos_iff.mp hcount⟩

theorem openChildren_of_mem {h : Hash} {q : Request} (hq : q ∈ s.requests) (hp : h ∈ q.parents) :
    0 < s.openChildren h :=
  (count_pos_iff.mpr hp).trans_le (Table.le_total (w := fun r : Request => r.parents.count h) hq)

theorem mem_setDeps {p : Hash} {g : Int → Int} {r' : Request} :
    r' ∈ (s.modify p fun r => { r with deps := g r.deps }).requests ↔
      ∃ r ∈ s.requests, r' = { r with deps := if r.hash = p then g r.deps else r.deps } := by
  unfold modify
  rw [Table.mem_modify]
  refine exists_congr fun r => and_congr_right fun _ => ?_
  split <;> rfl

theorem advances_setDeps (p : Hash) (g : Int → Int) : Advances s (s.modify p fun r => { r with deps := g r.deps }) :=
  ⟨fun _ h => h, fun _ hr => .inl ⟨_, mem_setDeps.mpr ⟨_, hr, rfl⟩, rfl, fun hd => hd⟩⟩

theorem batch_enter_self (s : TrieSync) (r : Request) : (s.enter r).batch r.hash = some (r.data.getD []) :=
  update_self ..

theorem batch_enter_of_ne {r : Request} {x : Hash} (h : x ≠ r.hash) : (s.enter r).batch x = s.batch x :=
  update_of_ne h ..

section
variable [Crypto]

/-- **What a scheduler keeps up.** `busy` marks a request that is being worked on, `debt`
how many more parents the counters have than the requests. -/
structure Linked (W : Plan) (busy : Hash → Prop) (debt : Hash → Nat) (s : TrieSync) : Prop where
  nodup : (s.requests.map Request.hash).Nodup
  asked : ∀ r ∈ s.requests, W.asked r.hash r.kind
  fresh : ∀ r ∈ s.requests, s.batch r.hash = none
  absent : ∀ r ∈ s.requests, s.database r.hash = none
  counted : ∀ r ∈ s.requests, r.deps = s.openChildren r.hash + debt r.hash
  parents : ∀ q ∈ s.requests, ∀ p ∈ q.parents,
    ∃ r ∈ s.requests, r.hash = p ∧ ∃ d, r.data = some d ∧ q.hash ∈ refs r.kind p d
  owed : ∀ p, debt p ≠ 0 → ∃ r ∈ s.requests, r.hash = p ∧ r.data.isSome
  waiting : ∀ r ∈ s.requests, ¬ busy r.hash → r.data.isSome → 0 < r.deps
  links : ∀ r ∈ s.requests, ¬ busy r.hash → ∀ d, r.data = some d → ∀ c ∈ refs r.kind r.hash d,
    s.Has c ∨ ∃ q ∈ s.requests, q.hash = c ∧ r.hash ∈ q.parents
  batched : ∀ h, (s.batch h).isSome ↔ h ∈ s.order
  ordered : ∀ l h rest, s.order = l ++ h :: rest →
    ∃ d, s.batch h = some d ∧ ∀ c, W.keeps h d c → c ∈ l ∨ (s.database c).isSome
  queued : ∀ r ∈ s.requests, r.data = none → W.handed r.hash ∨ ∃ depth, (r.hash, depth) ∈ s.queue
  rightData : ∀ r ∈ s.requests, ∀ d, r.data = some d → W.right r.hash d
  rightBatch : ∀ h d, s.batch h = some d → W.right h d
  rightStore : ∀ h d, s.database h = some d → W.stored h d
  closed : ∀ h d, s.database h = some d → ∀ c, W.keeps h d c → (s.database c).isSome

variable {W : Plan} {busy busy' : Hash → Prop} {debt debt' : Hash → Nat}

/-- A hash with no request has no open children and no debt. -/
theorem Linked.openChildren_eq_zero (h : Linked W busy debt s) {c : Hash} (hc : ∀ r ∈ s.requests, r.hash ≠ c) :
    s.openChildren c = 0 ∧ debt c = 0 := by
  constructor
  · by_contra hne
    obtain ⟨q, hq, hp⟩ := openChildren_pos (Nat.pos_of_ne_zero hne)
    obtain ⟨r, hr, heq, _⟩ := h.parents q hq c hp
    exact hc r hr heq
  · by_contra hne
    obtain ⟨r, hr, heq, _⟩ := h.owed c hne
    exact hc r hr heq

/-! ## Counters -/

/-- Requests may get data and other counters, as long as these count. -/
theorem Linked.map {g : Request → Request} (h : Linked W busy debt s) (hhash : ∀ r, (g r).hash = r.hash)
    (hkind : ∀ r, (g r).kind = r.kind) (hpar : ∀ r, (g r).parents = r.parents)
    (hdata : ∀ r ∈ s.requests, ∀ d, r.data = some d → (g r).data = some d)
    (hright : ∀ r ∈ s.requests, ∀ d, (g r).data = some d → W.right r.hash d)
    (hcount : ∀ r ∈ s.requests, (g r).deps = s.openChildren r.hash + debt' r.hash)
    (howed : ∀ x, debt' x ≠ 0 → ∃ r ∈ s.requests, r.hash = x ∧ r.data.isSome)
    (hbusy : ∀ r ∈ s.requests, ¬ busy' r.hash →
      ¬ busy r.hash ∧ (g r).data = r.data ∧ (r.data.isSome → 0 < (g r).deps)) :
    Linked W busy' debt' { s with requests := s.requests.map g } := by
  have hopen : ∀ x, openChildren { s with requests := s.requests.map g } x = s.openChildren x := by
    intro x
    simp [openChildren, Table.total, comp_def, hpar]
  have hmem : ∀ {r}, r ∈ s.requests → g r ∈ s.requests.map g := mem_map_of_mem
  refine ⟨?_, ?_, ?_, ?_, ?_, ?_, ?_, ?_, ?_, h.batched, h.ordered, ?_, ?_, h.rightBatch, h.rightStore, h.closed⟩
  · simpa [comp_def, hhash] using h.nodup
  · simpa only [forall_mem_map, hhash, hkind] using h.asked
  · simpa only [forall_mem_map, hhash] using h.fresh
  · simpa only [forall_mem_map, hhash] using h.absent
  · simpa only [forall_mem_map, hhash, hopen] using hcount
  · rw [forall_mem_map]
    intro q hq p hp
    obtain ⟨r, hr, heq, d, hd, hc⟩ := h.parents q hq p (hpar q ▸ hp)
    rw [hhash]
    exact ⟨_, hmem hr, (hhash r).trans heq, d, hdata r hr d hd, (hkind r).symm ▸ hc⟩
  · intro x hx
    obtain ⟨r, hr, heq, hd⟩ := howed x hx
    obtain ⟨d, hd⟩ := Option.isSome_iff_exists.mp hd
    exact ⟨_, hmem hr, (hhash r).trans heq, Option.isSome_iff_exists.mpr ⟨d, hdata r hr d hd⟩⟩
  · rw [forall_mem_map]
    intro r hr hb hd
    obtain ⟨_, hsame, hpos⟩ := hbusy r hr (hhash r ▸ hb)
    exact hpos (hsame ▸ hd)
  · rw [forall_mem_map]
    intro r hr hb d hd c hc
    rw [hhash] at hb hc ⊢
    obtain ⟨hb, hsame, _⟩ := hbusy r hr hb
    rcases h.links r hr hb d (hsame ▸ hd) c (hkind r ▸ hc) with hhas | ⟨q, hq, heq, hp⟩
    · exact .inl hhas
    · exact .inr ⟨_, hmem hq, (hhash q).trans heq, (hpar q).symm ▸ hp⟩
  · rw [forall_mem_map]
    intro r hr hd
    rw [hhash]
    refine h.queued r hr (Option.eq_none_iff_forall_ne_some.mpr fun d hd' => ?_)
    rw [hdata r hr d hd'] at hd
    cases hd
  · simpa only [forall_mem_map, hhash] using hright

theorem Linked.setDeps {p : Hash} {g : Int → Int} (h : Linked W busy debt s)
    (hcount : ∀ r ∈ s.requests, (if r.hash = p then g r.deps else r.deps) = s.openChildren r.hash + debt' r.hash)
    (howed : ∀ x, debt' x ≠ 0 → ∃ r ∈ s.requests, r.hash = x ∧ r.data.isSome)
    (hbusy : ∀ r ∈ s.requests, ¬ busy' r.hash →
      ¬ busy r.hash ∧ (r.data.isSome → 0 < if r.hash = p then g r.deps else r.deps)) :
    Linked W busy' debt' (s.modify p fun r => { r with deps := g r.deps }) := by
  have hset : (fun r : Request => if r.hash = p then { r with deps := g r.deps } else r) =
      fun r => { r with deps := if r.hash = p then g r.deps else r.deps } := by
    funext r
    split <;> rfl
  unfold modify Table.modify
  rw [hset]
  exact h.map (fun _ => rfl) (fun _ => rfl) (fun _ => rfl) (fun _ _ _ hd => hd) h.rightData hcount howed
    fun r hr hb => ⟨(hbusy r hr hb).1, rfl, (hbusy r hr hb).2⟩

/-! ## Scheduling -/

/-- A request as it is scheduled, for parents that refer to it. -/
structure Schedulable (W : Plan) (s : TrieSync) (req : Request) : Prop where
  asked : W.asked req.hash req.kind
  data : req.data = none
  deps : req.deps = 0
  fresh : s.batch req.hash = none
  absent : s.database req.hash = none
  parents : ∀ p ∈ req.parents, ∃ r ∈ s.requests, r.hash = p ∧ ∃ d, r.data = some d ∧ req.hash ∈ refs r.kind p d

/-- What scheduling leaves of the requests: only parents are added. -/
structure Schedules (s : TrieSync) (req : Request) (s' : TrieSync) : Prop where
  batch : s'.batch = s.batch
  database : s'.database = s.database
  order : s'.order = s.order
  kept : ∀ r ∈ s.requests, ∃ r' ∈ s'.requests, r'.hash = r.hash ∧ r'.data = r.data ∧ r'.kind = r.kind ∧
    ∀ p ∈ r.parents, p ∈ r'.parents
  made : ∃ r' ∈ s'.requests, r'.hash = req.hash ∧ ∀ p ∈ req.parents, p ∈ r'.parents
  queue : ∀ e ∈ s.queue, e ∈ s'.queue
  pushed : (∀ r ∈ s.requests, r.hash ≠ req.hash) → (req.hash, req.depth) ∈ s'.queue
  only : ∀ r' ∈ s'.requests, (∃ r ∈ s.requests, r'.hash = r.hash ∧ r'.data = r.data ∧ r'.deps = r.deps ∧
    r'.kind = r.kind ∧ ∀ p ∈ r'.parents, p ∈ r.parents ∨ r.hash = req.hash ∧ p ∈ req.parents) ∨
      r' = req ∧ ∀ r ∈ s.requests, r.hash ≠ req.hash
  open_ : ∀ x, s'.openChildren x = s.openChildren x + req.parents.count x
  nodup : (s'.requests.map Request.hash).Nodup

omit [Crypto] in
theorem schedules_schedule (hnd : (s.requests.map Request.hash).Nodup) (req : Request) :
    Schedules s req (s.schedule req) := by
  unfold schedule
  cases hf : s.request req.hash with
  | none =>
    have hnone := Table.find_eq_none.mp hf
    refine ⟨rfl, rfl, rfl, ?_, ?_, ?_, ?_, ?_, ?_, ?_⟩
    · exact fun r hr => ⟨r, mem_append_left _ hr, rfl, rfl, rfl, fun _ hp => hp⟩
    · exact ⟨req, mem_append_right _ mem_cons_self, rfl, fun _ hp => hp⟩
    · exact fun e he => mem_append_left _ he
    · exact fun _ => mem_append_right _ mem_cons_self
    · intro r' hr'
      rcases mem_append.mp hr' with hr' | hr'
      · exact .inl ⟨r', hr', rfl, rfl, rfl, rfl, fun _ hp => .inl hp⟩
      · exact .inr ⟨mem_singleton.mp hr', hnone⟩
    · intro x
      exact (Table.total_append _ _).trans (by simp [Table.total, openChildren])
    · show (List.map _ (_ ++ [req])).Nodup
      rw [map_append, nodup_append]
      refine ⟨hnd, nodup_singleton _, ?_⟩
      intro a ha b hb
      obtain ⟨r, hr, rfl⟩ := mem_map.mp ha
      rw [mem_singleton.mp hb]
      exact hnone r hr
  | some old =>
    obtain ⟨hold, hkey⟩ := Table.mem_of_find hf
    have hmem : ∀ {r' : Request}, r' ∈ (s.modify req.hash fun old => { old with parents := old.parents ++ req.parents }).requests ↔
        ∃ r ∈ s.requests, r' = if r.hash = req.hash then { r with parents := r.parents ++ req.parents } else r :=
      Table.mem_modify
    refine ⟨rfl, rfl, rfl, ?_, ?_, fun e he => he, ?_, ?_, ?_, ?_⟩
    · intro r hr
      refine ⟨_, hmem.mpr ⟨r, hr, rfl⟩, ?_⟩
      split
      · exact ⟨rfl, rfl, rfl, fun _ hp => mem_append_left _ hp⟩
      · exact ⟨rfl, rfl, rfl, fun _ hp => hp⟩
    · refine ⟨_, hmem.mpr ⟨old, hold, rfl⟩, ?_⟩
      rw [if_pos hkey]
      exact ⟨hkey, fun _ hp => mem_append_right _ hp⟩
    · exact fun hnew => absurd hkey (hnew old hold)
    · intro r' hr'
      obtain ⟨r, hr, rfl⟩ := hmem.mp hr'
      refine .inl ⟨r, hr, ?_⟩
      split
      next heq =>
        exact ⟨rfl, rfl, rfl, rfl, fun p hp => (mem_append.mp hp).imp_right fun hp => ⟨heq, hp⟩⟩
      · exact ⟨rfl, rfl, rfl, rfl, fun p hp => .inl hp⟩
    · intro x
      have := Table.total_modify (w := fun r : Request => r.parents.count x)
        (f := fun old => { old with parents := old.parents ++ req.parents }) hnd hold count_append
      rw [hkey] at this
      exact this
    · exact Table.nodup_modify (fun _ => rfl) hnd

/-- **Scheduling keeps the links**, and pays the debt of the parents. -/
theorem Linked.schedule {req : Request} (h : Linked W busy debt s) (hreq : Schedulable W s req)
    (hdebt : ∀ x, debt x = debt' x + req.parents.count x) : Linked W busy debt' (s.schedule req) := by
  obtain ⟨hbatch, hdb, horder, hkept, _, hqueue, hpushed, honly, hopen, hnodup⟩ := schedules_schedule h.nodup req
  have hlive : ∀ {x}, (∃ r ∈ s.requests, r.hash = x ∧ r.data.isSome) →
      ∃ r ∈ (s.schedule req).requests, r.hash = x ∧ r.data.isSome := by
    intro x hx
    obtain ⟨r, hr, heq, hd⟩ := hx
    obtain ⟨r', hr', heq', hd', _, _⟩ := hkept r hr
    exact ⟨r', hr', heq'.trans heq, hd' ▸ hd⟩
  have href : ∀ {x c}, (∃ r ∈ s.requests, r.hash = x ∧ ∃ d, r.data = some d ∧ c ∈ refs r.kind x d) →
      ∃ r ∈ (s.schedule req).requests, r.hash = x ∧ ∃ d, r.data = some d ∧ c ∈ refs r.kind x d := by
    intro x c hx
    obtain ⟨r, hr, heq, d, hd, hc⟩ := hx
    obtain ⟨r', hr', heq', hd', hkind, _⟩ := hkept r hr
    exact ⟨r', hr', heq'.trans heq, d, hd'.trans hd, hkind ▸ hc⟩
  have hhas : ∀ {c}, s.Has c → (s.schedule req).Has c := by
    intro c hc
    unfold Has
    rw [hbatch, hdb]
    exact hc
  refine ⟨hnodup, ?_, ?_, ?_, ?_, ?_, ?_, ?_, ?_, ?_, ?_, ?_, ?_, ?_, ?_, ?_⟩
  · intro r' hr'
    rcases honly r' hr' with ⟨r, hr, heq, _, _, hkind, _⟩ | ⟨rfl, _⟩
    · rw [heq, hkind]
      exact h.asked r hr
    · exact hreq.asked
  · intro r' hr'
    rw [hbatch]
    rcases honly r' hr' with ⟨r, hr, heq, _⟩ | ⟨rfl, _⟩
    · rw [heq]
      exact h.fresh r hr
    · exact hreq.fresh
  · intro r' hr'
    rw [hdb]
    rcases honly r' hr' with ⟨r, hr, heq, _⟩ | ⟨rfl, _⟩
    · rw [heq]
      exact h.absent r hr
    · exact hreq.absent
  · intro r' hr'
    rw [hopen]
    rcases honly r' hr' with ⟨r, hr, heq, _, hdeps, _⟩ | ⟨rfl, hnew⟩
    · rw [heq, hdeps, h.counted r hr, hdebt]
      push_cast
      omega
    · -- nothing can wait for a request that is new
      obtain ⟨hzero, hnodebt⟩ := h.openChildren_eq_zero hnew
      have := hdebt r'.hash
      rw [hreq.deps, hzero]
      push_cast
      omega
  · intro q' hq' p hp
    rcases honly q' hq' with ⟨q, hq, heq, _, _, _, hpar⟩ | ⟨rfl, _⟩
    · rcases hpar p hp with hp | ⟨hsame, hp⟩
      · rw [heq]
        exact href (h.parents q hq p hp)
      · rw [heq, hsame]
        exact href (hreq.parents p hp)
    · exact href (hreq.parents p hp)
  · intro x hx
    exact hlive (h.owed x (by have := hdebt x; omega))
  · intro r' hr' hb hd
    rcases honly r' hr' with ⟨r, hr, heq, hdata, hdeps, _⟩ | ⟨rfl, _⟩
    · rw [hdeps]
      exact h.waiting r hr (heq ▸ hb) (hdata ▸ hd)
    · rw [hreq.data] at hd
      cases hd
  · intro r' hr' hb d hd c hc
    rcases honly r' hr' with ⟨r, hr, heq, hdata, _, hkind, _⟩ | ⟨rfl, _⟩
    · rw [heq] at hb hc
      rw [hkind] at hc
      rcases h.links r hr hb d (hdata ▸ hd) c hc with hc | ⟨q, hq, hqc, hp⟩
      · exact .inl (hhas hc)
      · obtain ⟨q', hq', heq', _, _, hsub⟩ := hkept q hq
        exact .inr ⟨q', hq', heq'.trans hqc, heq ▸ hsub _ hp⟩
    · rw [hreq.data] at hd
      cases hd
  · rw [hbatch, horder]
    exact h.batched
  · rw [hbatch, horder, hdb]
    exact h.ordered
  · intro r' hr' hd
    rcases honly r' hr' with ⟨r, hr, heq, hdata, _⟩ | ⟨rfl, hnew⟩
    · rw [heq]
      exact (h.queued r hr (hdata ▸ hd)).imp_right fun ⟨depth, he⟩ => ⟨depth, hqueue _ he⟩
    · exact .inr ⟨_, hpushed hnew⟩
  · intro r' hr' d hd
    rcases honly r' hr' with ⟨r, hr, heq, hdata, _⟩ | ⟨rfl, _⟩
    · rw [heq]
      exact h.rightData r hr d (hdata ▸ hd)
    · rw [hreq.data] at hd
      cases hd
  · rw [hbatch]
    exact h.rightBatch
  · rw [hdb]
    exact h.rightStore
  · rw [hdb]
    exact h.closed

/-! ## Committing -/

/-- A request that has all it waits for. -/
def Ripe (s : TrieSync) (r : Request) : Prop :=
  r ∈ s.requests ∧ r.deps = 0 ∧ ∃ d, r.data = some d ∧ ∀ c ∈ refs r.kind r.hash d, s.Has c

/-- A request goes into the batch; its parents are still to be told. -/
theorem Linked.enter (hW : W.Sound) {r : Request} (h : Linked W (· = r.hash) debt s) (hripe : Ripe s r) :
    Linked W (fun _ => False) (fun x => debt x + r.parents.count x) (s.enter r) ∧ Advances s (s.enter r) := by
  obtain ⟨hr, hdeps, d, hd, hrefs⟩ := hripe
  have hcounted := h.counted r hr
  have hnodebt : debt r.hash = 0 := by omega
  -- nobody waits for the request any more
  have hparent : ∀ {q : Request} {p : Hash}, q ∈ s.requests → p ∈ q.parents → p ≠ r.hash := by
    intro q p hq hp heq
    have := openChildren_of_mem hq (heq ▸ hp)
    omega
  have hmem : ∀ {q : Request}, q ∈ s.requests → q.hash ≠ r.hash → q ∈ (s.enter r).requests :=
    fun hq hne => Table.mem_erase.mpr ⟨hq, hne⟩
  have hmem' : ∀ {q : Request}, q ∈ (s.enter r).requests → q ∈ s.requests ∧ q.hash ≠ r.hash :=
    fun hq => Table.mem_erase.mp hq
  have hself : (s.enter r).Has r.hash := .inl (by rw [batch_enter_self]; rfl)
  have hhas : ∀ c, s.Has c → (s.enter r).Has c := by
    intro c hc
    by_cases heq : c = r.hash
    · rw [heq]
      exact hself
    · refine hc.imp_left fun hb => ?_
      rw [batch_enter_of_ne heq]
      exact hb
  have hopen : ∀ x, (s.enter r).openChildren x + r.parents.count x = s.openChildren x :=
    fun x => Table.total_erase h.nodup hr
  refine ⟨⟨Table.nodup_erase h.nodup, ?_, ?_, ?_, ?_, ?_, ?_, ?_, ?_, ?_, ?_, ?_, ?_, ?_, h.rightStore, h.closed⟩, hhas, ?_⟩
  · exact fun q hq => h.asked q (hmem' hq).1
  · intro q hq
    obtain ⟨hq, hne⟩ := hmem' hq
    rw [batch_enter_of_ne hne]
    exact h.fresh q hq
  · exact fun q hq => h.absent q (hmem' hq).1
  · intro q hq
    rw [h.counted q (hmem' hq).1]
    have := hopen q.hash
    push_cast
    omega
  · intro q hq p hp
    have hq := (hmem' hq).1
    obtain ⟨r', hr', heq, hd'⟩ := h.parents q hq p hp
    exact ⟨r', hmem hr' (heq ▸ hparent hq hp), heq, hd'⟩
  · intro x hx
    by_cases hdebt : debt x = 0
    · have hx : x ∈ r.parents := count_pos_iff.mp (by omega)
      obtain ⟨r', hr', heq, d', hd', _⟩ := h.parents r hr x hx
      exact ⟨r', hmem hr' (heq ▸ hparent hr hx), heq, by rw [hd']; rfl⟩
    · obtain ⟨r', hr', heq, hd'⟩ := h.owed x hdebt
      exact ⟨r', hmem hr' fun he => hdebt (by rw [← heq, he]; exact hnodebt), heq, hd'⟩
  · intro q hq _ hdata
    obtain ⟨hq, hne⟩ := hmem' hq
    exact h.waiting q hq hne hdata
  · intro q hq _ d' hd' c hc
    obtain ⟨hq, hne⟩ := hmem' hq
    rcases h.links q hq hne d' hd' c hc with hhas' | ⟨q', hq', heq, hp⟩
    · exact .inl (hhas c hhas')
    · by_cases hsame : q'.hash = r.hash
      · rw [← heq, hsame]
        exact .inl hself
      · exact .inr ⟨q', hmem hq' hsame, heq, hp⟩
  · intro x
    show _ ↔ x ∈ s.order ++ [r.hash]
    by_cases hx : x = r.hash
    · simp [hx, batch_enter_self]
    · simp [batch_enter_of_ne hx, hx, h.batched]
  · intro l x rest hsplit
    rcases eq_nil_or_concat rest with rfl | ⟨rest', y, rfl⟩
    · -- the new entry refers to what was there
      obtain ⟨rfl, hx⟩ := append_inj' hsplit rfl
      cases hx
      refine ⟨d, by rw [batch_enter_self, hd]; rfl, fun c hc => ?_⟩
      have href := (hW.suits r.hash r.kind d (h.asked r hr) (h.rightData r hr d hd)).keeps c hc
      exact (hrefs c href).imp_left fun hb => (h.batched c).mp hb
    · have hsplit' : s.order = l ++ x :: rest' := by
        have : s.order ++ [r.hash] = (l ++ x :: rest') ++ [y] := by simpa [TrieSync.enter] using hsplit
        exact (append_inj' this rfl).1
      obtain ⟨d', hd', hc⟩ := h.ordered l x rest' hsplit'
      have hne : x ≠ r.hash := by
        intro heq
        have := h.fresh r hr
        rw [← heq, hd'] at this
        cases this
      refine ⟨d', ?_, hc⟩
      rw [batch_enter_of_ne hne]
      exact hd'
  · exact fun q hq => h.queued q (hmem' hq).1
  · exact fun q hq => h.rightData q (hmem' hq).1
  · intro x d' hd'
    by_cases hx : x = r.hash
    · rw [hx, batch_enter_self, hd] at hd'
      cases hd'
      rw [hx]
      exact h.rightData r hr d hd
    · rw [batch_enter_of_ne hx] at hd'
      exact h.rightBatch x d' hd'
  · intro q hq
    by_cases hsame : q.hash = r.hash
    · rw [hsame]
      exact .inr hself
    · exact .inl ⟨q, hmem hq hsame, rfl, fun hd => hd⟩

/-- What `commit` does, when there are enough calls left. -/
def Commits (W : Plan) (f : Nat) : Prop :=
  ∀ {s : TrieSync} {debt : Hash → Nat} {r : Request}, s.requests.length ≤ f → Linked W (· = r.hash) debt s → Ripe s r →
    Linked W (fun _ => False) debt (commitFrom f s r.hash) ∧ Advances s (commitFrom f s r.hash) ∧
      (commitFrom f s r.hash).requests.length ≤ s.requests.length

/-- A parent is told, and committed if it waited for nothing else. -/
theorem Linked.release {f : Nat} (hf : Commits W f) {p : Hash} (hlen : s.requests.length ≤ f)
    (h : Linked W (fun _ => False) (fun x => debt x + [p].count x) s) :
    Linked W (fun _ => False) debt (release (commitFrom f) s p) ∧ Advances s (release (commitFrom f) s p) ∧
      (release (commitFrom f) s p).requests.length ≤ s.requests.length := by
  obtain ⟨r, hr, hkey, hdata⟩ := h.owed p (by simp)
  obtain ⟨d, hd⟩ := Option.isSome_iff_exists.mp hdata
  have hcounted := h.counted r hr
  have hone : [p].count r.hash = 1 := by rw [hkey]; simp
  have hother : ∀ {q : Request}, q ∈ s.requests → q.hash ≠ p → [p].count q.hash = 0 := by
    intro q _ hne
    simp [Ne.symm hne]
  have hcount : ∀ q ∈ s.requests,
      (if q.hash = p then q.deps - 1 else q.deps) = s.openChildren q.hash + (debt q.hash : Nat) := by
    intro q hq
    have hq' := h.counted q hq
    split
    next heq =>
      rw [Table.eq_of_key h.nodup hq hr (heq.trans hkey.symm)] at hq' ⊢
      omega
    next hne =>
      rw [hother hq hne] at hq'
      omega
  have howed : ∀ x, debt x ≠ 0 → ∃ q ∈ s.requests, q.hash = x ∧ q.data.isSome := fun x hx => h.owed x (by omega)
  unfold TrieSync.release request
  rw [← hkey, Table.find_of_mem h.nodup hr]
  dsimp only
  rw [hkey]
  by_cases hlast : r.deps - 1 = 0
  · rw [if_pos hlast]
    have hlinked : Linked W (· = r.hash) debt (s.modify p fun r => { r with deps := r.deps - 1 }) := by
      refine h.setDeps (g := (· - 1)) hcount howed fun q hq hne => ⟨fun hb => hb, fun hdq => ?_⟩
      rw [if_neg (hkey ▸ hne)]
      exact h.waiting q hq (fun hb => hb) hdq
    have hripe : Ripe (s.modify p fun r => { r with deps := r.deps - 1 }) { r with deps := r.deps - 1 } := by
      refine ⟨(mem_setDeps (g := (· - 1))).mpr ⟨r, hr, by rw [if_pos hkey]⟩, hlast, d, hd, fun c hc => ?_⟩
      rcases h.links r hr (fun hb => hb) d hd c hc with hhas | ⟨q, hq, _, hp⟩
      · exact hhas
      · have := openChildren_of_mem hq hp
        omega
    obtain ⟨hl, hadv, hlen'⟩ := hf (r := { r with deps := r.deps - 1 })
      ((Table.length_modify).le.trans hlen) hlinked hripe
    rw [hkey] at hl hadv hlen'
    exact ⟨hl, (advances_setDeps p (· - 1)).trans hadv, hlen'.trans (Table.length_modify).le⟩
  · rw [if_neg hlast]
    refine ⟨?_, advances_setDeps p (· - 1), (Table.length_modify).le⟩
    refine h.setDeps (g := (· - 1)) hcount howed fun q hq _ => ⟨fun hb => hb, fun hdq => ?_⟩
    split
    next heq =>
      rw [Table.eq_of_key h.nodup hq hr (heq.trans hkey.symm)]
      omega
    · exact h.waiting q hq (fun hb => hb) hdq

/-- All parents are told. -/
theorem Linked.releaseAll {f : Nat} (hf : Commits W f) {ps : List Hash} :
    ∀ {s : TrieSync}, s.requests.length ≤ f → Linked W (fun _ => False) (fun x => debt x + ps.count x) s →
      Linked W (fun _ => False) debt (ps.foldl (TrieSync.release (commitFrom f)) s) ∧
        Advances s (ps.foldl (TrieSync.release (commitFrom f)) s) ∧
        (ps.foldl (TrieSync.release (commitFrom f)) s).requests.length ≤ s.requests.length := by
  induction ps with
  | nil =>
    intro s _ h
    exact ⟨by simpa using h, .refl s, le_rfl⟩
  | cons p ps ih =>
    intro s hlen h
    have hsplit : (fun x => debt x + (p :: ps).count x) = fun x => debt x + ps.count x + [p].count x := by
      funext x
      rw [← singleton_append, count_append]
      omega
    rw [hsplit] at h
    obtain ⟨hl, hadv, hlen'⟩ := h.release hf hlen
    obtain ⟨hl', hadv', hlen''⟩ := ih (hlen'.trans hlen) hl
    exact ⟨hl', hadv.trans hadv', hlen''.trans hlen'⟩

/-- **Committing keeps the links.** -/
theorem commits (hW : W.Sound) (f : Nat) : Commits W f := by
  induction f with
  | zero =>
    intro s debt r hlen _ hripe
    have := length_pos_of_mem hripe.1
    omega
  | succ f ih =>
    intro s debt r hlen h hripe
    obtain ⟨hl, hadv⟩ := h.enter hW hripe
    have hlt : (s.enter r).requests.length < s.requests.length := Table.length_erase_lt hripe.1
    obtain ⟨hl', hadv', hlen'⟩ := Linked.releaseAll ih (by omega) hl
    unfold commitFrom request
    rw [Table.find_of_mem h.nodup hripe.1]
    exact ⟨hl', hadv.trans hadv', hlen'.trans hlt.le⟩

theorem Linked.commit (hW : W.Sound) {r : Request} (h : Linked W (· = r.hash) debt s) (hripe : Ripe s r) :
    Linked W (fun _ => False) debt (s.commit r.hash) ∧ Advances s (s.commit r.hash) := by
  obtain ⟨hl, hadv, _⟩ := commits hW s.requests.length le_rfl h hripe
  exact ⟨hl, hadv⟩

end

end TrieSync

end Bgmchain
