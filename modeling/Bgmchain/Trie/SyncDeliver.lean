import Bgmchain.Trie.SyncLinks

/-! # Deliveries to the download scheduler

What `Process` does with one result: the data is taken, what it refers to and that is
not stored is asked for, and the request is committed or waits. All of this keeps the
requests, the batch and the database tied together. -/
namespace Bgmchain.TrieSync
open Common Lib List Table LeafCall

section
variable [Crypto] {s : TrieSync} {W : Plan} {busy : Hash → Prop} {debt : Hash → Nat}

/-! ## The children of a node -/

/-- A state that a request is being expanded in: its data has come. -/
structure Expanding (W : Plan) (kind : Kind) (h : Hash) (d : Bytes) (s0 s : TrieSync) : Prop where
  linked : Linked W (· = h) (fun _ => 0) s
  open_ : ∃ r ∈ s.requests, r.hash = h ∧ r.data = some d ∧ r.kind = kind
  batch : s.batch = s0.batch
  database : s.database = s0.database
  advances : Advances s0 s

/-- A reference that is dealt with: it is stored, or the request waits for it. -/
def Served (s : TrieSync) (h c : Hash) : Prop := s.Has c ∨ ∃ q ∈ s.requests, q.hash = c ∧ h ∈ q.parents

/-- A later state in which requests only gained parents. -/
structure Gains (s s' : TrieSync) : Prop where
  has : ∀ c, s.Has c → s'.Has c
  parents : ∀ q ∈ s.requests, ∃ q' ∈ s'.requests,
    q'.hash = q.hash ∧ q'.data = q.data ∧ q'.kind = q.kind ∧ ∀ p ∈ q.parents, p ∈ q'.parents

variable {s s' : TrieSync} {req : Request}

section
omit [Crypto]

theorem Served.gains (h : Gains s s') {x c : Hash} (hs : s.Served x c) : s'.Served x c := by
  refine hs.imp (h.has c) ?_
  intro hq
  obtain ⟨q, hq, heq, hp⟩ := hq
  obtain ⟨q', hq', heq', _, _, hsub⟩ := h.parents q hq
  exact ⟨q', hq', heq'.trans heq, hsub _ hp⟩

theorem Schedules.gains (h : Schedules s req s') : Gains s s' := by
  constructor
  · intro c hc
    unfold Has
    rw [h.batch, h.database]
    exact hc
  · intro q hq
    exact h.kept q hq

theorem Gains.advances (h : Gains s s') : Advances s s' := by
  refine ⟨h.has, ?_⟩
  intro r hr
  obtain ⟨r', hr', heq, hdata, _⟩ := h.parents r hr
  exact .inl ⟨r', hr', heq, fun hd => hdata ▸ hd⟩

theorem Gains.trans {s'' : TrieSync} (h : Gains s s') (h' : Gains s' s'') : Gains s s'' := by
  refine ⟨fun c hc => h'.has c (h.has c hc), ?_⟩
  intro q hq
  obtain ⟨q', hq', heq, hdata, hkind, hsub⟩ := h.parents q hq
  obtain ⟨q'', hq'', heq', hdata', hkind', hsub'⟩ := h'.parents q' hq'
  exact ⟨q'', hq'', heq'.trans heq, hdata'.trans hdata, hkind'.trans hkind, fun p hp => hsub' p (hsub p hp)⟩

theorem Gains.refl (s : TrieSync) : Gains s s := ⟨fun _ h => h, fun q hq => ⟨q, hq, rfl, rfl, rfl, fun _ hp => hp⟩⟩

theorem gains_setDeps (p : Hash) (g : Int → Int) : Gains s (s.modify p fun r => { r with deps := g r.deps }) :=
  ⟨fun _ h => h, fun _ hr => ⟨_, mem_setDeps.mpr ⟨_, hr, rfl⟩, rfl, rfl, rfl, fun _ hp => hp⟩⟩

end

/-- A request for something that the open request refers to. -/
structure Asks (W : Plan) (kind : Kind) (h : Hash) (d : Bytes) (s : TrieSync) (req : Request) : Prop where
  asked : W.asked req.hash req.kind
  data : req.data = none
  deps : req.deps = 0
  fresh : s.batch req.hash = none
  absent : s.database req.hash = none
  refers : req.hash ∈ refs kind h d

variable {kind : Kind} {h : Hash} {d : Bytes} {s0 : TrieSync}

/-- Requests are scheduled one after the other. -/
theorem Linked.scheduleAll {requests : List Request} :
    ∀ {s : TrieSync}, Linked W busy (fun x => debt x + (requests.flatMap Request.parents).count x) s →
      (∀ q ∈ requests, Schedulable W s q) →
      Linked W busy debt (requests.foldl TrieSync.schedule s) ∧ Gains s (requests.foldl TrieSync.schedule s) ∧
        ∀ q ∈ requests, ∃ q' ∈ (requests.foldl TrieSync.schedule s).requests,
          q'.hash = q.hash ∧ ∀ p ∈ q.parents, p ∈ q'.parents := by
  induction requests with
  | nil =>
    intro s h _
    exact ⟨by simpa using h, .refl s, nofun⟩
  | cons q requests ih =>
    intro s h hsched
    have hdone := schedules_schedule h.nodup q
    have hlinked : Linked W busy (fun x => debt x + (requests.flatMap Request.parents).count x) (s.schedule q) := h.schedule
      (hsched q mem_cons_self) fun x => by rw [flatMap_cons, count_append]; omega
    obtain ⟨hl, hgains, hmade⟩ := ih hlinked fun q' hq' => by
      have hq' := hsched q' (mem_cons_of_mem _ hq')
      refine ⟨hq'.asked, hq'.data, hq'.deps, by rw [hdone.batch]; exact hq'.fresh,
        by rw [hdone.database]; exact hq'.absent, ?_⟩
      intro p hp
      obtain ⟨r, hr, heq, d, hd, hc⟩ := hq'.parents p hp
      obtain ⟨r', hr', heq', hd', hkind, _⟩ := hdone.kept r hr
      exact ⟨r', hr', heq'.trans heq, d, hd'.trans hd, hkind ▸ hc⟩
    refine ⟨hl, hdone.gains.trans hgains, ?_⟩
    intro q' hq'
    rcases mem_cons.mp hq' with rfl | hq'
    · obtain ⟨r, hr, heq, hsub⟩ := hdone.made
      obtain ⟨r', hr', heq', _, _, hsub'⟩ := hgains.parents r hr
      exact ⟨r', hr', heq'.trans heq, fun p hp => hsub' p (hsub p hp)⟩
    · exact hmade q' hq'

omit [Crypto] in
theorem stores_foldl_schedule (requests : List Request) (s : TrieSync) :
    (requests.foldl TrieSync.schedule s).batch = s.batch ∧ (requests.foldl TrieSync.schedule s).database = s.database := by
  refine List.foldlRecOn (motive := fun s' : TrieSync => s'.batch = s.batch ∧ s'.database = s.database) requests _
    ⟨rfl, rfl⟩ fun s' h q _ => ?_
  unfold TrieSync.schedule
  split <;> exact h

/-- The open request counts what it asks for, and this is scheduled. -/
theorem Expanding.scheduleAll (hs : Expanding W kind h d s0 s) (requests : List Request)
    (hasks : ∀ q ∈ requests, Asks W kind h d s q ∧ q.parents = [h]) :
    ∃ s', requests.foldl TrieSync.schedule (s.modify h fun r => { r with deps := r.deps + requests.length }) = s' ∧
      Expanding W kind h d s0 s' ∧ Gains s s' ∧ ∀ q ∈ requests, ∃ q' ∈ s'.requests, q'.hash = q.hash ∧ h ∈ q'.parents := by
  have hl := hs.linked
  obtain ⟨r, hr, hkey, hd, hkind⟩ := hs.open_
  have hcount : ∀ x, (requests.flatMap Request.parents).count x = if x = h then requests.length else 0 := by
    intro x
    have hflat : requests.flatMap Request.parents = List.replicate requests.length h := by
      induction requests with
      | nil => rfl
      | cons q requests ih =>
        rw [flatMap_cons, (hasks q mem_cons_self).2, ih fun q hq => hasks q (mem_cons_of_mem _ hq)]
        rfl
    rw [hflat, count_replicate]
    by_cases hx : x = h
    · simp [hx]
    · simp [hx, Ne.symm hx]
  set bumped := s.modify h fun r => { r with deps := r.deps + requests.length }
  have hbumped : Linked W (· = h) (fun x => 0 + (requests.flatMap Request.parents).count x) bumped := by
    refine hl.setDeps (g := (· + (requests.length : Int))) ?_ ?_ fun q hq hb => ⟨hb, fun hdq => ?_⟩
    · intro q hq
      have := hl.counted q hq
      rw [hcount]
      split
      next heq =>
        rw [heq] at this ⊢
        simp [this]
      next hne =>
        simp [this]
    · intro x hx
      rw [hcount] at hx
      have hxh : x = h := by
        by_contra hne
        rw [if_neg hne] at hx
        exact hx rfl
      exact ⟨r, hr, hkey.trans hxh.symm, by rw [hd]; rfl⟩
    · rw [if_neg hb]
      exact hl.waiting q hq hb hdq
  have hsched : ∀ q ∈ requests, Schedulable W bumped q := by
    intro q hq
    obtain ⟨hask, hpar⟩ := hasks q hq
    refine ⟨hask.asked, hask.data, hask.deps, hask.fresh, hask.absent, ?_⟩
    intro p hp
    rw [hpar] at hp
    rw [mem_singleton.mp hp]
    exact ⟨_, (mem_setDeps (g := (· + (requests.length : Int)))).mpr ⟨r, hr, rfl⟩, hkey, d, hd, hkind ▸ hask.refers⟩
  obtain ⟨hl', hgains, hmade⟩ := hbumped.scheduleAll hsched
  have hgains' := (gains_setDeps h (· + (requests.length : Int))).trans hgains
  obtain ⟨hbatch, hdb⟩ := stores_foldl_schedule requests bumped
  refine ⟨_, rfl, ⟨hl', ?_, hbatch.trans hs.batch, hdb.trans hs.database, hs.advances.trans hgains'.advances⟩, hgains', ?_⟩
  · obtain ⟨r', hr', heq, hdata, hsame, _⟩ := hgains'.parents r hr
    exact ⟨r', hr', heq.trans hkey, hdata.trans hd, hsame.trans hkind⟩
  · intro q hq
    obtain ⟨q', hq', heq, hsub⟩ := hmade q hq
    refine ⟨q', hq', heq, hsub h ?_⟩
    rw [(hasks q hq).2]
    exact mem_cons_self

/-- `AddSubTrie` and `AddRawEntry` at their end. -/
theorem Expanding.link (hz : h ≠ .zero 32) (hs : Expanding W kind h d s0 s) (hreq : Asks W kind h d s req)
    (hpar : req.parents = []) :
    ∃ s', s.link h req = .ok s' ∧ Expanding W kind h d s0 s' ∧ Gains s s' ∧ s'.Served h req.hash := by
  obtain ⟨r, hr, hkey, _⟩ := hs.open_
  obtain ⟨s', hrun, hexp, hgains, hmade⟩ := hs.scheduleAll [{ req with parents := req.parents ++ [h] }] fun q hq => by
    rw [mem_singleton.mp hq, hpar]
    exact ⟨⟨hreq.asked, hreq.data, hreq.deps, hreq.fresh, hreq.absent, hreq.refers⟩, rfl⟩
  refine ⟨s', ?_, hexp, hgains, .inr (by simpa using hmade)⟩
  unfold TrieSync.link request
  rw [if_neg hz, ← hkey, find_of_mem hs.linked.nodup hr]
  exact congrArg Except.ok (hkey ▸ hrun)

theorem Expanding.addSubTrie (hW : W.Sound) (hz : h ≠ .zero 32) (hs : Expanding W kind h d s0 s) {root : Hash}
    (depth : Nat) (hempty : root ≠ emptyRoot) (hasked : W.asked root (false, none)) (href : root ∈ refs kind h d) :
    ∃ s', s.addSubTrie root depth h none = .ok s' ∧ Expanding W kind h d s0 s' ∧ Gains s s' ∧ s'.Served h root := by
  unfold TrieSync.addSubTrie
  rw [if_neg hempty]
  split
  next hb =>
    exact ⟨s, rfl, hs, .refl s, .inl (.inl hb)⟩
  next hb =>
    split
    next hdb =>
      refine ⟨s, rfl, hs, .refl s, .inl (.inr ?_)⟩
      obtain ⟨n, hn⟩ := Option.isSome_iff_exists.mp hdb
      obtain ⟨bs, hbs, _⟩ := Option.bind_eq_some_iff.mp hn
      rw [hbs]
      rfl
    next hdb =>
      refine hs.link hz ⟨hasked, rfl, rfl, by simpa using hb, ?_, href⟩ rfl
      -- what is stored under the hash of a node can be read
      cases hbs : s.database root with
      | none => rfl
      | some bs =>
        obtain ⟨n, hn⟩ := hW.decodes root _ bs hasked rfl (hs.linked.rightStore root bs hbs)
        simp [hbs, hn] at hdb

theorem Expanding.addRawEntry (hz : h ≠ .zero 32) (hs : Expanding W kind h d s0 s) {hash : Hash} (depth : Nat)
    (hempty : hash ≠ emptyState) (hasked : W.asked hash (true, none)) (href : hash ∈ refs kind h d) :
    ∃ s', s.addRawEntry hash depth h = .ok s' ∧ Expanding W kind h d s0 s' ∧ Gains s s' ∧ s'.Served h hash := by
  unfold TrieSync.addRawEntry
  rw [if_neg hempty]
  split
  next hb =>
    exact ⟨s, rfl, hs, .refl s, .inl (.inl hb)⟩
  next hb =>
    split
    next hdb =>
      exact ⟨s, rfl, hs, .refl s, .inl (.inr hdb)⟩
    next hdb =>
      exact hs.link hz ⟨hasked, rfl, rfl, by simpa using hb, by simpa using hdb, href⟩ rfl

theorem Expanding.perform (hW : W.Sound) (hz : h ≠ .zero 32) (hs : Expanding W kind h d s0 s) {call : LeafCall}
    (hsuits : call.Suits W.asked) (hrefs : ∀ c ∈ call.target, c ∈ refs kind h d) :
    ∃ s', TrieSync.perform h s call = .ok s' ∧ Expanding W kind h d s0 s' ∧ Gains s s' ∧ ∀ c ∈ call.target, s'.Served h c := by
  cases call with
  | subTrie root depth =>
    dsimp only [target, TrieSync.perform] at hrefs ⊢
    by_cases hempty : root = emptyRoot
    · rw [if_pos hempty]
      exact ⟨s, if_pos hempty, hs, .refl s, nofun⟩
    · rw [if_neg hempty] at hrefs ⊢
      obtain ⟨s', hadd, hs', hgains, hserved⟩ := hs.addSubTrie hW hz depth hempty (hsuits hempty)
        (hrefs root mem_cons_self)
      exact ⟨s', hadd, hs', hgains, fun c hc => mem_singleton.mp hc ▸ hserved⟩
  | rawEntry hash depth =>
    dsimp only [target, TrieSync.perform] at hrefs ⊢
    by_cases hempty : hash = emptyState
    · rw [if_pos hempty]
      exact ⟨s, if_pos hempty, hs, .refl s, nofun⟩
    · rw [if_neg hempty] at hrefs ⊢
      obtain ⟨s', hadd, hs', hgains, hserved⟩ := hs.addRawEntry hz depth hempty (hsuits hempty)
        (hrefs hash mem_cons_self)
      exact ⟨s', hadd, hs', hgains, fun c hc => mem_singleton.mp hc ▸ hserved⟩

theorem Expanding.performAll (hW : W.Sound) (hz : h ≠ .zero 32) {calls : List LeafCall} :
    ∀ {s : TrieSync}, Expanding W kind h d s0 s → (∀ call ∈ calls, call.Suits W.asked) →
      (∀ c ∈ calls.flatMap target, c ∈ refs kind h d) →
      ∃ s', calls.foldlM (TrieSync.perform h) s = .ok s' ∧ Expanding W kind h d s0 s' ∧ Gains s s' ∧
        ∀ c ∈ calls.flatMap target, s'.Served h c := by
  induction calls with
  | nil =>
    intro s hs _ _
    exact ⟨s, rfl, hs, .refl s, nofun⟩
  | cons call calls ih =>
    intro s hs hsuits hrefs
    obtain ⟨s1, h1, hs1, hg1, hserved1⟩ := hs.perform hW hz (hsuits call mem_cons_self)
      fun c hc => hrefs c (mem_flatMap.mpr ⟨call, mem_cons_self, hc⟩)
    obtain ⟨s2, h2, hs2, hg2, hserved2⟩ := ih hs1 (fun c hc => hsuits c (mem_cons_of_mem _ hc)) fun c hc => by
      obtain ⟨call', hcall', hc⟩ := mem_flatMap.mp hc
      exact hrefs c (mem_flatMap.mpr ⟨call', mem_cons_of_mem _ hcall', hc⟩)
    refine ⟨s2, ?_, hs2, hg1.trans hg2, ?_⟩
    · rw [foldlM_cons, h1]
      exact h2
    · intro c hc
      rw [flatMap_cons] at hc
      rcases mem_append.mp hc with hc | hc
      · exact (hserved1 c hc).gains hg2
      · exact hserved2 c hc

/-- The callback for one child. -/
theorem Expanding.leaf (hW : W.Sound) (hkey : req.hash = h) (hcb : req.callback = kind.2)
    (hz : kind.2.isSome → h ≠ .zero 32) (hs : Expanding W kind h d s0 s) {child : Node}
    (hsuits : ChildSuits W.asked kind.2 child) (hrefs : ∀ c ∈ childRefs kind.2 child, c ∈ refs kind h d) :
    ∃ s', s.leaf req child = .ok s' ∧ Expanding W kind h d s0 s' ∧ Gains s s' ∧
      ∀ v, child = .value v → ∀ c ∈ childRefs kind.2 child, s'.Served h c := by
  have hskip : s.leaf req child = .ok s → (∀ v, child = .value v → childRefs kind.2 child = []) →
      ∃ s', s.leaf req child = .ok s' ∧ Expanding W kind h d s0 s' ∧ Gains s s' ∧
        ∀ v, child = .value v → ∀ c ∈ childRefs kind.2 child, s'.Served h c := by
    intro hleaf hnone
    refine ⟨s, hleaf, hs, .refl s, ?_⟩
    intro v hv c hc
    rw [hnone v hv] at hc
    cases hc
  cases child with
  | value v =>
    rcases Option.eq_none_or_eq_some kind.2 with hf | ⟨f, hf⟩
    · refine hskip ?_ fun _ _ => by rw [hf]; rfl
      unfold TrieSync.leaf
      rw [hcb, hf]
    · obtain ⟨calls, hcalls, hcall⟩ := hsuits f hf
      have htarget : childRefs kind.2 (.value v) = calls.flatMap target := by
        rw [hf]
        simp [childRefs, hcalls]
      rw [htarget] at hrefs ⊢
      obtain ⟨s', hs', hexp, hgains, hserved⟩ := hs.performAll hW (hz (by rw [hf]; rfl)) hcall hrefs
      refine ⟨s', ?_, hexp, hgains, fun _ _ => hserved⟩
      unfold TrieSync.leaf
      rw [hcb, hf]
      dsimp only
      rw [hcalls, hkey]
      exact hs'
  | _ =>
    refine hskip ?_ nofun
    unfold TrieSync.leaf
    split
    next heq =>
      cases heq
    · rfl

/-- A child that is a hash, unless it is stored. -/
theorem Expanding.childRequest (hkey : req.hash = h) (hcb : req.callback = kind.2)
    (hs : Expanding W kind h d s0 s) (child : Node × Nat) {c : Hash} (hchild : child.1 = .hash c)
    (hasked : W.asked c (false, kind.2)) (href : c ∈ refs kind h d) :
    (∀ q ∈ s.childRequest req child, Asks W kind h d s0 q ∧ q.parents = [h]) ∧
      (s.Has c ∨ ∃ q ∈ s.childRequest req child, q.hash = c) := by
  unfold TrieSync.childRequest
  rw [hchild]
  dsimp only
  split
  next hhas =>
    refine ⟨nofun, .inl ?_⟩
    simpa [Has] using hhas
  next hhas =>
    refine ⟨?_, .inr ⟨_, mem_cons_self, rfl⟩⟩
    intro q hq
    rw [mem_singleton.mp hq]
    simp only [Bool.or_eq_true, not_or] at hhas
    refine ⟨⟨?_, rfl, rfl, ?_, ?_, href⟩, by rw [hkey]⟩
    · unfold Request.kind
      rw [hcb]
      exact hasked
    · rw [← hs.batch]
      simpa using hhas.1
    · rw [← hs.database]
      simpa using hhas.2

/-- **The children of a node are asked for.** -/
theorem Expanding.children (hW : W.Sound) (req : Request) (hkey : req.hash = h) (hcb : req.callback = kind.2)
    (hz : kind.2.isSome → h ≠ .zero 32) {kids : List (Node × Nat)} :
    ∀ {s : TrieSync}, Expanding W kind h d s0 s → (∀ child ∈ kids, ChildSuits W.asked kind.2 child.1) →
      (∀ child ∈ kids, ∀ c ∈ childRefs kind.2 child.1, c ∈ refs kind h d) →
      ∃ requests s', TrieSync.children req kids s = .ok requests s' ∧ Expanding W kind h d s0 s' ∧ Gains s s' ∧
        (∀ q ∈ requests, Asks W kind h d s0 q ∧ q.parents = [h]) ∧
        ∀ child ∈ kids, ∀ c ∈ childRefs kind.2 child.1, s'.Served h c ∨ ∃ q ∈ requests, q.hash = c := by
  induction kids with
  | nil =>
    intro s hs _ _
    exact ⟨[], s, rfl, hs, .refl s, nofun, nofun⟩
  | cons child kids ih =>
    intro s hs hsuits hrefs
    have hsuit := hsuits child mem_cons_self
    have href := hrefs child mem_cons_self
    obtain ⟨s1, hleaf, hs1, hg1, hserved1⟩ := hs.leaf hW hkey hcb hz hsuit href
    obtain ⟨requests, s2, hrest, hs2, hg2, hasks, hserved2⟩ := ih hs1
      (fun c hc => hsuits c (mem_cons_of_mem _ hc)) fun c hc => hrefs c (mem_cons_of_mem _ hc)
    -- a child is a hash, a value, or refers to nothing
    have hone : (∀ q ∈ s1.childRequest req child, Asks W kind h d s0 q ∧ q.parents = [h]) ∧
        ∀ c ∈ childRefs kind.2 child.1, s1.Served h c ∨ ∃ q ∈ s1.childRequest req child, q.hash = c := by
      have hnone : s1.childRequest req child = [] → (∀ c ∈ childRefs kind.2 child.1, s1.Served h c) →
          (∀ q ∈ s1.childRequest req child, Asks W kind h d s0 q ∧ q.parents = [h]) ∧
          ∀ c ∈ childRefs kind.2 child.1, s1.Served h c ∨ ∃ q ∈ s1.childRequest req child, q.hash = c := by
        intro hnil hserved
        refine ⟨fun q hq => ?_, fun c hc => .inl (hserved c hc)⟩
        rw [hnil] at hq
        cases hq
      obtain ⟨node, depth⟩ := child
      cases node with
      | hash c =>
        have hc := hs1.childRequest hkey hcb (.hash c, depth) rfl hsuit (href c mem_cons_self)
        refine ⟨hc.1, fun c' hc' => ?_⟩
        rw [mem_singleton.mp hc']
        exact hc.2.imp_left .inl
      | value v => exact hnone rfl (hserved1 v rfl)
      | nil | short k val flags | full cs flags => exact hnone rfl nofun
    refine ⟨s1.childRequest req child ++ requests, s2, ?_, hs2, hg1.trans hg2, ?_, ?_⟩
    · unfold TrieSync.children
      rw [hleaf]
      dsimp only
      rw [hrest]
    · intro q hq
      rcases mem_append.mp hq with hq | hq
      · exact hone.1 q hq
      · exact hasks q hq
    · intro child' hchild' c hc
      rcases mem_cons.mp hchild' with rfl | hchild'
      · rcases hone.2 c hc with hserved | ⟨q, hq, heq⟩
        · exact .inl (hserved.gains hg2)
        · exact .inr ⟨q, mem_append_left _ hq, heq⟩
      · rcases hserved2 child' hchild' c hc with hserved | ⟨q, hq, heq⟩
        · exact .inl hserved
        · exact .inr ⟨q, mem_append_right _ hq, heq⟩

/-! ## Deliveries -/

omit [Crypto] in
theorem mem_setData {r' : Request} :
    r' ∈ (s.modify h fun r => { r with data := some d }).requests ↔
      ∃ r ∈ s.requests, r' = if r.hash = h then { r with data := some d } else r := mem_modify

/-- The data for a request has come. -/
theorem Linked.deliver {r : Request} (hl : Linked W (fun _ => False) (fun _ => 0) s) (hr : r ∈ s.requests)
    (hdata : r.data = none) (hright : W.right r.hash d) :
    Expanding W r.kind r.hash d (s.modify r.hash fun r => { r with data := some d })
        (s.modify r.hash fun r => { r with data := some d }) ∧
      Advances s (s.modify r.hash fun r => { r with data := some d }) ∧ s.openChildren r.hash = 0 := by
  -- a request without data has no children
  have hzero : s.openChildren r.hash = 0 := by
    by_contra hne
    obtain ⟨q, hq, hp⟩ := openChildren_pos (Nat.pos_of_ne_zero hne)
    obtain ⟨r', hr', heq, d', hd', _⟩ := hl.parents q hq r.hash hp
    rw [eq_of_key hl.nodup hr' hr heq, hdata] at hd'
    cases hd'
  refine ⟨⟨?_, ⟨_, mem_setData.mpr ⟨r, hr, (if_pos rfl).symm⟩, rfl, rfl, rfl⟩, rfl, rfl, .refl _⟩, ⟨fun _ hc => hc, ?_⟩, hzero⟩
  · refine hl.map (g := fun q => if q.hash = r.hash then { q with data := some d } else q) ?_ ?_ ?_ ?_ ?_ ?_
      (fun _ hx => absurd rfl hx) ?_
    · intro q
      split <;> rfl
    · intro q
      split <;> rfl
    · intro q
      split <;> rfl
    · intro q hq d' hd'
      by_cases heq : q.hash = r.hash
      · rw [eq_of_key hl.nodup hq hr heq, hdata] at hd'
        cases hd'
      · rw [if_neg heq]
        exact hd'
    · intro q hq d' hd'
      split at hd'
      next heq =>
        cases hd'
        exact heq ▸ hright
      · exact hl.rightData q hq d' hd'
    · intro q hq
      rw [← hl.counted q hq]
      split <;> rfl
    · intro q hq hb
      rw [if_neg hb]
      exact ⟨fun hb => hb, rfl, hl.waiting q hq fun hb => hb⟩
  · intro q hq
    refine .inl ⟨_, mem_setData.mpr ⟨q, hq, rfl⟩, ?_⟩
    split
    · exact ⟨rfl, fun _ => rfl⟩
    · exact ⟨rfl, fun hd => hd⟩

/-- A request that waits for what it refers to is not busy any more. -/
theorem Linked.settle (hl : Linked W (· = h) debt s)
    (hsettled : ∀ r ∈ s.requests, r.hash = h → (r.data.isSome → 0 < r.deps) ∧
      ∀ d, r.data = some d → ∀ c ∈ refs r.kind h d, s.Served h c) : Linked W (fun _ => False) debt s := by
  refine { hl with waiting := ?_, links := ?_ }
  · intro r hr _ hd
    by_cases heq : r.hash = h
    · exact (hsettled r hr heq).1 hd
    · exact hl.waiting r hr heq hd
  · intro r hr _ d hd c hc
    by_cases heq : r.hash = h
    · rw [heq] at hc ⊢
      exact (hsettled r hr heq).2 d hd c hc
    · exact hl.links r hr heq d hd c hc

/-- The end of `Process` for a node. -/
theorem Expanding.finish (hW : W.Sound) {requests : List Request} (hs : Expanding W kind h d s0 s)
    (hasks : ∀ q ∈ requests, Asks W kind h d s0 q ∧ q.parents = [h])
    (hserved : ∀ c ∈ refs kind h d, s.Served h c ∨ ∃ q ∈ requests, q.hash = c) :
    ∃ b s', (if requests.isEmpty && ((s.request h).map Request.deps).getD 0 = 0 then
        (EStateM.Result.ok true (s.commit h) : EStateM.Result SyncError TrieSync Bool)
      else .ok false (requests.foldl TrieSync.schedule
        (s.modify h fun r => { r with deps := r.deps + requests.length }))) = .ok b s' ∧
      Linked W (fun _ => False) (fun _ => 0) s' ∧ Advances s0 s' := by
  have hl := hs.linked
  obtain ⟨r, hr, hkey, hd, hkind⟩ := hs.open_
  have hreq : s.request h = some r := hkey ▸ find_of_mem hl.nodup hr
  have hcounted := hl.counted r hr
  rw [hkey] at hcounted
  rw [hreq]
  split
  next hdone =>
    simp only [Option.map_some, Option.getD_some, Bool.and_eq_true, List.isEmpty_iff, decide_eq_true_eq] at hdone
    obtain ⟨hnil, hdeps⟩ := hdone
    have hripe : Ripe s r := by
      refine ⟨hr, hdeps, d, hd, fun c hc => ?_⟩
      rw [hkey, hkind] at hc
      rcases hserved c hc with hserved | ⟨q, hq, _⟩
      · rcases hserved with hhas | ⟨q, hq, _, hp⟩
        · exact hhas
        · have := openChildren_of_mem hq hp
          omega
      · rw [hnil] at hq
        cases hq
    obtain ⟨hl', hadv⟩ := Linked.commit hW (hkey ▸ hl) hripe
    rw [hkey] at hl' hadv
    exact ⟨true, _, rfl, hl', hs.advances.trans hadv⟩
  next hdone =>
    obtain ⟨s', hrun, hexp, hgains, hmade⟩ := hs.scheduleAll requests fun q hq => by
      obtain ⟨hask, hpar⟩ := hasks q hq
      exact ⟨{ hask with fresh := hs.batch ▸ hask.fresh, absent := hs.database ▸ hask.absent }, hpar⟩
    rw [hrun]
    refine ⟨false, s', rfl, hexp.linked.settle ?_, hexp.advances⟩
    intro r' hr' hkey'
    refine ⟨fun _ => ?_, ?_⟩
    · -- the request has children now, or had some
      have hpos : 0 < s'.openChildren h := by
        cases requests with
        | nil =>
          have hdeps : r.deps ≠ 0 := by
            intro hzero
            simp [hzero] at hdone
          obtain ⟨q, hq, hp⟩ := openChildren_pos (s := s) (h := h) (by omega)
          obtain ⟨q', hq', _, _, _, hsub⟩ := hgains.parents q hq
          exact openChildren_of_mem hq' (hsub h hp)
        | cons q rest =>
          obtain ⟨q', hq', _, hp⟩ := hmade q mem_cons_self
          exact openChildren_of_mem hq' hp
      have := hexp.linked.counted r' hr'
      rw [hkey'] at this
      omega
    · intro d' hd' c hc
      obtain ⟨r'', hr'', hkey'', hdata'', hkind'', _⟩ := hgains.parents r hr
      obtain rfl := eq_of_key hexp.linked.nodup hr' hr'' (by rw [hkey', hkey'', hkey])
      rw [hdata'', hd] at hd'
      cases hd'
      rw [hkind'', hkind] at hc
      rcases hserved c hc with hserved | ⟨q, hq, heq⟩
      · exact hserved.gains hgains
      · obtain ⟨q', hq', heq', hp⟩ := hmade q hq
        exact .inr ⟨q', hq', heq'.trans heq, hp⟩

/-- A hash whose data has come. -/
def Done (s : TrieSync) (h : Hash) : Prop := s.Has h ∨ ∃ r ∈ s.requests, r.hash = h ∧ r.data.isSome

omit [Crypto] in
theorem Done.advances {x : Hash} (hx : s.Done x) (hadv : Advances s s') : s'.Done x := by
  rcases hx with hhas | ⟨r, hr, rfl, hd⟩
  · exact .inl (hadv.has x hhas)
  · rcases hadv.kept r hr with ⟨r', hr', heq, hd'⟩ | hhas
    · exact .inr ⟨r', hr', heq, hd' hd⟩
    · exact .inl hhas

/-- **Data that is waited for is taken**, and the links are kept. -/
theorem Linked.processItem_waiting {r : Request} (hl : Linked W (fun _ => False) (fun _ => 0) s) (hW : W.Sound)
    (hr : r ∈ s.requests) (hdata : r.data = none) (hright : W.right r.hash d) :
    ∃ b s', s.processItem (r.hash, d) = .ok b s' ∧ Linked W (fun _ => False) (fun _ => 0) s' ∧ Advances s s' ∧
      s'.Done r.hash := by
  have hsuits := hW.suits r.hash r.kind d (hl.asked r hr) hright
  obtain ⟨hexp, hadv0, hzero⟩ := hl.deliver hr hdata hright
  have hdone : (s.modify r.hash fun r => { r with data := some d }).Done r.hash :=
    .inr ⟨_, mem_setData.mpr ⟨r, hr, (if_pos rfl).symm⟩, rfl, rfl⟩
  unfold TrieSync.processItem request
  rw [find_of_mem hl.nodup hr]
  dsimp only
  rw [if_neg (by simp [hdata])]
  by_cases hraw : r.raw = true
  · -- raw data refers to nothing
    rw [if_pos hraw]
    have hcounted := hl.counted r hr
    have hripe : Ripe (s.modify r.hash fun r => { r with data := some d }) { r with data := some d } := by
      refine ⟨mem_setData.mpr ⟨r, hr, (if_pos rfl).symm⟩, by show r.deps = 0; omega, d, rfl, ?_⟩
      intro c hc
      simp [refs, Request.kind, hraw] at hc
    obtain ⟨hl', hadv⟩ := Linked.commit (r := { r with data := some d }) hW hexp.linked hripe
    exact ⟨true, _, rfl, hl', hadv0.trans hadv, hdone.advances hadv⟩
  · rw [if_neg hraw]
    have hraw' : r.kind.1 = false := Bool.eq_false_of_not_eq_true hraw
    obtain ⟨n, hdecode, hchild⟩ := hsuits.children hraw'
    rw [hdecode]
    dsimp only
    have hrefs : refs r.kind r.hash d = (n.kids 0).flatMap fun child => childRefs r.kind.2 child.1 := by
      unfold refs
      rw [hraw', if_neg (by simp), hdecode]
    -- the children do not depend on the depth
    have hkid : ∀ child ∈ n.kids r.depth, ∃ child' ∈ n.kids 0, child'.1 = child.1 := by
      intro child hchild
      have : child.1 ∈ (n.kids 0).map Prod.fst := n.map_fst_kids r.depth ▸ mem_map_of_mem hchild
      exact mem_map.mp this
    have hkid' : ∀ child ∈ n.kids 0, ∃ child' ∈ n.kids r.depth, child'.1 = child.1 := by
      intro child hchild
      have : child.1 ∈ (n.kids r.depth).map Prod.fst := (n.map_fst_kids r.depth).symm ▸ mem_map_of_mem hchild
      exact mem_map.mp this
    obtain ⟨requests, s', hrun, hexp', _, hasks, hserved⟩ := hexp.children hW r rfl rfl hsuits.zero
      (fun child hc => by
        obtain ⟨child', hc', heq⟩ := hkid child hc
        rw [← heq]
        exact hchild child' hc')
      (fun child hc c hcref => by
        obtain ⟨child', hc', heq⟩ := hkid child hc
        rw [hrefs]
        exact mem_flatMap.mpr ⟨child', hc', heq ▸ hcref⟩)
    rw [hrun]
    obtain ⟨b, s'', hrun', hl', hadv⟩ := hexp'.finish hW hasks (by
      intro c hc
      rw [hrefs] at hc
      obtain ⟨child, hc', hcref⟩ := mem_flatMap.mp hc
      obtain ⟨child', hc'', heq⟩ := hkid' child hc'
      exact hserved child' hc'' c (heq ▸ hcref))
    exact ⟨b, s'', hrun', hl', hadv0.trans hadv, hdone.advances hadv⟩

/-- **A delivery keeps the links**, whatever it is: it is taken, or it is not waited for
and nothing changes. -/
theorem Linked.processItem {item : Hash × Bytes} (hl : Linked W (fun _ => False) (fun _ => 0) s)
    (hW : W.Sound) (hright : W.right item.1 item.2) :
    (∃ b s', s.processItem item = .ok b s' ∧ Linked W (fun _ => False) (fun _ => 0) s' ∧ Advances s s') ∨
      ∃ e, s.processItem item = .error e s ∧ (e = .notRequested ∨ e = .alreadyProcessed) := by
  obtain ⟨h, d⟩ := item
  cases hreq : s.request h with
  | none =>
    refine .inr ⟨.notRequested, ?_, .inl rfl⟩
    unfold TrieSync.processItem
    rw [hreq]
  | some r =>
    obtain ⟨hr, rfl⟩ := mem_of_find hreq
    cases hdata : r.data with
    | some d' =>
      refine .inr ⟨.alreadyProcessed, ?_, .inr rfl⟩
      unfold TrieSync.processItem
      rw [hreq]
      exact if_pos (by simp [hdata])
    | none =>
      obtain ⟨b, s', hrun, hl', hadv, _⟩ := hl.processItem_waiting hW hr hdata hright
      exact .inl ⟨b, s', hrun, hl', hadv⟩

end

end Bgmchain.TrieSync
