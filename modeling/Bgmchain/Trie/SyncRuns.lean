import Bgmchain.Trie.SyncDeliver

/-! # Runs of the download scheduler

`Missing`, `Process` and `Commit` in any order, with any results and any refused `Put`,
keep the requests, the batch and the database tied together. A broken off `Commit` leaves
the database after some of its `Put`s, so that what holds in every state of a run holds
after every single `Put`. -/
namespace Bgmchain
open Common Lib List

theorem popItem_cases {queue : List (Hash × Nat)} {h : Hash} {rest : List (Hash × Nat)}
    (hpop : popItem queue = some (h, rest)) : ∀ e ∈ queue, e.1 = h ∨ e ∈ rest := by
  unfold popItem at hpop
  split at hpop
  · cases hpop
  next top _ =>
    cases hpop
    intro e he
    by_cases heq : e = top
    · exact .inl (by rw [heq])
    · exact .inr ((mem_erase_of_ne heq).mpr he)

theorem popItems_cases (n : Nat) : ∀ {queue : List (Hash × Nat)}, ∀ e ∈ queue,
    e.1 ∈ (popItems n queue).1 ∨ e ∈ (popItems n queue).2 := by
  induction n with
  | zero =>
    intro queue e he
    exact .inr he
  | succ n ih =>
    intro queue e he
    unfold popItems
    cases hpop : popItem queue with
    | none => exact .inr he
    | some p =>
      rcases popItem_cases hpop e he with heq | he
      · exact .inl (heq ▸ mem_cons_self)
      · exact (ih e he).imp_left (mem_cons_of_mem _)

namespace TrieSync

/-- The database after some `Put`s. -/
theorem putFirst_eq (s : TrieSync) (n : Nat) (x : Hash) :
    s.putFirst n x = if x ∈ s.order.take n then some ((s.batch x).getD []) else s.database x := by
  have hfold : ∀ (l : List Hash) (db : Hash → Option Bytes),
      l.foldl (fun db h => Function.update db h (some ((s.batch h).getD []))) db x =
        if x ∈ l then some ((s.batch x).getD []) else db x := by
    intro l
    induction l with
    | nil =>
      intro db
      rfl
    | cons h l ih =>
      intro db
      rw [foldl_cons, ih]
      by_cases hx : x = h
      · subst hx
        simp
      · simp [hx]
  exact hfold _ _

section
variable [Crypto] {W : Plan} {s : TrieSync}

/-- What the scheduler keeps up between calls. -/
abbrev Steady (W : Plan) (s : TrieSync) : Prop := Linked W (fun _ => False) (fun _ => 0) s

/-- More hashes have been handed out. -/
def Plan.hand (W : Plan) (hs : List Hash) : Plan := { W with handed := fun h => W.handed h ∨ h ∈ hs }

theorem Steady.missing (h : Steady W s) (max : Nat) :
    Steady (Plan.hand W (s.missing max).1) (s.missing max).2 ∧ Advances s (s.missing max).2 := by
  refine ⟨{ h with queued := ?_ }, fun _ hc => hc, fun r hr => .inl ⟨r, hr, rfl, fun hd => hd⟩⟩
  intro r hr hd
  rcases h.queued r hr hd with hh | ⟨depth, he⟩
  · exact .inl (.inl hh)
  · rcases popItems_cases (if max = 0 then s.queue.length else max) _ he with hout | hrest
    · exact .inl (.inr hout)
    · exact .inr ⟨depth, hrest⟩

theorem Steady.processFrom (hW : W.Sound) {results : List (Hash × Bytes)} :
    ∀ {s : TrieSync} (i : Nat) (committed : Bool), Steady W s → (∀ item ∈ results, W.right item.1 item.2) →
      Steady W (TrieSync.processFrom i committed results s).2 ∧ Advances s (TrieSync.processFrom i committed results s).2 ∧
        ∀ e, (TrieSync.processFrom i committed results s).1.2.2 = some e → e = .notRequested ∨ e = .alreadyProcessed := by
  induction results with
  | nil =>
    intro s i committed h _
    exact ⟨h, .refl s, nofun⟩
  | cons item results ih =>
    intro s i committed h hright
    unfold TrieSync.processFrom
    rcases h.processItem hW (hright item mem_cons_self) with ⟨b, s', hrun, hs', hadv⟩ | ⟨e, hrun, herr⟩
    · rw [hrun]
      obtain ⟨hs'', hadv', herr⟩ := ih (i + 1) (committed || b) hs' fun q hq =>
        hright q (mem_cons_of_mem _ hq)
      exact ⟨hs'', hadv.trans hadv', herr⟩
    · rw [hrun]
      exact ⟨h, .refl s, fun _ he => Option.some.inj he ▸ herr⟩

theorem Steady.process (hW : W.Sound) (h : Steady W s) {results : List (Hash × Bytes)}
    (hright : ∀ item ∈ results, W.right item.1 item.2) :
    Steady W (s.process results).2 ∧ Advances s (s.process results).2 ∧
      ∀ e, (s.process results).1.2.2 = some e → e = .notRequested ∨ e = .alreadyProcessed :=
  Steady.processFrom hW 0 false h hright

/-- **After any number of `Put`s the database is closed**, and the links hold. -/
theorem Steady.putFirst (hW : W.Sound) (h : Steady W s) (n : Nat) :
    Steady W { s with database := s.putFirst n } ∧ Advances s { s with database := s.putFirst n } := by
  have hgrow : ∀ c, (s.database c).isSome → (s.putFirst n c).isSome := by
    intro c hc
    rw [putFirst_eq]
    split
    · rfl
    · exact hc
  have hhas : ∀ c, s.Has c → TrieSync.Has { s with database := s.putFirst n } c := fun c hc => hc.imp_right (hgrow c)
  have hput : ∀ x ∈ s.order.take n, ∃ d, s.batch x = some d ∧ s.putFirst n x = some d := by
    intro x hx
    obtain ⟨d, hd⟩ := Option.isSome_iff_exists.mp ((h.batched x).mpr (mem_of_mem_take hx))
    refine ⟨d, hd, ?_⟩
    rw [putFirst_eq, if_pos hx, hd]
    rfl
  refine ⟨{ h with absent := ?_, links := ?_, ordered := ?_, rightStore := ?_, closed := ?_ }, hhas,
    fun r hr => .inl ⟨r, hr, rfl, fun hd => hd⟩⟩
  · -- a request is not in the batch
    intro r hr
    show s.putFirst n r.hash = none
    rw [putFirst_eq, if_neg]
    · exact h.absent r hr
    · intro hx
      obtain ⟨d, hd, _⟩ := hput r.hash hx
      rw [h.fresh r hr] at hd
      cases hd
  · intro r hr hb d hd c hc
    exact (h.links r hr hb d hd c hc).imp_left (hhas c)
  · intro l x rest hsplit
    obtain ⟨d, hd, hc⟩ := h.ordered l x rest hsplit
    exact ⟨d, hd, fun c hcref => (hc c hcref).imp_right (hgrow c)⟩
  · intro x d hd
    by_cases hx : x ∈ s.order.take n
    · obtain ⟨d', hd', hput'⟩ := hput x hx
      have hd : s.putFirst n x = some d := hd
      rw [hput'] at hd
      cases hd
      exact hW.stored x _ (h.rightBatch x _ hd')
    · have hd : s.putFirst n x = some d := hd
      rw [putFirst_eq, if_neg hx] at hd
      exact h.rightStore x d hd
  · intro x d hd c hc
    show (s.putFirst n c).isSome
    have hd : s.putFirst n x = some d := hd
    by_cases hx : x ∈ s.order.take n
    · -- the entry refers to the database or to entries before it
      obtain ⟨l, rest, hsplit⟩ := append_of_mem hx
      obtain ⟨d', hd', hput'⟩ := hput x hx
      rw [hput'] at hd
      cases hd
      obtain ⟨d'', hd'', hrefs⟩ := h.ordered l x (rest ++ s.order.drop n) (by
        rw [← cons_append, ← append_assoc, ← hsplit, take_append_drop])
      rw [hd'] at hd''
      cases hd''
      rcases hrefs c hc with hl | hdb
      · have hc' : c ∈ s.order.take n := hsplit ▸ mem_append_left _ hl
        obtain ⟨_, _, hputc⟩ := hput c hc'
        rw [hputc]
        rfl
      · exact hgrow c hdb
    · rw [putFirst_eq, if_neg hx] at hd
      exact hgrow c (h.closed x d hd c hc)

theorem Steady.commitTo (hW : W.Sound) (h : Steady W s) (refused : Option Nat) :
    Steady W (s.commitTo refused).2 ∧ Advances s (s.commitTo refused).2 := by
  unfold TrieSync.commitTo
  split
  · exact h.putFirst hW _
  · obtain ⟨hall, hadv⟩ := h.putFirst hW s.order.length
    have hhas : ∀ c, TrieSync.Has { s with database := s.putFirst s.order.length } c →
        (s.putFirst s.order.length c).isSome := by
      intro c hc
      rcases hc with hb | hdb
      · rw [putFirst_eq, take_length, if_pos ((h.batched c).mp hb)]
        rfl
      · exact hdb
    have hhas' : ∀ c, TrieSync.Has { s with database := s.putFirst s.order.length } c →
        TrieSync.Has ⟨s.putFirst s.order.length, fun _ => none, [], s.requests, s.queue⟩ c :=
      fun c hc => .inr (hhas c hc)
    refine ⟨{ hall with fresh := ?_, links := ?_, batched := ?_, ordered := ?_, rightBatch := ?_ }, ?_⟩
    · exact fun _ _ => rfl
    · intro r hr hb d hd c hc
      exact (hall.links r hr hb d hd c hc).imp_left (hhas' c)
    · exact fun _ => ⟨nofun, nofun⟩
    · intro l x rest hsplit
      exact absurd hsplit.symm (by simp)
    · exact nofun
    · exact hadv.trans ⟨hhas', fun r hr => .inl ⟨r, hr, rfl, fun hd => hd⟩⟩

theorem steady_idle {database : Hash → Option Bytes} (hright : ∀ h d, database h = some d → W.stored h d)
    (hclosed : ∀ h d, database h = some d → ∀ c, W.keeps h d c → (database c).isSome) :
    Steady W (.idle database) := by
  refine ⟨nodup_nil, ?_, ?_, ?_, ?_, ?_, fun _ hx => absurd rfl hx, ?_, ?_, ?batched, ?ordered, ?_, ?_, ?right, hright, hclosed⟩
  case batched => exact fun _ => ⟨nofun, nofun⟩
  case ordered =>
    intro l x rest hsplit
    exact absurd hsplit.symm (by simp [idle])
  case right => exact nofun
  -- what is left is about requests
  all_goals exact nofun

/-- A new scheduler asks for its root, unless it is there. -/
theorem steady_newTrieSync {root : Hash} {database : Hash → Option Bytes} {callback : Option LeafCallback}
    (hW : W.Sound) (hright : ∀ h d, database h = some d → W.stored h d)
    (hclosed : ∀ h d, database h = some d → ∀ c, W.keeps h d c → (database c).isSome)
    (hasked : W.asked root (false, callback)) : Steady W (newTrieSync root database callback) ∧
      (root ≠ emptyRoot → (newTrieSync root database callback).Has root ∨
        ∃ r ∈ (newTrieSync root database callback).requests, r.hash = root) := by
  have hidle : Steady W (.idle database) := steady_idle hright hclosed
  unfold newTrieSync TrieSync.addSubTrie
  by_cases hempty : root = emptyRoot
  · rw [if_pos hempty]
    exact ⟨hidle, absurd hempty⟩
  · rw [if_neg hempty, if_neg (by simp [idle])]
    split
    next s heq =>
      split at heq
      next hdb =>
        cases heq
        refine ⟨hidle, fun _ => .inl (.inr ?_)⟩
        obtain ⟨n, hn⟩ := Option.isSome_iff_exists.mp hdb
        obtain ⟨bs, hbs, _⟩ := Option.bind_eq_some_iff.mp hn
        rw [hbs]
        rfl
      next hdb =>
        unfold TrieSync.link at heq
        rw [if_pos rfl] at heq
        cases heq
        have habsent : database root = none := by
          cases hbs : database root with
          | none => rfl
          | some bs =>
            obtain ⟨n, hn⟩ := hW.decodes root _ bs hasked rfl (hright root bs hbs)
            simp [idle, hbs, hn] at hdb
        have hdone := schedules_schedule hidle.nodup { hash := root, depth := 0, callback := callback }
        refine ⟨hidle.schedule ⟨hasked, rfl, rfl, rfl, habsent, nofun⟩ fun _ => rfl, fun _ => ?_⟩
        obtain ⟨r, hr, hkey, _⟩ := hdone.made
        exact .inr ⟨r, hr, hkey⟩
    next e heq =>
      split at heq
      · cases heq
      · unfold TrieSync.link at heq
        rw [if_pos rfl] at heq
        cases heq

omit [Crypto] in
theorem database_newTrieSync (root : Hash) (database : Hash → Option Bytes) (callback : Option LeafCallback) :
    (newTrieSync root database callback).database = database := by
  unfold newTrieSync TrieSync.addSubTrie TrieSync.link
  by_cases hempty : root = emptyRoot
  · rw [if_pos hempty]
    rfl
  · rw [if_neg hempty, if_neg (by simp [idle])]
    split
    next s heq =>
      split at heq
      · cases heq
        rfl
      · cases heq
        rfl
    · rfl

/-- What is asked for is neither in the batch nor in the database. -/
theorem Steady.not_has (hs : Steady W s) {r : Request} (hr : r ∈ s.requests) : ¬ s.Has r.hash := by
  intro hhas
  rcases hhas with hb | hdb
  · rw [hs.fresh r hr] at hb
    cases hb
  · rw [hs.absent r hr] at hdb
    cases hdb

/-- As long as something is open, some data is waited for, if no string refers back to itself. -/
theorem Steady.exists_waiting {ι : Type} {below : ι → ι → Prop} (hwf : WellFounded below) (hs : Steady W s)
    {place : ι → Hash → Kind → Prop}
    (hplace : ∀ i h kind d c kind', place i h kind → W.right h d → c ∈ refs kind h d → ¬ s.Has c → W.asked c kind' →
      ∃ j, below j i ∧ place j c kind') (i : ι) :
    ∀ {r : Request}, r ∈ s.requests → place i r.hash r.kind → ∃ r' ∈ s.requests, r'.data = none := by
  induction i using hwf.induction with
  | _ i ih =>
    intro r hr hi
    cases hdata : r.data with
    | none => exact ⟨r, hr, hdata⟩
    | some d =>
      -- it waits for something that it refers to
      have hpos := hs.waiting r hr (fun hb => hb) (by rw [hdata]; rfl)
      rw [hs.counted r hr] at hpos
      obtain ⟨q, hq, hp⟩ := openChildren_pos (s := s) (h := r.hash) (by omega)
      obtain ⟨r', hr', hkey, d', hd', href⟩ := hs.parents q hq r.hash hp
      obtain rfl := Table.eq_of_key hs.nodup hr' hr hkey
      obtain ⟨j, hj, hplaced⟩ := hplace i _ _ d' _ _ hi (hs.rightData r' hr' d' hd') href (hs.not_has hq) (hs.asked q hq)
      exact ih j hj hq hplaced

/-- A hash that data is waited for has not got it. -/
theorem Steady.not_done (hs : Steady W s) {r : Request} (hr : r ∈ s.requests) (hdata : r.data = none) : ¬ s.Done r.hash := by
  intro hdone
  rcases hdone with hhas | ⟨r', hr', hkey, hd⟩
  · exact hs.not_has hr hhas
  · rw [Table.eq_of_key hs.nodup hr' hr hkey, hdata] at hd
    cases hd

/-- What was there or asked for at the start is stored when nothing is open and the batch is
written. -/
theorem Steady.stored_of_done {s0 : TrieSync} {h : Hash} (hs : Steady W s) (hadv : Advances s0 s)
    (hroot : s0.Has h ∨ ∃ r ∈ s0.requests, r.hash = h) (hpending : s.pending = 0) (horder : s.order = []) :
    (s.database h).isSome := by
  have hhas : s.Has h := by
    rcases hroot with hhas | ⟨r, hr, rfl⟩
    · exact hadv.has h hhas
    · rcases hadv.kept r hr with ⟨r', hr', _⟩ | hhas
      · rw [length_eq_zero_iff.mp hpending] at hr'
        cases hr'
      · exact hhas
  refine hhas.resolve_left fun hb => ?_
  have := (hs.batched h).mp hb
  rw [horder] at this
  cases this

theorem process_singleton {item : Hash × Bytes} {b : Bool} {s' : TrieSync} (h : s.processItem item = .ok b s') :
    s.process [item] = ((b, 0, none), s') := by
  unfold TrieSync.process TrieSync.processFrom
  rw [h]
  rfl

end

end TrieSync

/-! ## Steps and runs -/

section
variable [Crypto]

/-- A call of the scheduler, with the hashes that have been handed out. -/
inductive SyncStep (right : Hash → Bytes → Prop) : TrieSync × List Hash → TrieSync × List Hash → Prop
  | missing {s handed} (max : Nat) : SyncStep right (s, handed) ((s.missing max).2, handed ++ (s.missing max).1)
  | process {s handed} (results : List (Hash × Bytes)) : (∀ item ∈ results, right item.1 item.2) →
      SyncStep right (s, handed) ((s.process results).2, handed)
  | commit {s handed} (refused : Option Nat) : SyncStep right (s, handed) ((s.commitTo refused).2, handed)

abbrev SyncRun (right : Hash → Bytes → Prop) := Relation.ReflTransGen (SyncStep right)

variable {a b : TrieSync × List Hash}

theorem SyncRun.mono {right right' : Hash → Bytes → Prop} (hle : ∀ h d, right h d → right' h d)
    (h : SyncRun right a b) : SyncRun right' a b := by
  refine Relation.ReflTransGen.mono (fun a b hstep => ?_) a b h
  cases hstep with
  | missing max => exact .missing max
  | process results hr => exact .process results fun item hitem => hle _ _ (hr item hitem)
  | commit refused => exact .commit refused

/-- The plan of a run at some point. -/
def runPlan (asked : Hash → Kind → Prop) (right stored : Hash → Bytes → Prop) (keeps : Hash → Bytes → Hash → Prop)
    (handed : List Hash) : Plan :=
  ⟨asked, right, stored, keeps, (· ∈ handed)⟩

variable {asked : Hash → Kind → Prop} {right stored : Hash → Bytes → Prop} {keeps : Hash → Bytes → Hash → Prop}

/-- What has been handed out plays no part. -/
theorem sound_runPlan (hW : (runPlan asked right stored keeps []).Sound) (handed : List Hash) :
    (runPlan asked right stored keeps handed).Sound :=
  ⟨fun h kind d hasked hr =>
    ⟨(hW.suits h kind d hasked hr).keeps, (hW.suits h kind d hasked hr).zero, (hW.suits h kind d hasked hr).children⟩,
    hW.stored, hW.decodes⟩

/-- A plan for a database of right data. -/
theorem sound_of_suits
    (hW : ∀ h kind d, asked h kind → right h d → Suits (runPlan asked right right keeps []) kind h d) :
    (runPlan asked right right keeps []).Sound := by
  refine ⟨hW, fun _ _ hd => hd, ?_⟩
  intro h kind d hasked hnode hd
  obtain ⟨n, hn, _⟩ := (hW h kind d hasked hd).children hnode
  exact ⟨n, hn⟩

section
variable (hW : (runPlan asked right stored keeps []).Sound)
include hW

theorem SyncStep.steady (h : SyncStep right a b) (hs : a.1.Steady (runPlan asked right stored keeps a.2)) :
    b.1.Steady (runPlan asked right stored keeps b.2) ∧ a.1.Advances b.1 := by
  cases h with
  | @missing s handed max =>
    obtain ⟨hs', hadv⟩ := TrieSync.Steady.missing hs max
    refine ⟨{ hs' with queued := ?_ }, hadv⟩
    intro r hr hd
    exact (hs'.queued r hr hd).imp_left mem_append.mpr
  | process results hright =>
    obtain ⟨hs', hadv, _⟩ := TrieSync.Steady.process (sound_runPlan hW _) hs hright
    exact ⟨hs', hadv⟩
  | commit refused => exact TrieSync.Steady.commitTo (sound_runPlan hW _) hs refused

/-- **A run keeps everything up and loses nothing.** -/
theorem SyncRun.steady (h : SyncRun right a b) (hs : a.1.Steady (runPlan asked right stored keeps a.2)) :
    b.1.Steady (runPlan asked right stored keeps b.2) ∧ a.1.Advances b.1 := by
  induction h with
  | refl => exact ⟨hs, .refl _⟩
  | tail _ hstep ih =>
    obtain ⟨hs', hadv'⟩ := hstep.steady hW ih.1
    exact ⟨hs', ih.2.trans hadv'⟩

/-- **Feeding ends.** When finitely many hashes can be asked for, data can be delivered
until there is none for what is still waited for. -/
theorem SyncRun.exists_fed {fed : Hash → Bytes → Prop}
    (hfed : ∀ h d, fed h d → right h d) {handed : List Hash} {N : Nat} :
    ∀ {s : TrieSync} {F : Finset Hash}, s.Steady (runPlan asked right stored keeps handed) →
      (∀ h kind, asked h kind → ¬ s.Done h → h ∈ F) → F.card ≤ N →
      ∃ s', SyncRun fed (s, handed) (s', handed) ∧ ∀ r ∈ s'.requests, r.data = none → ∀ d, ¬ fed r.hash d := by
  induction N with
  | zero =>
    intro s F hs hF hcard
    refine ⟨s, .refl, fun r hr hdata d _ => ?_⟩
    have hmem := hF r.hash r.kind (hs.asked r hr) (hs.not_done hr hdata)
    rw [Finset.card_eq_zero.mp (Nat.le_zero.mp hcard)] at hmem
    cases hmem
  | succ N ih =>
    intro s F hs hF hcard
    by_cases hall : ∀ r ∈ s.requests, r.data = none → ∀ d, ¬ fed r.hash d
    · exact ⟨s, .refl, hall⟩
    · push Not at hall
      obtain ⟨r, hr, hdata, d, hd⟩ := hall
      obtain ⟨b, s1, hrun, hs1, hadv, hdone⟩ := hs.processItem_waiting (sound_runPlan hW handed) hr hdata (hfed _ _ hd)
      have hstep : SyncStep fed (s, handed) ((s.process [(r.hash, d)]).2, handed) :=
        .process _ fun item hitem => mem_singleton.mp hitem ▸ hd
      rw [TrieSync.process_singleton hrun] at hstep
      have hmem := hF r.hash r.kind (hs.asked r hr) (hs.not_done hr hdata)
      obtain ⟨s', hrest, hend⟩ := ih (F := F.erase r.hash) hs1
        (fun h kind hasked hnot => Finset.mem_erase.mpr
          ⟨fun heq => hnot (heq ▸ hdone), hF h kind hasked fun hd => hnot (hd.advances hadv)⟩)
        (by
          have := Finset.card_erase_lt_of_mem hmem
          omega)
      exact ⟨s', .head hstep hrest, hend⟩

end

end

end Bgmchain
