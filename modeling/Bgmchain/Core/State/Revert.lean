import Bgmchain.Core.State.Journal

/-! # What reverting restores

After any calls, with snapshots and reverts among them, going back to a snapshot that is still
valid shows what was seen when it was taken, and leaves the ids valid that were valid before it.
The one exception is an account that was hidden then and that the calls made anew. -/
namespace Bgmchain.State
open Common Core Lib.Rewind Function List StateDB

/-! ## Deleted objects -/

/-- The object of the account is marked as deleted. -/
def StateDB.Gone (s : StateDB) (addr : Address) : Prop := ∃ o, s.stateObjects addr = some o ∧ o.deleted = true

section
variable {s t u : StateDB} {addr : Address} {a : Address}

theorem gone_of_update {o : Option StateObject}
    (h : t.stateObjects = update s.stateObjects a o) (ho : ∀ o', o = some o' → o'.deleted = false)
    (hg : t.Gone addr) : s.Gone addr := by
  obtain ⟨o', ho', hd⟩ := hg
  rw [h] at ho'
  by_cases ha : addr = a
  · subst ha
    rw [update_self] at ho'
    rw [ho o' ho'] at hd
    cases hd
  · rw [update_of_ne ha] at ho'
    exact ⟨o', ho', hd⟩

theorem gone_of_set {o : StateObject} (h : t.stateObjects = update s.stateObjects a (some o)) (hd : o.deleted = false)
    (hg : t.Gone addr) : s.Gone addr :=
  gone_of_update h (fun _ ho => Option.some.inj ho ▸ hd) hg

/-- Loading an account concerns the object of the account only. -/
theorem update_getStateObject {o : Option StateObject} (h : s.getStateObject a = (o, u))
    (x : Option StateObject) : update u.stateObjects a x = update s.stateObjects a x := by
  have hgot := s.got a
  rw [h] at hgot
  cases hgot with
  | live | absent => rfl
  | loaded => rw [setStateObject_stateObjects, update_idem]

/-- Undoing an entry marks no object as deleted. -/
theorem gone_of_undo {entry : JournalEntry} (h : s.undo entry = some t)
    (hreset : ∀ a prev, entry = .resetObject a prev → prev.deleted = false) (hg : t.Gone addr) : s.Gone addr := by
  cases undo_cases h with
  | create a => exact gone_of_update rfl (fun _ ho => by cases ho) hg
  | reset a prev => exact gone_of_set (setStateObject_stateObjects s a prev) (hreset a prev rfl) hg
  | @change _ a o o' u hget hd =>
    exact gone_of_set (o := { o' with onDirty := false })
      ((change_stateObjects u a o').trans (update_getStateObject hget _)) (hd.trans (getStateObject_some hget).2) hg
  | log | aside => exact hg
  | @touch a prev prevDirty o u hget =>
    have hobjects : ∀ d : Bool, stateObjects (if d then u.setStateObject a { o with touched := prev }
        else (u.setStateObject a { o with touched := prev }).clean a) =
        update s.stateObjects a (some { o with touched := prev }) := by
      intro d
      rw [← update_getStateObject hget]
      cases d <;> rfl
    exact gone_of_set (hobjects prevDirty) (getStateObject_some hget).2 hg

theorem gone_of_pop (hs : s.Sound) (h : s.pop = some t) (hg : t.Gone addr) : s.Gone addr := by
  obtain ⟨js, entry, u, hjs, hu, rfl⟩ := pop_cases h
  refine gone_of_undo hu ?_ hg
  intro a prev he
  subst he
  exact (hs.entries js _ [] hjs).1

theorem gone_of_popN {n : Nat} (hs : s.Sound) (h : popN pop n s = some t) (hg : t.Gone addr) : s.Gone addr := by
  have hkeep := popN_invariant (P := fun u : StateDB => u.Sound ∧ (u.Gone addr → s.Gone addr))
    (fun u v hu huv => ⟨hu.1.pop huv, fun hv => hu.2 (gone_of_pop hu.1 huv hv)⟩) ⟨hs, id⟩ h
  exact hkeep.2 hg

variable [Crypto] [Roots]

/-- A step marks no object as deleted. -/
theorem gone_of_step {act : Act} (h : Step s act t) (hg : t.Gone addr) : s.Gone addr := by
  cases h with
  | load | create | reset => exact gone_of_set (setStateObject_stateObjects _ _ _) rfl hg
  | fill ho hd hf => exact gone_of_set (setStateObject_stateObjects _ _ _) (hf.deleted.trans hd) hg
  | @edit a entry o o' ho hd he =>
    exact gone_of_set (o := { o' with onDirty := false }) (change_stateObjects (s.append entry) a o')
      (he.deleted.trans hd) hg
  | refund | log | prepare => exact hg
  | preimage preimage hp =>
    rw [addPreimage_of_none hp] at hg
    exact hg

theorem gone_of_steps {g : StateDB → Act → Prop} (h : Steps g s t) (hg : t.Gone addr) : s.Gone addr := by
  induction h with
  | refl => exact hg
  | tail _ hstep ih =>
    obtain ⟨act, -, hstep⟩ := hstep
    exact ih (gone_of_step hstep hg)

end

/-! ## The calls that create accounts -/

/-- The calls that make the account if it is not there. -/
def Op.Creates (addr : Address) : Op → Prop
  | .createAccount a | .addBalance a _ | .subBalance a _ | .setBalance a _ | .setNonce a _ | .setCode a _
  | .setState a _ _ => a = addr
  | _ => False

section
variable [Crypto] [Roots] {s t : StateDB} {addr : Address}

omit [Roots] in
theorem creates_of_acts {op : Op} (h : .create addr ∈ op.acts s) : op.Creates addr := by
  have hnew : ∀ a, Act.create addr ∈ [Act.create a, .edit a] → a = addr := by simp [eq_comm]
  cases op with
  | createAccount a =>
    simp only [Op.acts] at h
    split at h
    · cases mem_singleton.1 h
      rfl
    · cases mem_singleton.1 h
  | addBalance a amount =>
    simp only [Op.acts] at h
    split at h
    · exact hnew a h
    · split at h
      · cases h
      · cases mem_singleton.1 h
  | subBalance a amount =>
    rcases mem_append.1 h with h | h
    · split at h
      · cases mem_singleton.1 h
        rfl
      · cases h
    · split at h
      · cases h
      · cases mem_singleton.1 h
  | setBalance a | setNonce a | setCode a | setState a =>
    simp only [Op.acts] at h
    split at h
    · exact hnew a h
    · cases mem_singleton.1 h
  | suicide a =>
    simp only [Op.acts] at h
    split at h
    · cases h
    · cases mem_singleton.1 h
  | _ => cases h

/-- The account is there after such a call. -/
theorem not_gone_of_creates {op : Op} (h : op.Creates addr) (ht : op.apply s = some t) : ¬ t.Gone addr := by
  have hready : Ready (fun _ _ => True) s (s.getOrNewStateObject addr).2 addr (s.getOrNewStateObject addr).1 :=
    ready_of_setter guard_true fun _ _ => trivial
  have hlive : ∀ (u : StateDB) (o : StateObject), u.stateObjects addr = some o → o.deleted = false → ¬ u.Gone addr := by
    intro u o ho hd hg
    obtain ⟨o', ho', hd'⟩ := hg
    rw [ho] at ho'
    cases ho'
    rw [hd] at hd'
    cases hd'
  have hchange : ∀ (u : StateDB) (o : StateObject), o.deleted = false → ¬ (u.change addr o).Gone addr := by
    intro u o hd
    exact hlive _ { o with onDirty := false } (by simp) hd
  cases op with
  | createAccount a =>
    cases h
    cases ht
    unfold createAccount
    cases hp : s.createObject addr with
    | mk newobj r =>
      have hnew : newobj = .fresh ∧ r.2.stateObjects addr = some .fresh := by
        cases hp
        exact ⟨rfl, by simp; rfl⟩
      obtain ⟨prev, u⟩ := r
      cases prev with
      | none => exact hlive u .fresh hnew.2 rfl
      | some prev => exact hchange u _ (by rw [hnew.1]; rfl)
  | addBalance a amount =>
    cases h
    cases ht
    unfold addBalance
    dsimp only
    split
    · split
      · exact hchange _ _ hready.deleted
      · exact hlive _ _ hready.object hready.deleted
    · exact hchange _ _ hready.deleted
  | subBalance a amount =>
    cases h
    cases ht
    unfold subBalance
    dsimp only
    split
    · exact hlive _ _ hready.object hready.deleted
    · exact hchange _ _ hready.deleted
  | setBalance a | setNonce a =>
    cases h
    cases ht
    exact hchange _ _ hready.deleted
  | setCode a code =>
    cases h
    cases ht
    exact hchange _ _ ((StateObject.filled_loadCode _ _).deleted.trans hready.deleted)
  | setState a key value =>
    cases h
    cases ht
    exact hchange _ _ ((StateObject.filled_getState _ _ key).deleted.trans hready.deleted)
  | _ => exact h.elim

end

/-! ## Between a snapshot and the way back to it -/

section
variable [Crypto] [Roots] {s t u : StateDB} {H : Address → Prop}

/-- Steps of which each one can be taken back, can be taken back. -/
theorem Steps.back {g : StateDB → Act → Prop} {R : StateDB → StateDB → Prop} (hR : Respects pop R) (hs : R s s)
    (hlast : ∀ t u act, Steps g s t → g t act → Step t act u →
      Back pop R (u.journal.length - t.journal.length) u t) (h : Steps g s t) :
    Back pop R (t.journal.length - s.journal.length) t s := by
  induction h with
  | refl =>
    rw [Nat.sub_self]
    exact .zero hs
  | @tail t u hst hstep ih =>
    obtain ⟨act, hact, hstep⟩ := hstep
    obtain ⟨-, es, hes⟩ := Steps.frame hst
    have hlen : t.journal.length ≤ u.journal.length := by
      rcases hstep.frame.2 with hj | ⟨entry, hj⟩
      · rw [hj]
      · simp [hj]
    have hlen' : s.journal.length ≤ t.journal.length := by simp [hes]
    have hsum : u.journal.length - s.journal.length =
        (u.journal.length - t.journal.length) + (t.journal.length - s.journal.length) := by omega
    rw [hsum]
    exact ih.extend hR (hlast t u act hst hact hstep)

/-- Steps that make none of the hidden accounts but those in `H` can be taken back. -/
theorem back_of_steps (h : Steps (fun s act => ∀ addr, act = .create addr → s.Hidden addr → H addr) s t) :
    Back pop (StateDB.Alike H) (t.journal.length - s.journal.length) t s :=
  Steps.back respects_alike ⟨.refl _, rfl, rfl, rfl⟩ (fun _ _ _ _ hact hstep => step_back hstep hact) h

theorem hidden_guard (H : Address → Prop) :
    Guard fun (s : StateDB) act => ∀ addr, act = .create addr → s.Hidden addr → H addr := by
  refine ⟨?_, ?_, ?_⟩
  · intro s addr h
    cases h
  · intro s t act hstep hg addr ha hh
    refine hg addr ha ⟨?_, ?_⟩
    · exact gone_of_step hstep hh.1
    · exact hstep.frame.1.trie ▸ hh.2
  · intro s addr o _ _ a h
    cases h

/-- The snapshots that are valid do not matter for what is seen. -/
theorem alike_revisions (s : StateDB) (revisions : List Revision) (next : Nat) :
    StateDB.Alike H { s with validRevisions := revisions, nextRevisionId := next } s := by
  have hobs : observe { s with validRevisions := revisions, nextRevisionId := next } = s.observe :=
    observe_eq (account_congr rfl rfl rfl)
  exact ⟨hobs ▸ .refl _, rfl, rfl, rfl⟩

/-- The snapshot taken at `s` is still valid at `t`. -/
structure Within (s t : StateDB) : Prop where
  sound : t.Sound
  marked : t.Marked
  db : t.db = s.db
  trie : t.trie = s.trie
  revisions : ∃ post, t.validRevisions = s.validRevisions ++ ⟨s.nextRevisionId, s.journal.length⟩ :: post
  long : s.journal.length ≤ t.journal.length
  gone : ∀ addr, t.Gone addr → s.Gone addr

namespace Within

section
omit [Crypto] [Roots]

theorem snapshot (hs : s.Sound) (hm : s.Marked) : Within s s.snapshot.2 :=
  ⟨hs.of_same rfl rfl rfl rfl rfl, hm.snapshot, rfl, rfl, ⟨[], rfl⟩, le_rfl, fun _ h => h⟩

/-- The ids that were valid at `s` are smaller. -/
theorem id_lt (h : Within s t) : ∀ q ∈ s.validRevisions, q.id < s.nextRevisionId := by
  obtain ⟨post, hpost⟩ := h.revisions
  have hordered := h.marked.ordered
  rw [hpost, pairwise_append] at hordered
  intro q hq
  exact (hordered.2.2 q hq _ mem_cons_self).1

/-- A revert that leaves the snapshot valid goes back to a later one. -/
theorem later_of_revert (h : Within s t) {pre post : List Revision} {r : Revision}
    (hr : t.validRevisions = pre ++ r :: post) (hid : s.nextRevisionId ∈ pre.map (·.id)) :
    s.journal.length ≤ r.journalIndex ∧
      ∃ post', pre = s.validRevisions ++ ⟨s.nextRevisionId, s.journal.length⟩ :: post' := by
  obtain ⟨q, hq, hqid⟩ := mem_map.1 hid
  have hnot : ∀ q ∈ s.validRevisions, q.id ≠ s.nextRevisionId := fun q hq => Nat.ne_of_lt (h.id_lt q hq)
  have hordered := h.marked.ordered
  obtain ⟨post0, hpost⟩ := h.revisions
  rw [hr, pairwise_append] at hordered
  rw [hpost] at hr
  rcases append_eq_append_iff.1 hr with ⟨as, hpre, has⟩ | ⟨bs, hbs, -⟩
  · cases as with
    | nil =>
      rw [hpre, append_nil] at hq
      exact absurd hqid (hnot q hq)
    | cons a as =>
      rw [cons_append, List.cons.injEq] at has
      rw [← has.1] at hpre
      refine ⟨?_, as, hpre⟩
      exact (hordered.2.2 ⟨s.nextRevisionId, s.journal.length⟩ (by simp [hpre]) r mem_cons_self).2
  · exact absurd hqid (hnot q (by simp [hbs, hq]))

end

/-- **One call**, after which the snapshot is still valid. If steps can be taken back, then the way
back goes on to lead to a state as good as `s`. -/
theorem apply (h : Within s t) {op : Op} (hop : op.apply t = some u)
    (hid : s.nextRevisionId ∈ u.validRevisions.map (·.id)) :
    Within s u ∧ (∀ addr, u.Gone addr → t.Gone addr) ∧
      ∀ R, Respects pop R →
        (∀ (v : StateDB) revisions next, v.Sound →
          R { v with validRevisions := revisions, nextRevisionId := next } v) →
        (op.Stepwise → Back pop R (u.journal.length - t.journal.length) u t) →
        Back pop R (t.journal.length - s.journal.length) t s →
        Back pop R (u.journal.length - s.journal.length) u s := by
  have heffect := op.effect h.sound h.marked hop
  obtain ⟨hsound, hmarked⟩ := heffect.sound h.sound h.marked
  have hlong := h.long
  cases heffect with
  | steps hstepwise hsteps =>
    obtain ⟨hframe, es, hes⟩ := hsteps.frame
    have hlen : t.journal.length ≤ u.journal.length := by simp [hes]
    have hgone : ∀ addr, u.Gone addr → t.Gone addr := fun addr => gone_of_steps hsteps
    refine ⟨⟨hsound, hmarked, hframe.db.trans h.db, hframe.trie.trans h.trie, ?_, hlong.trans hlen,
      fun addr ha => h.gone addr (hgone addr ha)⟩, hgone, ?_⟩
    · rw [hframe.validRevisions]
      exact h.revisions
    · intro R hR _ hstep hback
      have hsum : u.journal.length - s.journal.length =
          (u.journal.length - t.journal.length) + (t.journal.length - s.journal.length) := by omega
      rw [hsum]
      exact hback.extend hR (hstep hstepwise)
  | snapshot _ hu =>
    subst hu
    obtain ⟨post, hpost⟩ := h.revisions
    refine ⟨⟨hsound, hmarked, h.db, h.trie, ⟨post ++ [⟨t.nextRevisionId, t.journal.length⟩], ?_⟩, hlong, h.gone⟩,
      fun _ ha => ha, ?_⟩
    · show t.validRevisions ++ _ = _
      rw [hpost, append_assoc, cons_append]
    · intro R hR hrevisions _ hback
      exact Back.left hR (hrevisions t _ _ h.sound) hback
  | revert pre post r v _ hsplit hv hu =>
    subst hu
    obtain ⟨hlater, hpre⟩ := h.later_of_revert hsplit hid
    obtain ⟨hframe, hlen⟩ := Frame.popN hv
    have hgone : ∀ addr, v.Gone addr → t.Gone addr := fun addr => gone_of_popN h.sound hv
    refine ⟨⟨hsound, hmarked, hframe.db.trans h.db, hframe.trie.trans h.trie, hpre, ?_,
      fun addr ha => h.gone addr (hgone addr ha)⟩, hgone, ?_⟩
    · show s.journal.length ≤ v.journal.length
      omega
    · intro R hR hrevisions _ hback
      have hsum : t.journal.length - s.journal.length =
          (t.journal.length - r.journalIndex) + (v.journal.length - s.journal.length) := by omega
      rw [hsum] at hback
      exact Back.left hR (hrevisions v pre v.nextRevisionId (h.sound.popN hv)) (hback.cut hv)
  | clear hc _ =>
    rw [hc.validRevisions] at hid
    cases hid

end Within

/-! ## Runs -/

/-- An id that is not valid any more does not become valid again. -/
theorem id_of_apply {op : Op} {id : Nat} (hs : s.Sound) (hm : s.Marked) (h : op.apply s = some t)
    (hlt : id < s.nextRevisionId) (hid : id ∈ t.validRevisions.map (·.id)) :
    id ∈ s.validRevisions.map (·.id) ∧ id < t.nextRevisionId := by
  cases op.effect hs hm h with
  | steps _ hsteps =>
    obtain ⟨hframe, -⟩ := hsteps.frame
    rw [hframe.validRevisions] at hid
    exact ⟨hid, hframe.nextRevisionId ▸ hlt⟩
  | snapshot _ ht =>
    subst ht
    refine ⟨?_, Nat.lt_succ_of_lt hlt⟩
    obtain ⟨r, hr, hid⟩ := mem_map.1 hid
    rcases mem_append.1 hr with hr | hr
    · exact mem_map.2 ⟨r, hr, hid⟩
    · rw [mem_singleton.1 hr] at hid
      exact absurd hid (Nat.ne_of_gt hlt)
  | revert pre post r u _ hsplit hu ht =>
    subst ht
    refine ⟨?_, (Frame.popN hu).1.nextRevisionId ▸ hlt⟩
    rw [hsplit, map_append]
    exact mem_append_left _ hid
  | clear hc _ =>
    rw [hc.validRevisions] at hid
    cases hid

theorem next_of_apply {op : Op} (hs : s.Sound) (hm : s.Marked) (h : op.apply s = some t) :
    s.nextRevisionId ≤ t.nextRevisionId := by
  cases op.effect hs hm h with
  | steps _ hsteps => exact hsteps.frame.1.nextRevisionId.ge
  | snapshot _ ht =>
    subst ht
    exact Nat.le_succ _
  | revert pre post r u _ hsplit hu ht =>
    subst ht
    exact (Frame.popN hu).1.nextRevisionId.ge
  | clear hc _ => exact hc.nextRevisionId.ge

theorem id_of_run {ops : List Op} {id : Nat} (hs : s.Sound) (hm : s.Marked) (h : s.run ops = some t)
    (hlt : id < s.nextRevisionId) (hid : id ∈ t.validRevisions.map (·.id)) : id ∈ s.validRevisions.map (·.id) := by
  induction ops generalizing s with
  | nil =>
    cases h
    exact hid
  | cons op ops ih =>
    obtain ⟨u, hu, h⟩ := run_cons.1 h
    obtain ⟨hsu, hmu⟩ := (op.effect hs hm hu).sound hs hm
    have hnext := next_of_apply hs hm hu
    exact (id_of_apply hs hm hu hlt (ih hsu hmu h (by omega))).1

/-- **Any calls**, after which the snapshot is still valid. -/
theorem Within.run (h : Within s t) {ops : List Op} (hrun : t.run ops = some u)
    (hnext : s.nextRevisionId < t.nextRevisionId) (hid : s.nextRevisionId ∈ u.validRevisions.map (·.id)) :
    Within s u ∧ (∀ addr, u.Gone addr → t.Gone addr) ∧ (∀ op ∈ ops, ∀ addr, op.Creates addr → ¬ u.Gone addr) ∧
      (∀ H, (∀ addr, s.Hidden addr → ∀ op ∈ ops, op.Creates addr → H addr) →
        Back pop (StateDB.Alike H) (t.journal.length - s.journal.length) t s →
        Back pop (StateDB.Alike H) (u.journal.length - s.journal.length) u s) := by
  induction ops generalizing t with
  | nil =>
    cases hrun
    exact ⟨h, fun _ ha => ha, nofun, fun _ _ hback => hback⟩
  | cons op ops ih =>
    obtain ⟨v, hv, hrun⟩ := run_cons.1 hrun
    obtain ⟨hsv, hmv⟩ := (op.effect h.sound h.marked hv).sound h.sound h.marked
    have hle := next_of_apply h.sound h.marked hv
    have hidv : s.nextRevisionId ∈ v.validRevisions.map (·.id) := id_of_run hsv hmv hrun (by omega) hid
    obtain ⟨hwithin, hgone, hkeep⟩ := h.apply hv hidv
    obtain ⟨hend, hgone', hcreates, hback⟩ := ih hwithin hrun (by omega)
    refine ⟨hend, fun addr ha => hgone addr (hgone' addr ha), ?_, ?_⟩
    · intro op' hop' addr hc hu
      rcases mem_cons.1 hop' with rfl | hop'
      · exact not_gone_of_creates hc hv (hgone' addr hu)
      · exact hcreates op' hop' addr hc hu
    · intro H hH hstart
      refine hback H (fun addr hh op' hop' => hH addr hh op' (mem_cons_of_mem _ hop')) ?_
      refine hkeep _ respects_alike (fun v _ _ _ => alike_revisions v _ _) (fun hstepwise => ?_) hstart
      -- what is hidden at `t` was hidden at `s`
      refine back_of_steps (steps_apply (hidden_guard H) hstepwise ?_ hv)
      intro act hact addr ha hh
      subst ha
      exact hH addr ⟨h.gone addr hh.1, h.trie ▸ hh.2⟩ op mem_cons_self (creates_of_acts hact)

/-! ## The observables -/

/-- Two states answer every question alike. -/
structure Same (s t : StateDB) : Prop where
  exist : ∀ addr, s.exist addr = t.exist addr
  balance : ∀ addr, s.getBalance addr = t.getBalance addr
  nonce : ∀ addr, s.getNonce addr = t.getNonce addr
  code : ∀ addr, (s.getCode addr).1 = (t.getCode addr).1
  codeHash : ∀ addr, s.getCodeHash addr = t.getCodeHash addr
  state : ∀ addr key, (s.getState addr key).1 = (t.getState addr key).1
  suicided : ∀ addr, s.hasSuicided addr = t.hasSuicided addr
  refund : s.refund = t.refund
  logs : s.logs = t.logs
  preimages : s.preimages = t.preimages

namespace StateDB

section
variable (s : StateDB) (addr : Address)

theorem exist_eq : s.exist addr = (s.account addr).isSome := by
  unfold exist account
  rw [Option.isSome_map]

theorem getCode_eq : (s.getCode addr).1 = ((s.account addr).bind (·.code)).getD [] := by
  have hframe := Frame.getStateObject s addr
  unfold getCode account
  cases h : s.getStateObject addr with
  | mk o t =>
    rw [h] at hframe
    cases o with
    | none => rfl
    | some o =>
      dsimp only
      rw [hframe.db]
      rfl

theorem getState_eq (key : Hash) :
    (s.getState addr key).1 = ((s.account addr).map (·.storage key)).getD zeroHash := by
  have hframe := Frame.getStateObject s addr
  unfold getState account
  cases h : s.getStateObject addr with
  | mk o t =>
    rw [h] at hframe
    cases o with
    | none => rfl
    | some o =>
      dsimp only
      rw [hframe.db]
      rfl

end

/-- The other questions are about a field of the view. -/
theorem field_congr {β : Type} {s t : StateDB} {addr : Address} (h : s.account addr = t.account addr)
    (f : StateObject → β) (k : AccountView → β) (hk : ∀ o db, k (StateObject.view o db) = f o) :
    (s.getStateObject addr).1.map f = (t.getStateObject addr).1.map f := by
  have hview : ∀ u : StateDB, (u.getStateObject addr).1.map f = (u.account addr).map k := by
    intro u
    unfold account
    rw [Option.map_map]
    exact congrArg (Option.map · _) (funext fun o => (hk o u.db).symm)
  rw [hview, hview, h]

end StateDB

theorem same_of_agrees (h : Agrees (fun _ => False) s.observe t.observe) : Same s t := by
  have hacc : ∀ addr, s.account addr = t.account addr := fun addr => h.account addr False.elim
  refine ⟨?_, ?_, ?_, ?_, ?_, ?_, ?_, h.refund, h.logs, h.preimages⟩
  · intro addr
    rw [exist_eq, exist_eq, hacc]
  · intro addr
    unfold getBalance
    rw [field_congr (hacc addr) (·.data.balance) (·.balance) fun _ _ => rfl]
  · intro addr
    unfold getNonce
    rw [field_congr (hacc addr) (·.data.nonce) (·.nonce) fun _ _ => rfl]
  · intro addr
    rw [getCode_eq, getCode_eq, hacc]
  · intro addr
    unfold getCodeHash
    rw [field_congr (hacc addr) (·.data.codeHash) (·.codeHash) fun _ _ => rfl]
  · intro addr key
    rw [getState_eq, getState_eq, hacc]
  · intro addr
    unfold hasSuicided
    rw [field_congr (hacc addr) (·.suicided) (·.suicided) fun _ _ => rfl]

/-- An account of the trie is seen unless its object is marked as deleted. -/
theorem exist_iff_not_gone {addr : Address} (h : s.trie addr ≠ none) : s.exist addr = true ↔ ¬ s.Gone addr := by
  rw [exist_eq, account_eq]
  unfold sight StateDB.Gone
  cases ho : s.stateObjects addr with
  | none =>
    obtain ⟨data, hdata⟩ := Option.ne_none_iff_exists'.1 h
    simp [hdata]
  | some o => cases hd : o.deleted <;> simp [hd]

/-- **Going back to a snapshot** that is still valid never fails. The ids that are valid then are
those that were valid when it was taken. All that can be asked has the answers that it had then if
and only if none of the accounts that were hidden then was made in between. -/
theorem revertToSnapshot_exact {ops : List Op} (hs : Reachable s) (hrun : s.snapshot.2.run ops = some t)
    (hid : s.snapshot.1 ∈ t.validRevisions.map (·.id)) :
    ∃ u, t.revertToSnapshot s.snapshot.1 = some u ∧ u.validRevisions = s.validRevisions ∧
      (Same u s ↔ ∀ addr, s.Hidden addr → ∀ op ∈ ops, ¬ op.Creates addr) := by
  obtain ⟨hsound, hmarked⟩ := hs.sound
  obtain ⟨hwithin, -, hcreates, hback⟩ :=
    (Within.snapshot hsound hmarked).run hrun (Nat.lt_succ_self _) hid
  obtain ⟨post, hpost⟩ := hwithin.revisions
  have hrevert := hwithin.marked.revert hpost
  -- the state that taking the entries back leads to, whatever was created
  have hstart : ∀ H, Back pop (StateDB.Alike H) (s.snapshot.2.journal.length - s.journal.length)
      s.snapshot.2 s := by
    intro H
    have hzero : s.snapshot.2.journal.length - s.journal.length = 0 := Nat.sub_self _
    rw [hzero]
    exact ⟨_, rfl, alike_revisions s _ _⟩
  obtain ⟨v, hv, -⟩ := hback (fun _ => True) (fun _ _ _ _ _ => trivial) (hstart _)
  rw [hv, Option.map_some] at hrevert
  refine ⟨_, hrevert, rfl, ?_, ?_⟩
  · intro hsame addr hhidden op hop hc
    have hgone : ¬ v.Gone addr := fun hg => hcreates op hop addr hc (gone_of_popN hwithin.sound hv hg)
    have htrie : v.trie addr ≠ none := by
      rw [(Frame.popN hv).1.trie, hwithin.trie]
      exact hhidden.2
    have hshown : exist { v with validRevisions := s.validRevisions } addr = true :=
      (exist_iff_not_gone (s := { v with validRevisions := s.validRevisions }) htrie).2 hgone
    rw [hsame.exist addr] at hshown
    exact (exist_iff_not_gone hhidden.2).1 hshown hhidden.1
  · intro hnone
    obtain ⟨v', hv', hlike⟩ := hback (fun _ => False) (hnone) (hstart _)
    rw [hv] at hv'
    cases hv'
    refine same_of_agrees ?_
    exact (alike_revisions v s.validRevisions v.nextRevisionId).observe.trans hlike.observe

end

/-! ## One account -/

namespace OneAccount

scoped instance : Crypto where
  keccak256 b := .ofBytes 32 b
  keccak512 b := .ofBytes 64 b
  ecrecover _ _ := none

scoped instance : Roots where
  storage _ := zeroHash
  accounts _ := zeroHash

def addr : Address := .zero 20

/-- A state with one account in the trie. -/
def start : StateDB :=
  .ofTrie ⟨fun _ => none, fun _ => none, fun _ => none⟩ fun a => if a = addr then some ⟨1, 5, zeroHash, emptyCodeHash⟩ else none

theorem start_reachable : Reachable start := by
  refine .new _ _ ?_
  intro a data h
  split at h
  · cases h
    decide
  · cases h

/-- The account has committed suicide, and the state is made ready for more calls. -/
def hidden : StateDB := (start.run [.suicide addr, .deleteSuicides [addr]]).getD start

theorem revertToSnapshot_exact_start :
    ∃ u, (start.snapshot.2.createAccount addr).revertToSnapshot start.snapshot.1 = some u ∧ Same u start := by
  have hrun : start.snapshot.2.run [.createAccount addr] = some (start.snapshot.2.createAccount addr) := rfl
  obtain ⟨u, hu, -, hsame⟩ := revertToSnapshot_exact start_reachable hrun mem_cons_self
  refine ⟨u, hu, hsame.2 ?_⟩
  intro a hh
  obtain ⟨⟨o, ho, -⟩, -⟩ := hh
  cases ho

/-- The account that was not there is there again. -/
theorem revertToSnapshot_shows_hidden :
    start.run [.suicide addr, .deleteSuicides [addr]] = some hidden ∧ hidden.exist addr = false ∧
      ((hidden.snapshot.2.createAccount addr).revertToSnapshot hidden.snapshot.1).map (·.exist addr) = some true :=
  ⟨rfl, rfl, rfl⟩

end OneAccount

end Bgmchain.State
