import Bgmchain.Core.State.Reachable

/-! # Going back to a snapshot

What is seen of a state database changes with every step, and the journal entry of the step says
how to see again what was seen before. So going back to a snapshot shows what was there when it
was taken, for all accounts but those that were hidden then: an account whose object is marked as
deleted while the account trie still has it. Undoing the creation of such an account drops the
object, and the account in the trie comes to light again. -/
namespace Bgmchain.State
open Common Core Lib.Rewind Function StateObject

variable [Crypto] [Roots] {addr : Address} {o : StateObject} {entry : JournalEntry}

/-! ## What changes do to the view of an account -/

namespace StateObject

variable (o : StateObject) (db : Database)

/-- The flags of an object are not seen. -/
theorem view_flags (touched deleted onDirty : Bool) :
    view { o with touched := touched, deleted := deleted, onDirty := onDirty } db = o.view db := by
  rw [view_eq, view_eq]

theorem view_withBalance (amount : Int) :
    (o.withBalance amount).view db = { o.view db with balance := amount } := by
  rw [view_eq, view_eq]
  rfl

/-- What `Suicide` changes, and what undoing it changes back. -/
theorem view_suicided (suicided : Bool) (balance : Int) :
    view ({ o with suicided := suicided }.withBalance balance) db =
      { o.view db with suicided := suicided, balance := balance } := by
  rw [view_eq, view_eq]
  rfl

theorem view_withNonce (nonce : UInt64) :
    (o.withNonce nonce).view db = { o.view db with nonce := nonce } := by
  rw [view_eq, view_eq]
  rfl

theorem view_withCode (codeHash : Hash) (code : Option Bytes) :
    (o.withCode codeHash code).view db =
      { o.view db with codeHash := codeHash, code := codeOf db code codeHash } := by
  rw [view_eq, view_eq]
  rfl

theorem view_withState (key value : Hash) :
    (o.withState key value).view db =
      { o.view db with storage := update (o.storage db) key value } := by
  have hs : (fun k => ((o.withState key value).cachedStorage k).getD (trieOf db o.trie o.data.root k)) =
      update (o.storage db) key value := by
    funext k
    by_cases hk : k = key
    · subst hk
      simp [withState]
    · simp [withState, update_of_ne hk, storage_eq, getTrie_fst]
  rw [view_eq, view_eq, ← hs]
  rfl

end StateObject

/-! ## What is seen of a state -/

structure Observables where
  account : Address → Option AccountView
  refund : Int
  logs : Hash → List Log
  logSize : Nat
  preimages : Hash → Option Bytes

/-- What is seen of an account, by its live object and what the account trie has. -/
def sight (db : Database) (data : Option Account) : Option StateObject → Option AccountView
  | some o => if o.deleted then none else some (o.view db)
  | none => data.map fun data => (newObject data).view db

namespace StateDB

def account (s : StateDB) (addr : Address) : Option AccountView := (s.getStateObject addr).1.map (·.view s.db)

def observe (s : StateDB) : Observables := ⟨s.account, s.refund, s.logs, s.logSize, s.preimages⟩

theorem account_eq (s : StateDB) (addr : Address) : s.account addr = sight s.db (s.trie addr) (s.stateObjects addr) := by
  unfold account getStateObject sight
  cases s.stateObjects addr with
  | some o => cases hd : o.deleted <;> simp [hd]
  | none => cases s.trie addr <;> rfl

variable {s : StateDB}

theorem account_of_object (h : s.stateObjects addr = some o)
    (hd : o.deleted = false) : s.account addr = some (o.view s.db) := by
  rw [account_eq, h]
  unfold sight
  dsimp only
  rw [hd]
  rfl

variable {t : StateDB}

theorem account_congr (hdb : t.db = s.db) (htrie : t.trie = s.trie)
    (h : t.stateObjects = s.stateObjects) : t.account = s.account := by
  funext addr
  rw [account_eq, account_eq, hdb, htrie, h]

theorem account_clean (s : StateDB) (addr : Address) : (s.clean addr).account = s.account := account_congr rfl rfl rfl

theorem observe_eq {accounts : Address → Option AccountView} (h : t.account = accounts) :
    t.observe = ⟨accounts, t.refund, t.logs, t.logSize, t.preimages⟩ := by
  rw [← h]
  rfl

/-- The accounts of a state whose object of one account is another one. -/
theorem account_update {o : Option StateObject} (hdb : t.db = s.db)
    (htrie : t.trie = s.trie) (h : t.stateObjects = update s.stateObjects addr o) :
    t.account = update s.account addr (sight s.db (s.trie addr) o) := by
  funext a
  rw [account_eq, h, hdb, htrie]
  by_cases ha : a = addr
  · subst ha
    rw [update_self, update_self]
  · rw [update_of_ne ha, update_of_ne ha, account_eq]

section
variable (s : StateDB) (addr : Address)

theorem account_setStateObject (o : StateObject) :
    (s.setStateObject addr o).account = update s.account addr (sight s.db (s.trie addr) (some o)) :=
  account_update (setStateObject_db s addr o) (setStateObject_trie s addr o) (setStateObject_stateObjects s addr o)

theorem account_change (hd : o.deleted = false) :
    (s.change addr o).account = update s.account addr (some (o.view s.db)) := by
  rw [account_update (Frame.change s addr o).db (Frame.change s addr o).trie (change_stateObjects s addr o)]
  unfold sight
  dsimp only
  rw [view_flags, if_neg (by simp [hd])]

theorem account_load {data : Account} (ho : s.stateObjects addr = none) (ht : s.trie addr = some data) :
    (s.setStateObject addr (newObject data)).account = s.account := by
  rw [account_setStateObject]
  refine update_eq_self_iff.2 ?_
  rw [account_eq, ho, ht]
  rfl

/-- Loading an account shows nothing new. -/
theorem observe_getStateObject : (s.getStateObject addr).2.observe = s.observe := by
  have hgot := s.got addr
  generalize s.getStateObject addr = p at hgot
  cases hgot with
  | live | absent => rfl
  | loaded ho ht => exact observe_eq (account_load s addr ho ht)

end

end StateDB

/-! ## Undoing an entry, as it is seen -/

namespace Observables

/-- A change to an account that has to be there. -/
def modify (v : Observables) (addr : Address) (f : AccountView → AccountView) : Option Observables :=
  (v.account addr).map fun x => { v with account := update v.account addr (some (f x)) }

/-- What undoing an entry does to what is seen. -/
def undo (db : Database) (tr : AccountTrie) (v : Observables) : JournalEntry → Option Observables
  | .createObject addr =>
    some { v with account := update v.account addr ((tr addr).map fun data => (newObject data).view db) }
  | .resetObject addr prev =>
    some { v with account := update v.account addr (if prev.deleted then none else some (prev.view db)) }
  | .suicide addr prev prevbalance =>
    match v.account addr with
    | none => some v
    | some x =>
      some { v with account := update v.account addr (some { x with suicided := prev, balance := prevbalance }) }
  | .balance addr prev => v.modify addr fun x => { x with balance := prev }
  | .nonce addr prev => v.modify addr fun x => { x with nonce := prev }
  | .storage addr key prevalue =>
    v.modify addr fun x => { x with storage := update x.storage key prevalue }
  | .code addr prevcode prevhash =>
    v.modify addr fun x => { x with codeHash := prevhash, code := codeOf db prevcode prevhash }
  | .refund prev => some { v with refund := prev }
  | .addLog txhash =>
    if v.logs txhash = [] then none
    else some { v with logs := update v.logs txhash (v.logs txhash).dropLast, logSize := v.logSize - 1 }
  | .addPreimage hash => some { v with preimages := update v.preimages hash none }
  | .touch addr prev _ => if !prev ∧ addr ≠ StateDB.ripemd then v.modify addr id else some v

end Observables

namespace StateDB

theorem observe_change (s : StateDB) (addr : Address) (hd : o.deleted = false) :
    (s.change addr o).observe =
      { s.observe with account := update s.account addr (some (o.view s.db)) } := by
  rw [observe_eq (account_change s addr hd), change_eq]
  rfl

theorem observe_setStateObject (s : StateDB) (addr : Address) (hd : o.deleted = false) :
    (s.setStateObject addr o).observe = (s.change addr o).observe := by
  rw [observe_change s addr hd, observe_eq (account_setStateObject s addr o), sight, if_neg (by simp [hd])]
  rfl

/-- What is seen of an account, and of a change to it when it is there, if only after loading it. -/
theorem observe_cases (s : StateDB) (addr : Address) :
    (∃ t, s.getStateObject addr = (none, t) ∧ s.observe.account addr = none ∧ t.observe = s.observe) ∨
      ∃ o t, s.getStateObject addr = (some o, t) ∧ s.observe.account addr = some (o.view s.db) ∧
        ∀ o' : StateObject, o'.deleted = o.deleted → (t.change addr o').observe =
          { s.observe with account := update s.account addr (some (o'.view s.db)) } := by
  have hobs := observe_getStateObject s addr
  have hframe := Frame.getStateObject s addr
  have haccount : s.observe.account addr = (s.getStateObject addr).1.map (·.view s.db) := rfl
  cases h : s.getStateObject addr with
  | mk o t =>
    rw [h] at hobs hframe haccount
    cases o with
    | none => exact .inl ⟨t, rfl, haccount, hobs⟩
    | some o =>
      refine .inr ⟨o, t, rfl, haccount, fun o' hd => ?_⟩
      have hacc : t.account = s.account := congrArg Observables.account hobs
      rw [observe_change t addr (hd.trans (getStateObject_some h).2), hobs, hacc, hframe.db]

theorem observe_restore (s : StateDB) (addr : Address) (f : StateObject → StateObject)
    (k : AccountView → AccountView) (hd : ∀ o, (f o).deleted = o.deleted) (hf : ∀ o, (f o).view s.db = k (o.view s.db)) :
    (s.restore addr f).map observe = s.observe.modify addr k := by
  unfold restore Observables.modify
  rcases s.observe_cases addr with ⟨t, h, hnone, -⟩ | ⟨o, t, h, hsome, hchange⟩
  · rw [h, hnone]
    rfl
  · rw [h, hsome, Option.map_some, Option.map_some, hchange _ (hd o), hf]
    rfl

/-- **Undoing an entry does to what is seen what the entry says.** -/
theorem observe_undo (s : StateDB) (entry : JournalEntry) :
    (s.undo entry).map observe = s.observe.undo s.db s.trie entry := by
  cases entry with
  | createObject addr =>
    have hacc : StateDB.account ({ s with stateObjects := update s.stateObjects addr none }.clean addr) =
        update s.account addr (sight s.db (s.trie addr) none) :=
      account_update rfl rfl rfl
    exact congrArg some (observe_eq hacc)
  | resetObject addr prev => exact congrArg some (observe_eq (account_setStateObject s addr prev))
  | suicide addr prev prevbalance =>
    unfold undo Observables.undo
    dsimp only
    rcases s.observe_cases addr with ⟨t, h, hnone, hobs⟩ | ⟨o, t, h, hsome, hchange⟩
    · rw [h, hnone, Option.map_some, hobs]
    · rw [h, hsome, Option.map_some, hchange (withBalance { o with suicided := prev } prevbalance) rfl, view_suicided]
      rfl
  | balance addr prev =>
    exact observe_restore s addr _ _ (fun _ => rfl) fun o => o.view_withBalance s.db prev
  | nonce addr prev =>
    exact observe_restore s addr _ _ (fun _ => rfl) fun o => o.view_withNonce s.db prev
  | storage addr key prevalue =>
    exact observe_restore s addr _ _ (fun _ => rfl) fun o => o.view_withState s.db key prevalue
  | code addr prevcode prevhash =>
    exact observe_restore s addr _ _ (fun _ => rfl) fun o => o.view_withCode s.db prevhash prevcode
  | refund prev | addPreimage hash => exact congrArg some (observe_eq (account_congr rfl rfl rfl))
  | addLog txhash =>
    have hlogs : s.observe.logs = s.logs := rfl
    unfold undo Observables.undo
    dsimp only
    rw [hlogs]
    split
    · rfl
    · exact congrArg some (observe_eq (account_congr rfl rfl rfl))
  | touch addr prev prevDirty =>
    unfold undo Observables.undo
    dsimp only
    split
    · rcases s.observe_cases addr with ⟨t, h, hnone, -⟩ | ⟨o, t, h, hsome, hchange⟩
      · rw [h, Observables.modify, hnone]
        rfl
      · have hd : deleted { o with touched := prev } = false := (getStateObject_some h).2
        have hset := (observe_setStateObject t addr hd).trans (hchange _ rfl)
        have hid : update s.account addr (some (o.view s.db)) = s.account := update_eq_self_iff.2 hsome.symm
        rw [view_flags, hid] at hset
        have hsame : s.observe.modify addr id = some s.observe := by
          rw [Observables.modify, hsome]
          exact congrArg (fun accounts => some { s.observe with account := accounts }) hid
        rw [h, hsame]
        cases prevDirty with
        | true => exact congrArg some hset
        | false => exact congrArg some ((observe_eq (account_clean _ addr)).trans hset)
    · rfl

end StateDB

/-! ## Looking alike -/

/-- What is seen is the same, but of some accounts more may be seen than there was. -/
structure Agrees (H : Address → Prop) (v w : Observables) : Prop where
  account : ∀ addr, (H addr → w.account addr ≠ none) → v.account addr = w.account addr
  refund : v.refund = w.refund
  logs : v.logs = w.logs
  logSize : v.logSize = w.logSize
  preimages : v.preimages = w.preimages

namespace Agrees

variable {H : Address → Prop} {u v w : Observables}

section
omit [Crypto] [Roots]

theorem refl (v : Observables) : Agrees H v v := ⟨fun _ _ => rfl, rfl, rfl, rfl, rfl⟩

theorem trans (h : Agrees H u v) (h' : Agrees H v w) : Agrees H u w := by
  refine ⟨?_, h.refund.trans h'.refund, h.logs.trans h'.logs, h.logSize.trans h'.logSize,
    h.preimages.trans h'.preimages⟩
  intro addr ha
  have hvw := h'.account addr ha
  exact (h.account addr (hvw ▸ ha)).trans hvw

/-- One account is set to the same. -/
theorem update (h : Agrees H v w) (addr : Address) (x : Option AccountView) :
    Agrees H { v with account := update v.account addr x }
      { w with account := update w.account addr x } := by
  refine ⟨?_, h.refund, h.logs, h.logSize, h.preimages⟩
  intro a ha
  dsimp only at ha ⊢
  by_cases haa : a = addr
  · subst haa
    rw [update_self, update_self]
  · rw [update_of_ne haa] at ha ⊢
    rw [update_of_ne haa]
    exact h.account a ha

theorem account_of_some (h : Agrees H v w) {x : AccountView} (hx : w.account addr = some x) :
    v.account addr = some x := by
  rw [h.account addr (by simp [hx]), hx]

theorem modify (h : Agrees H v w) {w' : Observables} {f : AccountView → AccountView}
    (hw : w.modify addr f = some w') : ∃ v', v.modify addr f = some v' ∧ Agrees H v' w' := by
  obtain ⟨x, hx, rfl⟩ := Option.map_eq_some_iff.1 hw
  refine ⟨{ v with account := Function.update v.account addr (some (f x)) }, ?_, h.update addr _⟩
  unfold Observables.modify
  rw [h.account_of_some hx]
  rfl

end

theorem undo (h : Agrees H v w) {w' : Observables} {db : Database} {tr : AccountTrie}
    (hw : w.undo db tr entry = some w') : ∃ v', v.undo db tr entry = some v' ∧ Agrees H v' w' := by
  cases entry with
  | createObject addr | resetObject addr prev =>
    cases hw
    exact ⟨_, rfl, h.update addr _⟩
  | suicide addr prev prevbalance =>
    unfold Observables.undo at hw ⊢
    dsimp only at hw ⊢
    cases hx : w.account addr with
    | some x =>
      rw [hx] at hw
      cases hw
      rw [h.account_of_some hx]
      exact ⟨_, rfl, h.update addr _⟩
    | none =>
      rw [hx] at hw
      cases hw
      cases hy : v.account addr with
      | none => exact ⟨_, rfl, h⟩
      | some y =>
        -- more is seen than there was, and still is
        refine ⟨_, rfl, ?_, h.refund, h.logs, h.logSize, h.preimages⟩
        intro a ha
        have hne : a ≠ addr := by
          intro haa
          subst haa
          rw [h.account a ha, hx] at hy
          cases hy
        dsimp only
        rw [update_of_ne hne]
        exact h.account a ha
  | balance | nonce | storage | code => exact h.modify hw
  | refund prev =>
    cases hw
    exact ⟨_, rfl, h.account, rfl, h.logs, h.logSize, h.preimages⟩
  | addLog txhash =>
    unfold Observables.undo at hw ⊢
    dsimp only at hw ⊢
    rw [h.logs, h.logSize]
    split at hw
    · cases hw
    next hne =>
      cases hw
      rw [if_neg hne]
      exact ⟨_, rfl, h.account, h.refund, rfl, rfl, h.preimages⟩
  | addPreimage hash =>
    cases hw
    refine ⟨_, rfl, h.account, h.refund, h.logs, h.logSize, ?_⟩
    rw [h.preimages]
  | touch addr prev prevDirty =>
    unfold Observables.undo at hw ⊢
    dsimp only at hw ⊢
    split at hw
    next hc =>
      rw [if_pos hc]
      exact h.modify hw
    next hc =>
      cases hw
      rw [if_neg hc]
      exact ⟨v, rfl, h⟩

end Agrees

/-! ## One step and its way back -/

namespace StateDB

variable {H : Address → Prop}

/-- Two states look alike, and their journals lead back to states that do. -/
structure Alike (H : Address → Prop) (s t : StateDB) : Prop where
  observe : Agrees H s.observe t.observe
  db : s.db = t.db
  trie : s.trie = t.trie
  journal : s.journal = t.journal

theorem observe_withJournal (s : StateDB) (journal : List JournalEntry) : (s.withJournal journal).observe = s.observe :=
  observe_eq (account_congr rfl rfl rfl)

theorem respects_alike : Respects pop (Alike H) where
  trans s t u h h' := ⟨h.observe.trans h'.observe, h.db.trans h'.db, h.trie.trans h'.trie, h.journal.trans h'.journal⟩
  pop s t t' h ht := by
    obtain ⟨js, entry, v, hjs, hv, rfl⟩ := pop_cases ht
    have hundo := observe_undo t entry
    rw [hv, Option.map_some, ← h.db, ← h.trie] at hundo
    obtain ⟨v', hv', hagrees⟩ := h.observe.undo hundo.symm
    rw [← observe_undo] at hv'
    obtain ⟨w, hw, rfl⟩ := Option.map_eq_some_iff.1 hv'
    refine ⟨w.withJournal js, ?_, ?_, ?_, ?_, rfl⟩
    · rw [pop_eq (h.journal.trans hjs), hw, Option.map_some]
    · rw [observe_withJournal, observe_withJournal]
      exact hagrees
    · exact (Frame.undo hw).db.trans (h.db.trans (Frame.undo hv).db.symm)
    · exact (Frame.undo hw).trie.trans (h.trie.trans (Frame.undo hv).trie.symm)

variable {s t : StateDB}

/-- Nothing to take back. -/
theorem back_of_quiet (hframe : Frame s t) (hj : t.journal = s.journal) (hobs : t.observe = s.observe) :
    Back pop (Alike H) (t.journal.length - s.journal.length) t s := by
  rw [hj, Nat.sub_self]
  exact ⟨t, rfl, hobs ▸ .refl _, hframe.db, hframe.trie, hj⟩

omit [Crypto] [Roots] in
theorem popN_of_entry {u : StateDB} (hj : t.journal = s.journal ++ [entry]) (hu : t.undo entry = some u) :
    popN pop (t.journal.length - s.journal.length) t = some (u.withJournal s.journal) := by
  have hlen : t.journal.length - s.journal.length = 1 := by
    rw [hj, List.length_append, List.length_singleton]
    omega
  rw [hlen, popN, pop_eq hj, hu]
  rfl

/-- One entry to take back. -/
theorem back_of_entry {v : Observables} (hframe : Frame s t)
    (hj : t.journal = s.journal ++ [entry]) (hv : t.observe.undo s.db s.trie entry = some v)
    (hobs : Agrees H v s.observe) : Back pop (Alike H) (t.journal.length - s.journal.length) t s := by
  have hundo := observe_undo t entry
  rw [hframe.db, hframe.trie, hv] at hundo
  obtain ⟨w, hw, rfl⟩ := Option.map_eq_some_iff.1 hundo
  refine ⟨w.withJournal s.journal, popN_of_entry hj hw, ?_, ?_, ?_, rfl⟩
  · rw [observe_withJournal]
    exact hobs
  · exact (Frame.undo hw).db.trans hframe.db
  · exact (Frame.undo hw).trie.trans hframe.trie

/-- The account trie has an account whose object is marked as deleted. -/
def Hidden (s : StateDB) (addr : Address) : Prop :=
  (∃ o, s.stateObjects addr = some o ∧ o.deleted = true) ∧ s.trie addr ≠ none

omit [Crypto] [Roots] in
theorem absent_cases (h : s.Absent addr) :
    (s.stateObjects addr = none ∧ s.trie addr = none) ∨ ∃ o, s.stateObjects addr = some o ∧ o.deleted = true := by
  unfold Absent getStateObject at h
  cases ho : s.stateObjects addr with
  | some o =>
    rw [ho] at h
    cases hd : o.deleted with
    | true => exact .inr ⟨o, rfl, hd⟩
    | false => simp [hd] at h
  | none =>
    rw [ho] at h
    cases ht : s.trie addr with
    | none => exact .inl ⟨rfl, rfl⟩
    | some data => simp [ht] at h

omit [Roots] in
theorem codeOf_codeOf (db : Database) (code : Option Bytes) (codeHash : Hash) :
    codeOf db (codeOf db code codeHash) codeHash = codeOf db code codeHash := by
  unfold codeOf
  cases code with
  | some code => rfl
  | none =>
    by_cases h : codeHash = emptyCodeHash
    · simp [h]
    · cases db.contractCode codeHash <;> simp [h]

/-- The entry of a change says how to change what is seen back. -/
theorem undo_of_edit {db : Database} {tr : AccountTrie} {o' : StateObject}
    (h : Edit db addr entry o o') (v : Observables) (hv : v.account addr = some (o.view db)) :
    Observables.undo db tr { v with account := update v.account addr (some (o'.view db)) } entry = some v := by
  -- the account is there, and changing it back gives what was seen
  have back : ∀ k : AccountView → AccountView, k (o'.view db) = o.view db →
      Observables.modify { v with account := update v.account addr (some (o'.view db)) } addr k = some v := by
    intro k hk
    unfold Observables.modify
    dsimp only
    rw [update_self, Option.map_some, hk, update_idem, ← hv, update_eq_self]
  cases h with
  | balance amount => exact back _ (by rw [view_withBalance]; rfl)
  | nonce nonce => exact back _ (by rw [view_withNonce]; rfl)
  | storage key value =>
    refine back _ ?_
    rw [view_withState]
    rw [update_idem, update_eq_self]
    rfl
  | code codeHash code =>
    refine back _ ?_
    rw [view_withCode, loadCode_fst]
    rw [codeOf_codeOf, ← loadCode_fst]
    rfl
  | suicide =>
    have hview : view { o.withBalance 0 with suicided := true } db =
        { o.view db with suicided := true, balance := 0 } := o.view_suicided db true 0
    have hback := back (fun x => { x with suicided := o.suicided, balance := o.data.balance }) (by rw [hview]; rfl)
    unfold Observables.modify at hback
    dsimp only at hback
    rw [update_self, Option.map_some] at hback
    unfold Observables.undo
    dsimp only
    rw [update_self]
    exact hback
  | touch =>
    have hview : view { o with touched := true } db = o.view db := view_flags ..
    unfold Observables.undo
    dsimp only
    split
    · exact back id hview
    · rw [hview, ← hv, update_eq_self]

theorem observe_append (s : StateDB) (entry : JournalEntry) : (s.append entry).observe = s.observe :=
  observe_eq (account_congr rfl rfl rfl)

/-- What is seen when an account is created. -/
theorem observe_created (s : StateDB) (addr : Address) (entry : JournalEntry) (o : StateObject) :
    (((s.markStateObjectDirty addr).append entry).setStateObject addr o).observe =
      { s.observe with account := update s.account addr (sight s.db (s.trie addr) (some o)) } := by
  have hacc : ((s.markStateObjectDirty addr).append entry).account = s.account := account_congr rfl rfl rfl
  exact observe_eq ((account_setStateObject _ addr o).trans (by rw [hacc]; rfl))

/-- **A step can be taken back**, up to the hidden account that it may have created. -/
theorem step_back {act : Act} (h : Step s act t) (hact : ∀ addr, act = .create addr → s.Hidden addr → H addr) :
    Back pop (Alike H) (t.journal.length - s.journal.length) t s := by
  have hframe := h.frame.1
  cases h with
  | @load addr data ho ht =>
    exact back_of_quiet hframe rfl (observe_eq (account_load s addr ho ht))
  | @fill addr o o' ho hd hf =>
    refine back_of_quiet hframe rfl (observe_eq ?_)
    rw [account_setStateObject]
    refine update_eq_self_iff.2 ?_
    rw [account_eq, ho]
    unfold sight
    dsimp only
    rw [hf.deleted, hf.view]
  | @create addr ha =>
    have hnone : s.account addr = none := by
      unfold account
      rw [ha]
      rfl
    have hundo : Observables.undo s.db s.trie
        (((s.markStateObjectDirty addr).append (.createObject addr)).setStateObject addr .fresh).observe
        (.createObject addr) =
          some { s.observe with account := update s.account addr (sight s.db (s.trie addr) none) } := by
      rw [observe_created]
      unfold Observables.undo
      dsimp only
      rw [update_idem]
      rfl
    refine back_of_entry hframe rfl hundo ⟨?_, rfl, rfl, rfl, rfl⟩
    intro a haa
    dsimp only
    by_cases heq : a = addr
    · subst heq
      have htrie : s.trie a = none := by
        rcases absent_cases ha with ⟨-, ht⟩ | ho
        · exact ht
        · by_contra ht
          exact haa (hact a rfl ⟨ho, ht⟩) hnone
      rw [update_self, htrie]
      exact hnone.symm
    · rw [update_of_ne heq]
      rfl
  | @reset addr prev ho hd =>
    have hprev := account_of_object ho hd
    refine back_of_entry hframe rfl ?_ (.refl _)
    rw [observe_created]
    unfold Observables.undo
    dsimp only
    rw [update_idem, if_neg (by simp [hd]), ← hprev, update_eq_self]
    rfl
  | @edit addr entry o o' ho hd he =>
    have hacc : (s.append entry).account = s.account := account_congr rfl rfl rfl
    have hobs := observe_change (s.append entry) addr (he.deleted.trans hd)
    rw [observe_append, hacc] at hobs
    refine back_of_entry hframe (change_journal (s.append entry) addr o') ?_ (.refl _)
    rw [hobs]
    exact undo_of_edit he s.observe (account_of_object ho hd)
  | refund gas =>
    refine back_of_entry hframe rfl ?_ (.refl _)
    have hacc : (s.addRefund gas).account = s.account := account_congr rfl rfl rfl
    rw [observe_eq hacc]
    rfl
  | log log =>
    refine back_of_entry hframe rfl ?_ (.refl _)
    have hacc : (s.addLog log).account = s.account := account_congr rfl rfl rfl
    unfold Observables.undo observe
    rw [hacc]
    simp [addLog]
  | @preimage hash preimage hp =>
    rw [addPreimage_of_none hp] at hframe ⊢
    refine back_of_entry hframe rfl ?_ (.refl _)
    have hacc : StateDB.account { s.append (.addPreimage hash) with
        preimages := update s.preimages hash (some preimage) } = s.account := account_congr rfl rfl rfl
    unfold Observables.undo observe
    rw [hacc]
    dsimp only
    rw [update_idem, ← hp, update_eq_self]
    rfl
  | prepare thash bhash ti =>
    exact back_of_quiet hframe rfl (observe_eq (account_congr rfl rfl rfl))

end StateDB

end Bgmchain.State
