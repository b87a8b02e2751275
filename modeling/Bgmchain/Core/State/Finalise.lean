import Bgmchain.Core.State.Journal

/-! # What finalising writes

`Finalise` writes each dirty account to the account trie, by itself, so the order in which it
takes them does not matter: an account that committed suicide, or an empty one if those are to go,
is deleted, any other one is written as it is seen, with the root of its storage. -/
namespace Bgmchain.State
open Common Core List Function

variable [Crypto] [Roots] {o : StateObject}

namespace AccountView

/-- `empty` -/
def empty (x : AccountView) : Bool := x.nonce = 0 ∧ x.balance = 0 ∧ x.codeHash = emptyCodeHash

/-- What is written of an account that stays. -/
def data (x : AccountView) : Account := ⟨x.nonce, x.balance, Roots.storage x.storage, x.codeHash⟩

/-- What is written of an account. -/
def written (x : AccountView) (deleteEmptyObjects : Bool) : Option Account :=
  if x.suicided ∨ (deleteEmptyObjects ∧ x.empty) then none else some x.data

end AccountView

namespace StateObject

omit [Crypto] in
/-- The storage that `updateTrie` writes is the one that is seen. -/
theorem updateTrie_fst (ho : o.Consistent) (db : Database) : (o.updateTrie db).1 = o.storage db := by
  funext key
  unfold updateTrie
  obtain ⟨e, he⟩ := o.getTrie_snd db
  dsimp only
  rw [storage_eq, he]
  rcases ho key with h | ⟨h, tr, htr, hc⟩
  · rw [h]
  · rw [h, hc, getTrie_of_trie htr]
    rfl

omit [Crypto] in
theorem updateTrie_data (o : StateObject) (db : Database) : (o.updateTrie db).2.data = o.data := by
  obtain ⟨e, he⟩ := o.getTrie_snd db
  unfold updateTrie
  dsimp only
  rw [he]

theorem updateRoot_data (ho : o.Consistent) (db : Database) : (o.updateRoot db).data = (o.view db).data := by
  unfold updateRoot
  dsimp only
  rw [updateTrie_fst ho, updateTrie_data]
  rfl

/-- The object after `Finalise`. -/
def finalised (o : StateObject) (db : Database) (deleteEmptyObjects : Bool) : StateObject :=
  if o.suicided ∨ (deleteEmptyObjects ∧ o.data.empty) then { o with deleted := true } else o.updateRoot db

theorem Consistent.finalised (ho : o.Consistent) (db : Database) (b : Bool) :
    (o.finalised db b).Consistent := by
  unfold StateObject.finalised
  split
  · exact ho.of_same rfl rfl rfl
  · exact (ho.updateTrie db).of_same rfl rfl rfl

end StateObject

namespace StateDB

/-- The state in which some accounts are written. -/
def settle (s : StateDB) (deleteEmptyObjects : Bool) (order : List Address) : StateDB :=
  { s with
    trie := fun addr =>
      if addr ∈ order then (s.stateObjects addr).bind fun o => (o.view s.db).written deleteEmptyObjects else s.trie addr
    stateObjects := fun addr =>
      if addr ∈ order then (s.stateObjects addr).map (·.finalised s.db deleteEmptyObjects) else s.stateObjects addr }

/-- The state after one turn of the loop of `Finalise`. -/
def write (s : StateDB) (b : Bool) (addr : Address) (o : StateObject) : StateDB :=
  { s with
    trie := update s.trie addr ((o.view s.db).written b)
    stateObjects := update s.stateObjects addr (some (o.finalised s.db b)) }

variable {s : StateDB} {b : Bool} {order : List Address}

theorem finaliseObject_eq {addr : Address} (ho : s.stateObjects addr = some o) (hc : o.Consistent) :
    s.finaliseObject b addr = if (o.view s.db).written b ≠ none ∧ o.data.balance < 0 then none
      else some (s.write b addr o) := by
  have hdata := StateObject.updateRoot_data hc s.db
  unfold finaliseObject
  rw [ho]
  dsimp only
  by_cases h : o.suicided ∨ (b ∧ o.data.empty)
  · have hnone : (o.view s.db).written b = none := if_pos h
    have hgone : o.finalised s.db b = { o with deleted := true } := if_pos h
    unfold write
    rw [if_pos h, hnone, hgone, if_neg (fun h => h.1 rfl)]
    rfl
  · have hsome : (o.view s.db).written b = some (o.view s.db).data := if_neg h
    have hkept : o.finalised s.db b = o.updateRoot s.db := if_neg h
    have hbalance : (o.updateRoot s.db).data.balance = o.data.balance := by
      rw [hdata]
      rfl
    unfold updateStateObject write
    rw [if_neg h, hsome, hkept, hbalance, hdata]
    by_cases hneg : o.data.balance < 0
    · rw [if_pos hneg, if_pos ⟨Option.some_ne_none _, hneg⟩]
    · rw [if_neg hneg, if_neg (fun h => hneg h.2)]
      rfl

theorem settle_cons {addr : Address} (ho : s.stateObjects addr = some o) (h : addr ∉ order) :
    (s.write b addr o).settle b order = s.settle b (addr :: order) := by
  have htrie : ((s.write b addr o).settle b order).trie = (s.settle b (addr :: order)).trie := by
    funext x
    unfold settle write
    by_cases hx : x = addr
    · subst hx
      simp [h, ho]
    · simp [hx]
  have hobjects : ((s.write b addr o).settle b order).stateObjects = (s.settle b (addr :: order)).stateObjects := by
    funext x
    unfold settle write
    by_cases hx : x = addr
    · subst hx
      simp [h, ho]
    · simp [hx]
  have hrest : (s.write b addr o).settle b order = { s.settle b (addr :: order) with
      trie := ((s.write b addr o).settle b order).trie
      stateObjects := ((s.write b addr o).settle b order).stateObjects } := rfl
  rw [hrest, htrie, hobjects]

/-- The dirty accounts, each once. -/
def Enumerates (s : StateDB) (order : List Address) : Prop :=
  order.Nodup ∧ ∀ addr, addr ∈ order ↔ s.stateObjectsDirty addr = true

/-- An account that is written and has a negative balance, which cannot be encoded. -/
def Unwritable (s : StateDB) (b : Bool) (addr : Address) : Prop :=
  ∃ o, s.stateObjects addr = some o ∧ (o.view s.db).written b ≠ none ∧ o.data.balance < 0

/-- The loop of `Finalise`. -/
theorem foldlM_finaliseObject
    (hc : ∀ addr o, s.stateObjects addr = some o → o.Consistent) (hnodup : order.Nodup)
    (hlive : ∀ addr ∈ order, ∃ o, s.stateObjects addr = some o) : (∃ addr ∈ order, s.Unwritable b addr) ∧
        order.foldlM (fun (s : StateDB) addr => s.finaliseObject b addr) s = none ∨
      (∀ addr ∈ order, ¬ s.Unwritable b addr) ∧
        order.foldlM (fun (s : StateDB) addr => s.finaliseObject b addr) s = some (s.settle b order) := by
  induction order generalizing s with
  | nil =>
    refine .inr ⟨nofun, ?_⟩
    simp [settle]
  | cons addr order ih =>
    obtain ⟨o, ho⟩ := hlive addr mem_cons_self
    have hnot := (nodup_cons.1 hnodup).1
    rw [foldlM_cons, finaliseObject_eq ho (hc addr o ho)]
    by_cases hneg : (o.view s.db).written b ≠ none ∧ o.data.balance < 0
    · refine .inl ⟨⟨addr, mem_cons_self, o, ho, hneg⟩, ?_⟩
      rw [if_pos hneg]
      rfl
    · rw [if_neg hneg]
      have hstep := settle_cons (b := b) ho hnot
      have hother : ∀ x ∈ order, (s.write b addr o).stateObjects x = s.stateObjects x := by
        intro x hx
        have hne : x ≠ addr := fun h => hnot (h ▸ hx)
        exact update_of_ne hne _ _
      have hwritable : ∀ x ∈ order, (s.write b addr o).Unwritable b x ↔ s.Unwritable b x := by
        intro x hx
        unfold Unwritable
        rw [hother x hx]
        rfl
      have hc' : ∀ x o', (s.write b addr o).stateObjects x = some o' → o'.Consistent := by
        intro x o' ho'
        by_cases hx : x = addr
        · subst hx
          simp only [write, update_self, Option.some.injEq] at ho'
          exact ho' ▸ (hc x o ho).finalised s.db b
        · exact hc x o' (by simpa [write, update_of_ne hx] using ho')
      have hlive' : ∀ x ∈ order, ∃ o', (s.write b addr o).stateObjects x = some o' := by
        intro x hx
        rw [hother x hx]
        exact hlive x (mem_cons_of_mem _ hx)
      rcases ih hc' (nodup_cons.1 hnodup).2 hlive' with ⟨⟨x, hx, hbad⟩, hnone⟩ | ⟨hgood, hsome⟩
      · exact .inl ⟨⟨x, mem_cons_of_mem _ hx, (hwritable x hx).1 hbad⟩, hnone⟩
      · refine .inr ⟨?_, hsome.trans (congrArg some hstep)⟩
        intro x hx
        rcases mem_cons.1 hx with rfl | hx
        · intro hbad
          obtain ⟨o', ho', hbad⟩ := hbad
          rw [ho] at ho'
          cases ho'
          exact hneg hbad
        · exact fun hbad => hgood x hx ((hwritable x hx).2 hbad)

/-- **`Finalise` of all dirty accounts**: it panics if one of them cannot be written, and else
writes all of them. -/
theorem finalise_eq (hs : s.Plain) (ho : s.Enumerates order) :
    (∃ addr, s.stateObjectsDirty addr = true ∧ s.Unwritable b addr) ∧ s.finalise b order = none ∨
      (∀ addr, s.stateObjectsDirty addr = true → ¬ s.Unwritable b addr) ∧
        s.finalise b order = some (s.settle b order).clearJournalAndRefund := by
  have hlive : ∀ addr ∈ order, ∃ o, s.stateObjects addr = some o := fun addr h => hs.live addr ((ho.2 addr).1 h)
  unfold finalise
  rcases foldlM_finaliseObject hs.consistent ho.1 hlive with ⟨⟨addr, h, hbad⟩, hnone⟩ | ⟨hgood, hsome⟩
  · exact .inl ⟨⟨addr, (ho.2 addr).1 h, hbad⟩, by rw [hnone]; rfl⟩
  · exact .inr ⟨fun addr h => hgood addr ((ho.2 addr).2 h), by rw [hsome]; rfl⟩

/-- What the account trie has after `Finalise`. -/
def written (s : StateDB) (b : Bool) : AccountTrie := fun addr =>
  if s.stateObjectsDirty addr then (s.stateObjects addr).bind fun o => (o.view s.db).written b else s.trie addr

theorem settle_trie (ho : s.Enumerates order) : (s.settle b order).trie = s.written b := by
  funext addr
  unfold settle written
  dsimp only
  by_cases hd : s.stateObjectsDirty addr = true
  · rw [if_pos ((ho.2 addr).2 hd), if_pos hd]
  · rw [if_neg (fun h => hd ((ho.2 addr).1 h)), if_neg hd]

end StateDB

end Bgmchain.State
