import Bgmchain.Core.Types.Delegation
import Bgmchain.Trie.Merkle

/-! # What the tries of a context contain

The operations of a context reach its tries only through reads, deletions and writes of
addresses. A property of tries that all of these keep, the operations keep; one such
property is to be built in memory from values of one kind. -/
namespace Bgmchain
open Common Lib Patricia Hoare

/-- A property of tries that is kept by everything but writes of other values. -/
structure TrieInvariant (ok : Bytes → Prop) (I : Trie → Prop) : Prop where
  read : ∀ {t : Trie} (k : Bytes), I t → I (t.tryGet k).2
  write : ∀ {t t' : Trie} {k v : Bytes}, ok v → I t → t.tryUpdate k v = .ok t' → I t'
  remove : ∀ {t t' : Trie} {k : Bytes}, I t → t.tryDelete k = .ok t' → I t'

namespace TrieInvariant

variable {ok : Bytes → Prop} {I : Trie → Prop} (h : TrieInvariant ok I)
include h

variable {t : Trie}

theorem get (k : Bytes) (ht : I t) : I (t.get k).2 := by
  have := h.read k ht
  unfold Trie.get
  split
  next heq =>
    rwa [heq] at this
  next heq =>
    rwa [heq] at this

theorem update (k : Bytes) {v : Bytes} (hv : ok v) (ht : I t) : I (t.update k v) := by
  unfold Trie.update
  split
  next heq =>
    exact h.write hv ht heq
  · exact ht

end TrieInvariant

/-- What an operation of a context does to one of its tries. -/
inductive Trie.Changes (t : Trie) : Trie → Prop
  | same : Changes t t
  | read (k : Bytes) : Changes t (t.tryGet k).2
  | write {t' : Trie} {k v : Bytes} (hv : v.length = 20) (h : t.tryUpdate k v = .ok t') : Changes t t'
  | remove {t' : Trie} {k : Bytes} (h : t.tryDelete k = .ok t') : Changes t t'

namespace Trie.Changes

variable {t t' : Trie} {k : Bytes}

theorem delete (k : Bytes) : t.Changes (t.delete k) := by
  unfold Trie.delete
  split
  next heq =>
    exact .remove heq
  · exact .same

theorem tryDeletePresent (h : t.tryDeletePresent k = .ok t') : t.Changes t' := by
  unfold Trie.tryDeletePresent at h
  split at h
  · cases h
    exact .same
  · exact .remove h

theorem prefix_eq (h : t.Changes t') : t'.prefix_ = t.prefix_ := by
  cases h with
  | same => rfl
  | read k => exact (t.tryGet_frame k).2
  | write _ h => exact (Trie.tryUpdate_frame h).2
  | remove h => exact (Trie.tryDelete_frame h).2

end Trie.Changes

theorem TrieInvariant.changes {I : Trie → Prop} (h : TrieInvariant (·.length = 20) I) {t t' : Trie}
    (hc : t.Changes t') (ht : I t) : I t' := by
  cases hc with
  | same => exact ht
  | read k => exact h.read k ht
  | write hv hup => exact h.write hv ht hup
  | remove hdel => exact h.remove ht hdel

namespace DposContext

/-- A property of contexts that changes to the candidates and the delegations keep. -/
structure Kept (J : DposContext → Prop) : Prop where
  candidates : ∀ {d : DposContext} {t : Trie}, J d → d.candidateTrie.Changes t → J { d with candidateTrie := t }
  delegates : ∀ {d : DposContext} {t : Trie}, J d → d.delegateTrie.Changes t → J { d with delegateTrie := t }
  votes : ∀ {d : DposContext} {t : Trie}, J d → d.voteTrie.Changes t → J { d with voteTrie := t }

section
variable {J : DposContext → Prop} (hJ : Kept J) {d : DposContext}
include hJ

theorem Kept.kickoutDelegator (c v : Bytes) (hd : J d) :
    Ends J (fun e => J e.2) (DposContext.kickoutDelegator c v d) := by
  unfold DposContext.kickoutDelegator
  cases hdel : d.delegateTrie.tryDeletePresent (c ++ v) with
  | error e => exact hd
  | ok dt =>
    have hd' := hJ.votes (hJ.delegates hd (.tryDeletePresent hdel)) (.read v)
    dsimp only at hd' ⊢
    cases hget : d.voteTrie.tryGet v with
    | mk r vt =>
      rw [hget] at hd'
      cases r with
      | error e =>
        cases e with
        | _ => exact hd'
      | ok old =>
        dsimp only
        split
        · split
          · exact hd'
          next hvdel =>
            exact hJ.votes hd' (.tryDeletePresent hvdel)
        · exact hd'

theorem Kept.kickoutCandidate (c : Address) (hd : J d) : J (d.kickoutCandidate c).2 := by
  unfold DposContext.kickoutCandidate
  dsimp only
  split
  · exact hd
  next ct hdel =>
    have hloop := LeafIterator.each_ends (·.delegateTrie) (fun d => (DposError.panicked, d))
      (fun v _ hs => hJ.kickoutDelegator c.bytes v hs) (fun _ h => h)
      (LeafIterator.newPrefix d.delegateTrie c.bytes).nodeIt.fuel
      (.newPrefix d.delegateTrie c.bytes) { d with candidateTrie := ct }
      (hJ.candidates hd (.tryDeletePresent hdel))
    split
    next heq =>
      rw [heq] at hloop
      exact hloop
    next heq =>
      rw [heq] at hloop
      exact hloop

theorem Kept.moveDelegation (a c : Address) (old : Option Bytes) (hd : J d) :
    J (d.moveDelegation a.bytes c.bytes old).2 := by
  have hmove : ∀ {d : DposContext}, J d → J (d.moveDelegation a.bytes c.bytes none).2 := by
    intro d hd
    unfold DposContext.moveDelegation
    dsimp only
    split
    · exact hd
    next dt hdt =>
      have hd' := hJ.delegates hd (.write a.length_eq hdt)
      split
      · exact hd'
      next hvt =>
        exact hJ.votes hd' (.write c.length_eq hvt)
  cases old with
  | none => exact hmove hd
  | some old => exact hmove (hJ.delegates hd (.delete (old ++ a.bytes)))

/-- **The operations keep what reads, deletions and writes of addresses keep.** -/
theorem Kept.apply (hd : J d) (op : Poll.Op Address) : J (d.apply op).2 := by
  cases op with
  | becomeCandidate c =>
    unfold DposContext.apply DposContext.becomeCandidate
    dsimp only
    split
    · exact hd
    next hct =>
      exact hJ.candidates hd (.write c.length_eq hct)
  | kickoutCandidate c => exact hJ.kickoutCandidate c hd
  | delegate a c =>
    have hread := hJ.candidates hd (.read c.bytes)
    have hvote := hJ.votes hread (.read a.bytes)
    unfold DposContext.apply DposContext.delegate
    dsimp only at hvote ⊢
    split
    next heq =>
      rwa [heq] at hread
    next heq =>
      rwa [heq] at hread
    next heq =>
      rw [heq] at hvote
      split
      next heq' =>
        rw [heq'] at hvote
        exact hJ.moveDelegation a c _ hvote
      next heq' =>
        rw [heq'] at hvote
        exact hJ.moveDelegation a c _ hvote
      next heq' =>
        rwa [heq'] at hvote
  | unDelegate a c =>
    have hread := hJ.candidates hd (.read c.bytes)
    have hvote := hJ.votes hread (.read a.bytes)
    unfold DposContext.apply DposContext.unDelegate
    dsimp only at hvote ⊢
    split
    next heq =>
      rwa [heq] at hread
    next heq =>
      rwa [heq] at hread
    next heq =>
      rw [heq] at hvote
      split
      next heq' =>
        rwa [heq'] at hvote
      next heq' =>
        rw [heq'] at hvote
        split
        · exact hvote
        · split
          · exact hvote
          next hdt =>
            have hd' := hJ.delegates hvote (.remove hdt)
            split
            · exact hd'
            next hvt =>
              exact hJ.votes hd' (.remove hvt)

end

/-- The tries that candidates and delegations are entered in. -/
structure Votes (I : Trie → Prop) (d : DposContext) : Prop where
  candidates : I d.candidateTrie
  delegates : I d.delegateTrie
  votes : I d.voteTrie

theorem kept_votes {I : Trie → Prop} (hI : TrieInvariant (·.length = 20) I) : Kept (Votes I) where
  candidates h hc := ⟨hI.changes hc h.candidates, h.delegates, h.votes⟩
  delegates h hc := ⟨h.candidates, hI.changes hc h.delegates, h.votes⟩
  votes h hc := ⟨h.candidates, h.delegates, hI.changes hc h.votes⟩

end DposContext

/-! ## Tries of one kind of values -/

/-- A node that was built in memory from values of one kind. -/
def Node.Filled (ok : Bytes → Prop) : Node → Prop
  | .nil => True
  | .value v => ok v
  | .hash _ => False
  | .short _ val flags => flags.hash = none ∧ val.Filled ok
  | .full cs flags => flags.hash = none ∧ ∀ i, (cs i).Filled ok

variable {ok : Bytes → Prop} {n : Node}

theorem Node.Filled.fresh (h : n.Filled ok) : n.Fresh := by
  induction n with
  | nil | value v => trivial
  | hash _ => exact h
  | short k val flags ih => exact ⟨h.1, ih h.2⟩
  | full cs flags ih => exact ⟨h.1, fun i => ih i (h.2 i)⟩

theorem Node.hereditary_filled {db : NodeDatabase} {gen : UInt16} : Hereditary db gen fun _ => Node.Filled ok where
  nil _ := trivial
  short _ _ _ h := ⟨rfl, h⟩
  val h := h.2
  full _ _ h := ⟨rfl, h⟩
  child h := h.2
  load h := h.elim

/-- Reading from memory resolves nothing. -/
theorem Node.Fresh.tryGet {db : NodeDatabase} {gen : UInt16} {f : Nat} :
    ∀ {n n' : Node} {path key : List Nibble} {v : Option Bytes} {r : Bool}, n.Fresh →
      Node.tryGet db gen f n path key = .ok (v, n', r) → r = false := by
  induction f with
  | zero =>
    intro n n' path key v r _ h
    cases h
  | succ f ih =>
    intro n n' path key v r hn h
    cases n with
    | nil | value w =>
      cases h
      rfl
    | hash _ => exact hn.elim
    | short k val flags =>
      unfold Node.tryGet at h
      split at h
      · obtain ⟨⟨v', n'', r'⟩, hget, h⟩ := except_bind_ok_iff.mp h
        obtain rfl := ih hn.2 hget
        cases h
        rfl
      · cases h
        rfl
    | full cs flags =>
      cases key with
      | nil => cases h
      | cons i key =>
        obtain ⟨⟨v', n'', r'⟩, hget, h⟩ := except_bind_ok_iff.mp h
        obtain rfl := ih (hn.2 i) hget
        cases h
        rfl

theorem Trie.tryGet_of_fresh {t : Trie} (h : t.root.Fresh) (k : Bytes) : (t.tryGet k).2 = t := by
  unfold Trie.tryGet
  split
  · rfl
  next hget =>
    obtain rfl := h.tryGet hget
    rfl

theorem Node.Filled.mono {ok' : Bytes → Prop} (hle : ∀ v, ok v → ok' v) (h : n.Filled ok) : n.Filled ok' := by
  induction n with
  | nil => trivial
  | value v => exact hle v h
  | hash _ => exact h
  | short k val flags ih => exact ⟨h.1, ih h.2⟩
  | full cs flags ih => exact ⟨h.1, fun i => ih i (h.2 i)⟩

/-- A trie with values of one kind that was built in memory. -/
structure Trie.Holding (ok : Bytes → Prop) (t : Trie) : Prop where
  readable : t.Readable
  filled : t.root.Filled ok

theorem Trie.Holding.mono {ok' : Bytes → Prop} (hle : ∀ v, ok v → ok' v) {t : Trie} (h : t.Holding ok) : t.Holding ok' :=
  ⟨h.readable, h.filled.mono hle⟩

theorem Trie.holding_empty (db : NodeDatabase) (pre : Bytes) : (Trie.empty db pre).Holding ok :=
  ⟨⟨_, Trie.holds_empty db pre⟩, trivial⟩

theorem Trie.holding_invariant (hok : ∀ v, ok v → v ≠ []) : TrieInvariant ok (Trie.Holding ok) where
  read k ht := by
    rw [Trie.tryGet_of_fresh ht.filled.fresh]
    exact ht
  write {t t' k v} hv ht hup := by
    obtain ⟨m, hm⟩ := ht.readable
    obtain ⟨t'', hup', hm'⟩ := hm.tryUpdate k (hok v hv)
    rw [hup] at hup'
    cases hup'
    refine ⟨⟨_, hm'⟩, ?_⟩
    unfold Trie.tryUpdate at hup
    rw [if_pos (by simpa using hok v hv)] at hup
    obtain ⟨⟨dirty, n⟩, hinsert, hup⟩ := except_bind_ok_iff.mp hup
    cases hup
    exact Node.hereditary_filled.insert (b := true) (fun _ => hv) hinsert ht.filled
  remove {t t' k} ht hdel := by
    obtain ⟨m, hm⟩ := ht.readable
    obtain ⟨t'', hdel', hm'⟩ := hm.tryDelete k
    rw [hdel] at hdel'
    cases hdel'
    refine ⟨⟨_, hm'⟩, ?_⟩
    obtain ⟨⟨dirty, n⟩, hdelete, hdel⟩ := except_bind_ok_iff.mp hdel
    cases hdel
    exact Node.hereditary_filled.delete (b := true) hdelete ht.filled

end Bgmchain
