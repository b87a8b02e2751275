import Bgmchain.Consensus.Dpos.Sample

/-! # Snapshots of the DPoS context

`Copy`, `Snapshot` and `RevertToSnapShot` of `core/types/dpos_context.go`. A copy has tries of its
own. Going back to it makes the context point to the tries of the copy, so what is done to the
context from then on is done to the copy. -/
namespace Bgmchain.DposContext
open Common

inductive TrieName where
  | epoch | delegate | vote | candidate | mintCnt
deriving DecidableEq

def trie (d : DposContext) : TrieName → Trie
  | .epoch => d.epochTrie
  | .delegate => d.delegateTrie
  | .vote => d.voteTrie
  | .candidate => d.candidateTrie
  | .mintCnt => d.mintCntTrie

/-- Some tries of one context, and the others of another. -/
def pick (names : TrieName → Bool) (d d' : DposContext) : DposContext :=
  { d' with
    epochTrie := if names .epoch then d.epochTrie else d'.epochTrie
    delegateTrie := if names .delegate then d.delegateTrie else d'.delegateTrie
    voteTrie := if names .vote then d.voteTrie else d'.voteTrie
    candidateTrie := if names .candidate then d.candidateTrie else d'.candidateTrie
    mintCntTrie := if names .mintCnt then d.mintCntTrie else d'.mintCntTrie }

/-- A context and a snapshot of it. The context points to tries of its own, or to the snapshot's. -/
structure Snapped where
  own : DposContext
  copy : DposContext
  shared : TrieName → Bool

/-- The context, with the tries it points to. -/
def Snapped.context (c : Snapped) : DposContext := pick c.shared c.copy c.own

/-- `Snapshot`, which is `Copy`. A copy has no database, which none of its tries needs. -/
def snapshot (d : DposContext) : Snapped := ⟨d, d, fun _ => false⟩

/-- What is done to a context: a call that writes to its tries, such as `Delegate`, `SetValidators`, `Root` or
`CommitTo`; `SetEpoch` and the like, which take a new trie; and `RevertToSnapShot`. -/
inductive Event where
  | call (f : DposContext → DposContext)
  | set (name : TrieName) (t : Trie)
  | revertToSnapShot

def Snapped.step (c : Snapped) : Event → Snapped
  | .call f => { c with own := f c.context, copy := pick c.shared (f c.context) c.copy }
  | .set name t =>
    { c with own := pick (· = name) ⟨t, t, t, t, t, c.own.db⟩ c.own, shared := Function.update c.shared name false }
  | .revertToSnapShot => { c with shared := fun _ => true }

def Snapped.run (c : Snapped) (events : List Event) : Snapped := events.foldl step c

theorem trie_pick (names : TrieName → Bool) (d d' : DposContext) (name : TrieName) :
    (pick names d d').trie name = if names name then d.trie name else d'.trie name := by
  cases name <;> rfl

section
variable [Crypto]

theorem toProto_eq_iff {d d' : DposContext} : d.toProto = d'.toProto ↔ ∀ name, (d.trie name).hash = (d'.trie name).hash := by
  constructor
  · intro h name
    rw [toProto, toProto, DposContextProto.mk.injEq] at h
    cases name <;> simp only [trie, h]
  · intro h
    rw [toProto, toProto, DposContextProto.mk.injEq]
    exact ⟨h .epoch, h .delegate, h .candidate, h .vote, h .mintCnt⟩

/-- A call leaves the roots of the shared tries as they are. -/
def Snapped.Leaves (c : Snapped) (f : DposContext → DposContext) : Prop :=
  ∀ name, c.shared name = true → ((f c.context).trie name).hash = (c.context.trie name).hash

theorem Snapped.toProto_step (c : Snapped) (event : Event) :
    (c.step event).copy.toProto = c.copy.toProto ↔ ∀ f, event = .call f → c.Leaves f := by
  cases event with
  | set | revertToSnapShot => exact iff_of_true rfl nofun
  | call f =>
    have hleaves : c.Leaves f ↔ ∀ f', Event.call f = .call f' → c.Leaves f' := by simp
    rw [← hleaves, toProto_eq_iff]
    refine forall_congr' fun name => ?_
    cases hshared : c.shared name <;> simp [step, context, trie_pick, hshared]

/-- The roots of the snapshot never change, and going back restores the roots that the context had. -/
def Independent (d : DposContext) (events : List Event) : Prop :=
  (∀ pre, pre <+: events → (d.snapshot.run pre).copy.toProto = d.toProto) ∧
    ∀ pre, pre ++ [.revertToSnapShot] <+: events →
      (d.snapshot.run (pre ++ [.revertToSnapShot])).context.toProto = d.toProto

end

end Bgmchain.DposContext
