import Bgmchain.Consensus.Dpos.Engine
import Bgmchain.Lib.Ancestry
import Bgmchain.Lib.Hoare

/-! # The confirmed block

What a call of `updateConfirmedBlockHeader` can do: it walks from the current
header towards the genesis header and either leaves the confirmed header as it is
or replaces it by a header it has walked to. The walk stops at the old one, but it
need not come across it. -/
namespace Bgmchain.Dpos
open Common Lib.Ancestry
open Lib.Hoare (Triple stateAfter)

section
variable [Crypto]

/-- The header under the parent hash of another. -/
def parentIn (chain : ChainReader) (header : Header) : Option Header :=
  chain.getHeaderByHash header.parentHash

/-- The header, or one of those that it is built on, is `ancestor`. -/
def DescendsFrom (chain : ChainReader) (header ancestor : Header) : Prop :=
  Descends (parentIn chain) Header.hash header ancestor.hash

/-- The confirmed header after a call. -/
def confirmedAfter (putOk : Bool) (chain : ChainReader) (e : Engine) : Option Header :=
  (stateAfter (updateConfirmedBlockHeader putOk chain) e).confirmedBlockHeader

/-- The confirmed header is left as it is, or set to one that a walk from `cur` comes
to without meeting the old one. -/
def Moves (chain : ChainReader) (confirmed cur : Header) (e e' : Engine) : Prop :=
  e'.confirmedBlockHeader = e.confirmedBlockHeader ∨
    ∃ c, e'.confirmedBlockHeader = some c ∧ Avoids (parentIn chain) Header.hash confirmed.hash cur c

theorem confirmLoop_moves (putOk : Bool) (chain : ChainReader) (confirmed : Header) (f : Nat) :
    ∀ (cur : Header) (epoch : Int) (validators : List Address) (e : Engine),
      Triple (· = e) (confirmLoop putOk chain confirmed f cur epoch validators)
        (fun _ => Moves chain confirmed cur e) (fun _ => Moves chain confirmed cur e) := by
  induction f with
  | zero =>
    intro cur epoch validators e
    exact Triple.throw _ fun s hs => .inl (congrArg (·.confirmedBlockHeader) hs)
  | succ f ih =>
    intro cur epoch validators e
    have hstay : ∀ s : Engine, s = e → Moves chain confirmed cur e s :=
      fun s hs => .inl (congrArg (·.confirmedBlockHeader) hs)
    refine Triple.ite (fun hmore => ?_) fun _ => Triple.pure _ hstay
    have hne : cur.hash ≠ confirmed.hash := hmore.1.symm
    refine Triple.ite (fun _ => Triple.pure _ hstay) fun _ => ?_
    refine Triple.ite (fun _ => ?_) fun _ => ?_
    · -- the confirmed header is set before it is stored
      intro s _
      have hset : ∀ head, Moves chain confirmed cur e
          { s with confirmedBlockHeader := some cur, confirmedHead := head } :=
        fun head => .inr ⟨cur, rfl, .here hne⟩
      cases putOk with
      | true => exact hset (some cur.hash.bytes)
      | false => exact hset s.confirmedHead
    · split
      · exact Triple.throw _ hstay
      next parent hparent =>
        have hstep : ∀ e', Moves chain confirmed parent e e' → Moves chain confirmed cur e e' := by
          intro e' hm
          rcases hm with hm | ⟨c, hc, hwalk⟩
          · exact .inl hm
          · exact .inr ⟨c, hc, .step hne hparent hwalk⟩
        exact (ih parent _ _ e).conseq (fun _ h => h) (fun _ => hstep) fun _ => hstep

variable {putOk : Bool} {chain : ChainReader} {e : Engine} {confirmed : Header}

section
variable (h : confirmedHeader chain e = some confirmed)
include h

theorem updateConfirmedBlockHeader_eq :
    updateConfirmedBlockHeader putOk chain e =
      confirmLoop putOk chain confirmed (uint64 chain.currentHeader.number + 1) chain.currentHeader (-1) []
        { e with confirmedBlockHeader := some confirmed } := by
  unfold updateConfirmedBlockHeader
  show EStateM.bind _ _ e = _
  simp only [EStateM.bind, MonadState.get, getThe, MonadStateOf.get, EStateM.get, h]
  rfl

theorem updateConfirmedBlockHeader_moves : confirmedAfter putOk chain e = some confirmed ∨
      ∃ c, confirmedAfter putOk chain e = some c ∧
        Avoids (parentIn chain) Header.hash confirmed.hash chain.currentHeader c := by
  have hloop := (confirmLoop_moves putOk chain confirmed (uint64 chain.currentHeader.number + 1)
    chain.currentHeader (-1) [] { e with confirmedBlockHeader := some confirmed }).stateAfter rfl
  unfold confirmedAfter
  unfold stateAfter at hloop ⊢
  rw [updateConfirmedBlockHeader_eq h]
  exact hloop

/-- **What a call confirms anew descends from what was confirmed before exactly when
the current header does.** -/
theorem confirmedAfter_descends_iff {c : Header}
    (hnew : confirmedAfter putOk chain e = some c) (hne : c ≠ confirmed) :
    DescendsFrom chain c confirmed ↔ DescendsFrom chain chain.currentHeader confirmed := by
  rcases updateConfirmedBlockHeader_moves h with hold | ⟨c', hc', hwalk⟩
  · rw [hnew] at hold
    exact absurd (Option.some.inj hold) hne
  · rw [hnew] at hc'
    cases hc'
    exact hwalk.descends_iff

end

/-! ## The walk ends -/

/-- Above number zero a header has its parent in the chain, one number below. -/
def HasParent (chain : ChainReader) (header : Header) : Prop :=
  uint64 header.number ≠ 0 →
    ∃ parent, parentIn chain header = some parent ∧ uint64 parent.number + 1 = uint64 header.number

/-- A chain that goes down to number zero from wherever one starts. -/
structure Connected (chain : ChainReader) : Prop where
  current : HasParent chain chain.currentHeader
  stored : ∀ hash header, chain.getHeaderByHash hash = some header → HasParent chain header

/-- On a connected chain the loop returns before its fuel is used up. -/
theorem confirmLoop_ok (hchain : Connected chain) (confirmed : Header) (f : Nat) :
    ∀ (cur : Header) (epoch : Int) (validators : List Address) (e : Engine),
      HasParent chain cur → uint64 cur.number < f →
      ∃ e', confirmLoop true chain confirmed f cur epoch validators e = .ok () e' := by
  induction f with
  | zero => intro cur epoch validators e _ hf; omega
  | succ f ih =>
    intro cur epoch validators e hcur hf
    unfold confirmLoop
    by_cases hmore : confirmed.hash ≠ cur.hash ∧ uint64 confirmed.number < uint64 cur.number
    · simp only [if_pos hmore]
      obtain ⟨parent, hparent, hnumber⟩ := hcur (by omega)
      generalize (if epochOf (int64 cur.time) ≠ epoch then [] else validators) = witnesses
      split
      · exact ⟨e, rfl⟩
      · split
        · exact ⟨_, rfl⟩
        · have hp : chain.getHeaderByHash cur.parentHash = some parent := hparent
          simp only [hp]
          exact ih parent _ _ e (hchain.stored _ _ hp) (by omega)
    · rw [if_neg hmore]
      exact ⟨e, rfl⟩

/-- On a connected chain with a genesis header, `updateConfirmedBlockHeader` succeeds
as long as the database takes the write. -/
theorem updateConfirmedBlockHeader_ok (hchain : Connected chain) {genesis : Header}
    (hg : chain.getHeaderByNumber 0 = some genesis) (e : Engine) :
    ∃ e', updateConfirmedBlockHeader true chain e = .ok () e' := by
  obtain ⟨confirmed, hconf⟩ : ∃ confirmed, confirmedHeader chain e = some confirmed := by
    unfold confirmedHeader
    split
    · exact ⟨_, rfl⟩
    · split
      · exact ⟨_, rfl⟩
      · exact ⟨genesis, hg⟩
  rw [updateConfirmedBlockHeader_eq hconf]
  exact confirmLoop_ok hchain confirmed _ _ _ _ _ hchain.current (Nat.lt_succ_self _)

end

end Bgmchain.Dpos
