import Bgmchain.Consensus.Dpos.EpochContext
import Bgmchain.Core.Types.Consistent

/-! # What the election does to the context

Everything `tryElect` does to the tries is one of four things: it reads the
mint counts, reads or replaces the validators, and kicks out candidates. An
invariant that survives these survives the election. -/
namespace Bgmchain.Dpos
open Common Lib.Hoare

/-! ## The programs, case by case -/

theorem needKickout_cons (epoch required : Int) (v : Address) (vs : List Address) (d : DposContext) :
    needKickout epoch required (v :: vs) d =
      match mintCnt epoch v d with
      | .error e d' => .error e d'
      | .ok cnt d1 =>
        match needKickout epoch required vs d1 with
        | .error e d' => .error e d'
        | .ok need d2 => .ok (if cnt < required then (v, cnt) :: need else need) d2 := by
  show EStateM.bind _ _ d = _
  unfold EStateM.bind
  cases mintCnt epoch v d with
  | error e d' => rfl
  | ok cnt d1 =>
    show EStateM.bind _ _ d1 = _
    unfold EStateM.bind
    dsimp only
    cases needKickout epoch required vs d1 with
    | error e d' | ok need d2 => rfl

theorem kickoutLoop_cons (n : Nat) (v : Address) (cnt : Int) (rest : List (Address × Int))
    (d : DposContext) :
    kickoutLoop n ((v, cnt) :: rest) d =
      if n ≤ safeSize then .ok () d
      else
        match d.kickoutCandidate v with
        | (some e, d') => .error (.context e) d'
        | (none, d') => kickoutLoop (n - 1) rest d' := by
  by_cases hn : n ≤ safeSize
  · simp only [kickoutLoop, hn, if_true]
    rfl
  · simp only [kickoutLoop, hn, if_false]
    show EStateM.bind _ _ d = _
    cases hk : d.kickoutCandidate v with
    | mk err d' =>
      cases err with
      | none | some e =>
        simp [EStateM.bind, get, getThe, MonadStateOf.get, EStateM.get, hk, bind, set, EStateM.set,
          throw, throwThe, MonadExceptOf.throw, EStateM.throw]

section
variable [Crypto]

theorem kickoutValidator_eq (ts first epoch : Int) (d : DposContext) :
    kickoutValidator ts first epoch d =
      match d.getValidators with
      | (.error e, d1) => .error (.failedToGetValidator e) d1
      | (.ok vs, d1) =>
        if vs = [] then .error .noValidatorCouldBeKickout d1
        else
          match needKickout epoch (minBlocks ts first) vs d1 with
          | .error e d2 => .error e d2
          | .ok need d2 =>
            if need = [] then .ok () d2
            else
              match countCandidates d2 (need.length + safeSize) with
              | .error e => .error e d2
              | .ok n => kickoutLoop n (sortReverse need) d2 := by
  unfold kickoutValidator
  show EStateM.bind _ _ d = _
  unfold EStateM.bind getValidators
  cases d.getValidators with
  | mk r d1 =>
    cases r with
    | error e => rfl
    | ok vs =>
      by_cases hv : vs = []
      · simp only [hv, if_true]
        rfl
      · simp only [hv, if_false]
        show EStateM.bind _ _ d1 = _
        unfold EStateM.bind
        cases needKickout epoch (minBlocks ts first) vs d1 with
        | error e d2 => rfl
        | ok need d2 =>
          by_cases hn : need = []
          · simp only [hn, if_true]
            rfl
          · simp only [hn, if_false]
            show EStateM.bind _ _ d2 = _
            simp only [EStateM.bind, get, getThe, MonadStateOf.get, EStateM.get]
            cases countCandidates d2 (need.length + safeSize) with
            | error e | ok n => rfl

theorem kickoutTurn_eq (ts first prevEpoch : Int) (isGenesis : Bool) (iter : LeafIterator)
    (d : DposContext) :
    kickoutTurn ts first prevEpoch isGenesis iter d =
      if isGenesis then .ok iter d
      else
        match iter.next d.mintCntTrie with
        | (.item _, iter') =>
          match kickoutValidator ts first prevEpoch d with
          | .ok _ d' => .ok iter' d'
          | .error e d' => .error e d'
        | (.done, iter') => .ok iter' d
        | (.panicked, _) => .error .panicked d := by
  cases isGenesis with
  | true => rfl
  | false =>
    simp only [kickoutTurn, Bool.false_eq_true, if_false]
    show EStateM.bind _ _ d = _
    simp only [EStateM.bind, get, getThe, MonadStateOf.get, EStateM.get]
    cases iter.next d.mintCntTrie with
    | mk r iter' =>
      cases r with
      | item v =>
        show EStateM.bind _ _ d = _
        unfold EStateM.bind
        cases kickoutValidator ts first prevEpoch d <;> rfl
      | done | panicked => rfl

variable [Rand]

theorem electRound_eq (balance : Address → Int) (parentHash : Hash) (i : Int) (d : DposContext) :
    electRound balance parentHash i d =
      match countVotes balance d with
      | .error e => .error e d
      | .ok votes =>
        if votes.length < safeSize then .error .tooFewCandidates d
        else .ok () (({ d with epochTrie := .empty d.db epochPrefix }).setValidators
          (electValidators parentHash i votes)) := by
  unfold electRound
  show EStateM.bind _ _ d = _
  simp only [EStateM.bind, get, getThe, MonadStateOf.get, EStateM.get]
  cases countVotes balance d with
  | error e => rfl
  | ok votes =>
    by_cases hv : votes.length < safeSize
    · simp only [hv, if_true]
      rfl
    · simp only [hv, if_false]
      rfl

theorem electLoop_succ (balance : Address → Int) (ts first prevEpoch : Int) (isGenesis : Bool)
    (parentHash : Hash) (n : Nat) (i : Int) (iter : LeafIterator) (d : DposContext) :
    electLoop balance ts first prevEpoch isGenesis parentHash (n + 1) i iter d =
      match kickoutTurn ts first prevEpoch isGenesis iter d with
      | .error e d' => .error e d'
      | .ok iter' d1 =>
        match electRound balance parentHash i d1 with
        | .error e d' => .error e d'
        | .ok _ d2 =>
          electLoop balance ts first prevEpoch isGenesis parentHash n (i + 1) iter' d2 := by
  show EStateM.bind _ _ d = _
  unfold EStateM.bind
  cases kickoutTurn ts first prevEpoch isGenesis iter d with
  | error e d' => rfl
  | ok iter' d1 =>
    show EStateM.bind _ _ d1 = _
    unfold EStateM.bind
    dsimp only
    cases electRound balance parentHash i d1 with
    | error e d' | ok u d2 => rfl

/-- The epoch whose counts `tryElect` looks at, and the first epoch it ends. -/
def electFrom (timeStamp : Int) (genesis parent : Header) : Int :=
  if epochOf (int64 parent.time) = epochOf (int64 genesis.time) ∧
      epochOf (int64 parent.time) < epochOf timeStamp then epochOf timeStamp - 1
  else epochOf (int64 parent.time)

theorem tryElect_eq (balance : Address → Int) (ts first : Int) (genesis parent : Header)
    (d : DposContext) : tryElect balance ts first genesis parent d =
      electLoop balance ts first (electFrom ts genesis parent)
        (decide (epochOf (int64 parent.time) = epochOf (int64 genesis.time))) parent.hash
        (epochOf ts - electFrom ts genesis parent).toNat (electFrom ts genesis parent)
        (.newPrefix d.mintCntTrie (putUint64 (uint64OfInt64 (electFrom ts genesis parent)))) d := by
  simp only [electFrom]
  unfold tryElect
  show EStateM.bind _ _ d = _
  simp only [EStateM.bind, get, getThe, MonadStateOf.get, EStateM.get, decide_eq_true_eq]

end

/-! ## Invariants -/

/-- An invariant of the four ways the election touches a context. -/
structure ElectInvariant (I : DposContext → Prop) : Prop where
  readMintCnt : ∀ d k, I d → I { d with mintCntTrie := (d.mintCntTrie.get k).2 }
  setEpoch : ∀ d t, I d → I { d with epochTrie := t }
  kickout : ∀ d c, I d → I (d.kickoutCandidate c).2

namespace ElectInvariant

variable {I : DposContext → Prop} (h : ElectInvariant I)
include h

theorem mintCnt (epoch : Int) (v : Address) : Keeps I (mintCnt epoch v) := by
  intro d hd
  have hr := h.readMintCnt d (mintCntKey epoch v) hd
  unfold Dpos.mintCnt
  cases hg : d.mintCntTrie.get (mintCntKey epoch v) with
  | mk cntBytes t =>
    rw [hg] at hr
    cases cntBytes with
    | none => exact hr
    | some b =>
      cases hb : getUint64 b with
      | none | some n => simpa only [hb] using hr

theorem needKickout (epoch required : Int) (vs : List Address) : Keeps I (needKickout epoch required vs) := by
  induction vs with
  | nil => exact Keeps.pure _
  | cons v vs ih =>
    refine Keeps.bind (h.mintCnt epoch v) fun cnt => Keeps.bind ih fun need => ?_
    exact Keeps.pure _

theorem getValidators {d : DposContext} (hd : I d) : I d.getValidators.2 := by
  unfold DposContext.getValidators
  cases hg : d.epochTrie.get DposContext.validatorKey with
  | mk rlp t =>
    cases hv : DposContext.decodeValidators (rlp.getD []) with
    | none | some vs => simpa only [hv] using h.setEpoch d t hd

theorem kickoutLoop (need : List (Address × Int)) : ∀ n, Keeps I (kickoutLoop n need) := by
  induction need with
  | nil => intro n; exact Keeps.pure _
  | cons e need ih =>
    intro n d hd
    have hk := h.kickout d e.1 hd
    rw [kickoutLoop_cons]
    by_cases hn : n ≤ safeSize
    · rw [if_pos hn]
      exact hd
    · rw [if_neg hn]
      cases hc : d.kickoutCandidate e.1 with
      | mk err d' =>
        rw [hc] at hk
        cases err with
        | none => exact ih (n - 1) d' hk
        | some e => exact hk

variable [Crypto]

theorem kickoutValidator (ts first epoch : Int) : Keeps I (kickoutValidator ts first epoch) := by
  refine Keeps.bind (fun d hd => h.getValidators hd) fun r => ?_
  split
  · exact Keeps.throw _
  next vs =>
    refine Triple.ite (fun _ _ hd => hd) fun _ => Keeps.bind (h.needKickout epoch _ vs) fun need => ?_
    refine Triple.ite (fun _ => Keeps.pure _) fun _ => Keeps.get_bind fun d => ?_
    split
    · exact Keeps.throw _
    · exact h.kickoutLoop _ _

theorem kickoutTurn (ts first prevEpoch : Int) (isGenesis : Bool) (iter : LeafIterator) :
    Keeps I (kickoutTurn ts first prevEpoch isGenesis iter) := by
  refine Triple.ite (fun _ => Keeps.pure _) fun _ => Keeps.get_bind fun d => ?_
  split
  · exact Keeps.bind (h.kickoutValidator ts first prevEpoch) fun _ => Keeps.pure _
  · exact Keeps.pure _
  · exact Keeps.throw _

variable [Rand]

theorem electRound (balance : Address → Int) (parentHash : Hash) (i : Int) :
    Keeps I (electRound balance parentHash i) := by
  refine Keeps.get_bind fun d => ?_
  split
  · exact Keeps.throw _
  · exact Triple.ite (fun _ _ hd => hd) fun _ => Keeps.modify _ fun d => h.setEpoch d _

theorem electLoop (balance : Address → Int) (ts first prevEpoch : Int) (isGenesis : Bool)
    (parentHash : Hash) (n : Nat) : ∀ i iter,
      Keeps I (electLoop balance ts first prevEpoch isGenesis parentHash n i iter) := by
  induction n with
  | zero => intro i iter; exact Keeps.pure _
  | succ n ih =>
    intro i iter
    exact Keeps.bind (h.kickoutTurn ts first prevEpoch isGenesis iter) fun iter' =>
      Keeps.bind (h.electRound balance parentHash i) fun _ => ih (i + 1) iter'

/-- **The election keeps every such invariant**, whether it succeeds or fails. -/
theorem tryElect (balance : Address → Int) (ts first : Int) (genesis parent : Header) :
    Keeps I (tryElect balance ts first genesis parent) := by
  intro d hd
  rw [tryElect_eq]
  exact h.electLoop balance ts first _ _ _ _ _ _ d hd

end ElectInvariant

end Bgmchain.Dpos
