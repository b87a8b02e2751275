import Bgmchain.Consensus.Dpos.Success
import Bgmchain.Core.Sample

/-! # Which blocks are imported

What `insertChain` requires of a block before it writes it. `Process` drops the
error of `Finalize`, so a block whose election fails is written all the same when
its header carries the root of the context that the failed election has left. -/
namespace Bgmchain.Core
open Common DposContext BlockChain Dpos
open Dpos (Regular CanElect Finalized)
open Lib.Hoare (Triple bind_ok_iff pure_ok_iff throw_ok_iff get_ok_iff set_ok_iff except_bind_ok_iff
  except_toOption_eq_some_iff)

variable {σ : Type} [Execution σ] {bc bc' : BlockChain σ} {block : Block σ} {state : σ} {d : DposContext}
  {w : BlockChain.World} {p : Progress σ}

section
theorem check_ok_iff {α : Type} {r : Except Error α} {a : α} :
    (check r : Import σ α) bc = .ok a bc' ↔ r = .ok a ∧ bc = bc' := by
  cases r with
  | ok b =>
    rw [check, pure_ok_iff, Except.ok.injEq]
  | error e =>
    rw [check, throw_ok_iff]
    simp

variable [Crypto] [Rand]

theorem process_ok_iff {chain : Dpos.ChainReader} {first : Int} {q : Processed σ} :
    process chain first block state d = .ok q ↔ ∃ p, runTransactions chain.config block state d = .ok p ∧
      let f := finalize chain first block.header p.state p.dposContext
      f.err.any (·.isPanic) = false ∧ q = ⟨p.receipts, p.usedGas, f.state, f.dposContext, f.timeOfFirstBlock⟩ := by
  unfold process
  rw [except_bind_ok_iff]
  refine exists_congr fun p => and_congr_right fun _ => ?_
  dsimp only
  cases (finalize chain first block.header p.state p.dposContext).err.any (·.isPanic) with
  | true => simp [Bind.bind, Except.bind, MonadExcept.throw, throw, throwThe, MonadExceptOf.throw]
  | false => simp [Pure.pure, Except.pure, eq_comm]

namespace BlockChain

omit [Common.Rand] in
theorem validateDposState_ok_iff {u : Unit} :
    validateDposState block d = .ok u ↔ block.header.dposContext.root = d.root := by
  unfold validateDposState
  dsimp only
  split
  next hne =>
    simp [hne]
  next heq =>
    simp [not_not.mp heq]

theorem importBlock_ok_iff {i : Nat} {parent : Block σ}
    {status : WriteStatus} :
    importBlock w i block parent bc = .ok status bc' ↔
      ∃ d state, newFromProto bc.engine.db parent.header.dposContext = .ok d ∧
        bc.states parent.header.root = some state ∧
        ∃ p, runTransactions bc.hc.config block state d = .ok p ∧
          let f := finalize bc.hc.reader bc.timeOfFirstBlock block.header p.state p.dposContext
          f.err.any (·.isPanic) = false ∧
          bc.validateState block
            ⟨p.receipts, p.usedGas, f.state, f.dposContext, f.timeOfFirstBlock⟩ = .ok () ∧
          block.header.dposContext.root = f.dposContext.root ∧
          ∃ bc1, verifySeal (w.putOk i) block { bc with timeOfFirstBlock := f.timeOfFirstBlock } = .ok () bc1 ∧
            writeBlockAndState (w.coin i) block f.dposContext f.state bc1 = .ok status bc' := by
  unfold importBlock
  rw [bind_ok_iff]
  constructor
  · rintro ⟨a, s1, hget, hrest⟩
    obtain ⟨rfl, rfl⟩ := get_ok_iff.mp hget
    cases hd : newFromProto bc.engine.db parent.header.dposContext with
    | error e =>
      simp only [hd, throw_ok_iff] at hrest
    | ok d =>
      cases hs : bc.states parent.header.root with
      | none => simp only [hd, hs, throw_ok_iff] at hrest
      | some state =>
        simp only [hd, hs, bind_ok_iff, check_ok_iff, process_ok_iff, set_ok_iff,
          validateDposState_ok_iff] at hrest
        obtain ⟨q, _, ⟨⟨p, hrun, hpanic, rfl⟩, rfl⟩, _, _, rfl, _, _, ⟨hval, rfl⟩, _, _, ⟨hroot, rfl⟩, _, bc1,
          hseal, hwrite⟩ := hrest
        exact ⟨d, state, rfl, rfl, p, hrun, hpanic, hval, hroot, bc1, hseal, hwrite⟩
  · rintro ⟨d, state, hd, hs, p, hrun, hpanic, hval, hroot, bc1, hseal, hwrite⟩
    refine ⟨bc, bc, get_ok_iff.mpr ⟨rfl, rfl⟩, ?_⟩
    simp only [hd, hs, bind_ok_iff, check_ok_iff, process_ok_iff, set_ok_iff, validateDposState_ok_iff]
    exact ⟨_, _, ⟨⟨p, hrun, hpanic, rfl⟩, rfl⟩, (), _, rfl, (), _, ⟨hval, rfl⟩, (), _, ⟨hroot, rfl⟩, (), bc1,
      hseal, hwrite⟩

omit [Common.Rand] in
/-- A block that fails the first checks is not written. -/
theorem refuse_not_written (w : World) (i : Nat) (block : Block σ) (e : Error) :
    Triple (fun _ => True) (refuse w i block e) (fun o _ => ∀ status, o ≠ .written status)
      (fun _ _ => True) := by
  refine Triple.get_bind fun bc _ => ?_
  split
  · exact Triple.pure _ fun _ _ _ => Outcome.noConfusion
  · exact Triple.ite (fun _ _ _ => trivial) fun _ _ _ _ => Outcome.noConfusion
  · exact Triple.ite (fun _ _ _ _ => Outcome.noConfusion) fun _ _ _ => trivial

theorem insertBlock_written_iff {i : Nat} {verified : Option Dpos.Error}
    {prev : Option (Block σ)} {status : WriteStatus} :
    insertBlock w i block verified prev bc = .ok (.written status) bc' ↔ bc.firstCheck block verified = .ok () ∧
        ∃ parent, (prev.orElse fun _ => bc.parentBlock block) = some parent ∧
          importBlock w i block parent bc = .ok status bc' := by
  unfold insertBlock
  rw [bind_ok_iff]
  constructor
  · rintro ⟨a, s1, hget, hrest⟩
    obtain ⟨rfl, rfl⟩ := get_ok_iff.mp hget
    cases hf : bc.firstCheck block verified with
    | ok u =>
      refine ⟨rfl, ?_⟩
      cases hp : (prev.orElse fun _ => bc.parentBlock block) with
      | none => simp only [hf, hp, throw_ok_iff] at hrest
      | some parent =>
        simp only [hf, hp, bind_ok_iff, pure_ok_iff] at hrest
        obtain ⟨status', bc1, himport, heq, rfl⟩ := hrest
        cases heq
        exact ⟨parent, rfl, himport⟩
    | error e =>
      rw [hf] at hrest
      exact absurd rfl ((refuse_not_written w i block e).ok trivial hrest status)
  · rintro ⟨hfirst, parent, hp, himport⟩
    refine ⟨bc, bc, get_ok_iff.mpr ⟨rfl, rfl⟩, ?_⟩
    simp only [hfirst, hp, bind_ok_iff, pure_ok_iff]
    exact ⟨status, bc', himport, rfl, rfl⟩

end BlockChain

end

/-! ## The context after the transactions -/

section
variable {config : Dpos.ChainConfig} {I : DposContext → Prop} (hI : ∀ d op, I d → I (d.apply op).2)
include hI

theorem dropError_invariant {d' : DposContext} (h : I d) {op : Poll.Op Address}
    (hok : dropError (d.apply op) = .ok d') : I d' := by
  have hd : d' = (d.apply op).2 := by
    unfold dropError at hok
    split at hok
    · cases hok
    next heq =>
      rw [heq]
      exact (Except.ok.inj hok).symm
  rw [hd]
  exact hI d op h

theorem applyDposMessage_invariant {d' : DposContext} (h : I d) {msg : Message}
    (hok : applyDposMessage msg d = .ok d') : I d' := by
  unfold applyDposMessage at hok
  split at hok
  · exact dropError_invariant hI h hok
  · exact dropError_invariant hI h hok
  · exact dropError_invariant hI h hok
  · exact dropError_invariant hI h hok
  · cases hok
  · cases hok
  · cases hok
  · cases hok

theorem applyTransaction_invariant {header : Header} {tx : Execution.Tx σ}
    {p' : Progress σ} (h : I p.dposContext) (hok : applyTransaction config header tx p = .ok p') :
    I p'.dposContext := by
  unfold applyTransaction at hok
  split at hok
  · cases hok
  next msg _ =>
    dsimp only at hok
    split at hok
    · cases hok
    · split at hok
      · cases hok
      · split at hok
        · obtain ⟨d, hd, hret⟩ := except_bind_ok_iff.mp hok
          cases hret
          exact applyDposMessage_invariant hI h hd
        · cases hok
          exact h

theorem applyTransactions_invariant [Crypto] {header : Header} (txs : List (Execution.Tx σ)) :
    ∀ {i : Nat} {p p' : Progress σ}, I p.dposContext →
      applyTransactions config header i txs p = .ok p' → I p'.dposContext := by
  induction txs with
  | nil =>
    intro i p p' h hok
    cases hok
    exact h
  | cons tx txs ih =>
    intro i p p' h hok
    obtain ⟨p1, h1, hrest⟩ := except_bind_ok_iff.mp hok
    have hp1 : I p1.dposContext := applyTransaction_invariant hI (by exact h) h1
    exact ih hp1 hrest

/-- What every operation on a context keeps is kept by the transactions of a block. -/
theorem runTransactions_invariant [Crypto]
    (h : I d) (hok : runTransactions config block state d = .ok p) : I p.dposContext :=
  applyTransactions_invariant hI block.transactions h hok

omit hI in
theorem runTransactions_regular [Crypto] (h : Regular d)
    (hok : runTransactions config block state d = .ok p) : Regular p.dposContext :=
  runTransactions_invariant (fun _ op hd => hd.apply op) h hok

omit hI in
/-- No transaction touches the epoch trie. -/
theorem runTransactions_epochTrie [Crypto] (hok : runTransactions config block state d = .ok p) :
    p.dposContext.epochTrie = d.epochTrie :=
  runTransactions_invariant (I := fun d' => d'.epochTrie = d.epochTrie)
    (fun d' op hd => (d'.apply_sameBooks op).epoch.trans hd) rfl hok

end

/-! ## One block -/

/-- A block as the loop of `insertChain` meets it. -/
structure Handling (σ : Type) [Execution σ] where
  chain : BlockChain σ
  world : BlockChain.World
  index : Nat
  block : Block σ
  verified : Option Dpos.Error
  prev : Option (Block σ)

namespace Handling

variable [Crypto] {h : Handling σ}

/-- The block that the transactions are applied on top of. -/
def parent? (h : Handling σ) : Option (Block σ) := h.prev.orElse fun _ => h.chain.parentBlock h.block

/-- What `Process` hands to `Finalize`, when the parent's context and state can be
opened and every transaction can be applied. -/
def progress? (h : Handling σ) : Option (Progress σ) := do
  let parent ← h.parent?
  let d ← (newFromProto h.chain.engine.db parent.header.dposContext).toOption
  let state ← h.chain.states parent.header.root
  (runTransactions h.chain.hc.config h.block state d).toOption

theorem progress?_eq_some : h.progress? = some p ↔ ∃ parent d state, h.parent? = some parent ∧
      newFromProto h.chain.engine.db parent.header.dposContext = .ok d ∧
      h.chain.states parent.header.root = some state ∧
      runTransactions h.chain.hc.config h.block state d = .ok p := by
  simp [progress?, Option.bind_eq_some_iff, except_toOption_eq_some_iff]

/-- The context of the parent is one that the code's own operations make. -/
def OnRegular (h : Handling σ) : Prop :=
  ∀ parent d, h.parent? = some parent →
    newFromProto h.chain.engine.db parent.header.dposContext = .ok d → Regular d

theorem OnRegular.progress (hreg : h.OnRegular) (hp : h.progress? = some p) : Regular p.dposContext := by
  obtain ⟨parent, d, state, hparent, hd, _, hrun⟩ := progress?_eq_some.mp hp
  exact runTransactions_regular (hreg parent d hparent hd) hrun

variable [Rand]

def result (h : Handling σ) : EStateM.Result Error (BlockChain σ) BlockChain.Outcome :=
  insertBlock h.world h.index h.block h.verified h.prev h.chain

/-- The block is written. -/
def Written (h : Handling σ) : Prop := ∃ status bc', h.result = .ok (.written status) bc'

/-- What `Finalize` makes of the block. -/
def finalized (h : Handling σ) (p : Progress σ) : Finalized σ :=
  finalize h.chain.hc.reader h.chain.timeOfFirstBlock h.block.header p.state p.dposContext

/-- `Finalize` returns no error where it is called. -/
def Finalizes (h : Handling σ) : Prop := ∀ p, h.progress? = some p → (h.finalized p).err = none

/-- The checks of `insertChain` that follow the transactions. None of them looks at
the error of `Finalize`. -/
structure Passes (h : Handling σ) (p : Progress σ) : Prop where
  first : h.chain.firstCheck h.block h.verified = .ok ()
  state : h.chain.validateState h.block ⟨p.receipts, p.usedGas, (h.finalized p).state,
    (h.finalized p).dposContext, (h.finalized p).timeOfFirstBlock⟩ = .ok ()
  dposState : h.block.header.dposContext.root = (h.finalized p).dposContext.root
  sealAndWrite : ∃ bc1 status bc2,
    verifySeal (h.world.putOk h.index) h.block
      { h.chain with timeOfFirstBlock := (h.finalized p).timeOfFirstBlock } = .ok () bc1 ∧
    writeBlockAndState (h.world.coin h.index) h.block (h.finalized p).dposContext
      (h.finalized p).state bc1 = .ok status bc2

/-- What it takes for a block to be written. -/
theorem written_iff (h : Handling σ) :
    h.Written ↔ ∃ p, h.progress? = some p ∧ (h.finalized p).err.any (·.isPanic) = false ∧ h.Passes p := by
  unfold Written result
  simp only [insertBlock_written_iff, importBlock_ok_iff]
  constructor
  · rintro ⟨status, bc', hfirst, parent, hparent, d, state, hd, hstate, p, hrun, hpanic, hval, hroot, bc1,
      hseal, hwrite⟩
    refine ⟨p, ?_, hpanic, hfirst, hval, hroot, bc1, status, bc', hseal, hwrite⟩
    simp only [progress?, parent?, hparent, hd, hstate, hrun, Option.bind_eq_bind, Option.bind_some,
      Except.toOption]
  · rintro ⟨p, hp, hpanic, hfirst, hval, hroot, bc1, status, bc', hseal, hwrite⟩
    obtain ⟨parent, d, state, hparent, hd, hstate, hrun⟩ := h.progress?_eq_some.mp hp
    exact ⟨status, bc', hfirst, parent, hparent, d, state, hd, hstate, p, hrun, hpanic, hval, hroot, bc1,
      hseal, hwrite⟩

/-- The election that `Finalize` would have to hold can be held, on what the
transactions have made of the context. -/
def ElectionPossible (h : Handling σ) (p : Progress σ) : Prop :=
  ∀ genesis parent, h.chain.hc.getHeaderByNumber 0 = some genesis →
    h.chain.hc.getHeaderByHash h.block.header.parentHash = some parent →
    CanElect (int64 h.block.header.time) genesis parent p.dposContext

theorem finalizes_iff (hreg : h.OnRegular) (hp : h.progress? = some p)
    (hpanic : (h.finalized p).err.any (·.isPanic) = false) :
    (h.finalized p).err = none ↔ h.ElectionPossible p := by
  have hr := hreg.progress hp
  constructor
  · intro hok genesis parent hg hparent
    obtain ⟨genesis', parent', hg', hparent', hcan⟩ := (hr.finalize_ok_iff _ _ _ _).mp hok
    rw [show h.chain.hc.getHeaderByNumber 0 = some genesis' from hg'] at hg
    rw [show h.chain.hc.getHeaderByHash _ = some parent' from hparent'] at hparent
    cases hg
    cases hparent
    exact hcan
  · intro hcan
    obtain ⟨genesis, parent, hg, hparent⟩ := finalize_headers hpanic
    exact (hr.finalize_ok_iff _ _ _ _).mpr ⟨genesis, parent, hg, hparent, hcan genesis parent hg hparent⟩

/-- A block that is written has been finalized exactly when the block cannot pass
the other checks without an election that can be held. -/
theorem written_finalizes_iff (hreg : h.OnRegular) :
    (h.Written → h.Finalizes) ↔ ∀ p, h.progress? = some p → h.Passes p → h.ElectionPossible p := by
  constructor
  · intro hfin p hp hpass genesis parent hg hparent
    have hpanic : (h.finalized p).err.any (·.isPanic) = false :=
      (hreg.progress hp).finalize_not_panic hg hparent
    exact (finalizes_iff hreg hp hpanic).mp
      (hfin (h.written_iff.mpr ⟨p, hp, hpanic, hpass⟩) p hp) genesis parent hg hparent
  · intro hcan hw p hp
    obtain ⟨p', hp', hpanic, hpass⟩ := h.written_iff.mp hw
    cases hp.symm.trans hp'
    exact (finalizes_iff hreg hp hpanic).mpr (hcan p hp hpass)

end Handling

/-! ## A batch -/

namespace BlockChain

section
variable [Crypto] [Rand]

/-- The blocks that the loop of `insertChain` comes to, each with the chain it finds. -/
def handledFrom (w : World) : Nat → Option (Block σ) → List (Block σ × Option Dpos.Error) →
    BlockChain σ → List (Handling σ)
  | _, _, [], _ => []
  | i, prev, (block, verified) :: rest, bc =>
    if w.interrupted i then []
    else
      ⟨bc, w, i, block, verified, prev⟩ ::
        match insertBlock w i block verified prev bc with
        | .ok _ bc' => handledFrom w (i + 1) (some block) rest bc'
        | .error _ _ => []

/-- The blocks of a batch that `insertChain` comes to. -/
def handled (w : World) (chain : List (Block σ)) (bc : BlockChain σ) : List (Handling σ) :=
  match nonContiguous 0 chain with
  | some _ => []
  | none => handledFrom w 0 none (chain.zip (verdicts w chain bc)) bc

/-- What became of a block, if it caused no error. -/
def outcome? : EStateM.Result Error (BlockChain σ) Outcome → Option Outcome
  | .ok o _ => some o
  | .error _ _ => none

/-- The loop reports what became of the blocks it came to. When it ends in an error, so has the
last of them. -/
theorem insertLoop_reports (w : World) (items : List (Block σ × Option Dpos.Error)) :
    ∀ (i : Nat) (prev : Option (Block σ)) (bc : BlockChain σ),
      match insertLoop w i prev items bc with
      | .ok outcomes _ => outcomes.map some = (handledFrom w i prev items bc).map fun h => outcome? h.result
      | .error e bc' => ∃ h, (handledFrom w i prev items bc).getLast? = some h ∧ h.result = .error e bc' := by
  induction items with
  | nil => exact fun _ _ _ => rfl
  | cons item items ih =>
    intro i prev bc
    obtain ⟨block, verified⟩ := item
    unfold insertLoop handledFrom
    by_cases hint : w.interrupted i
    · rw [if_pos hint, if_pos hint]
      rfl
    · rw [if_neg hint, if_neg hint]
      simp only [bind, EStateM.bind]
      cases hblock : insertBlock w i block verified prev bc with
      | error e bc1 => exact ⟨_, rfl, hblock⟩
      | ok outcome bc1 =>
        have hrest := ih (i + 1) (some block) bc1
        dsimp only
        cases hloop : insertLoop w (i + 1) (some block) items bc1 with
        | error e bc2 =>
          rw [hloop] at hrest
          obtain ⟨h, hlast, hres⟩ := hrest
          exact ⟨h, by rw [List.getLast?_cons, hlast]; rfl, hres⟩
        | ok rest bc2 =>
          rw [hloop] at hrest
          exact congrArg₂ List.cons (congrArg outcome? hblock).symm hrest

theorem handled_singleton {h : Handling σ} (hh : h ∈ handled w [block] bc) :
    h = ⟨bc, w, 0, block, (verdicts w [block] bc).head?.getD none, none⟩ := by
  have hverdicts : [block].zip (verdicts w [block] bc) =
      [(block, (verdicts w [block] bc).head?.getD none)] := rfl
  unfold handled at hh
  rw [hverdicts] at hh
  simp only [nonContiguous, handledFrom] at hh
  split at hh
  · cases hh
  · split at hh
    · exact List.mem_singleton.mp hh
    · exact List.mem_singleton.mp hh

/-- `insertChain` reports what became of the blocks it came to. -/
theorem insertChain_ok {chain : List (Block σ)}
    {outcomes : List Outcome} (hok : insertChain w chain bc = .ok outcomes bc') :
    outcomes.map some = (handled w chain bc).map fun h => outcome? h.result := by
  unfold insertChain at hok
  unfold handled
  cases hn : nonContiguous 0 chain with
  | some i =>
    rw [hn] at hok
    cases hok
  | none =>
    rw [hn] at hok
    have hreports := insertLoop_reports w (chain.zip (verdicts w chain bc)) 0 none bc
    rwa [show insertLoop w 0 none _ bc = .ok outcomes bc' from hok] at hreports

end

/-! ## A block without an election -/

open Dpos.Sample Sample

/-- A context with one validator and no candidates. -/
def lonely : DposContext := (new nodes).setValidators [address 1]

def lonelyGenesis : Header :=
  { header 0 0 (address 0) (.zero 32) with dposContext := lonely.toProto }

def lonelyChain : BlockChain (Address → Int) := chainOf lonelyGenesis (lonely.commitTo nodes)

/-- The first block of the next epoch, with the context of its parent. -/
def lonelyBlock : Block (Address → Int) :=
  empty { header 1 86400 (address 1) lonelyGenesis.hash with dposContext := lonely.toProto }

/-- The context that is opened from the hashes in the genesis header. -/
def lonelyStored : DposContext :=
  { new (lonely.commitTo nodes) with
    epochTrie :=
      { root := .short (keybytesToHex (epochPrefix ++ validatorKey))
          (.value (encodeValidators [address 1])) ⟨some lonely.epochTrie.hash, 0, false⟩
        db := lonely.commitTo nodes
        prefix_ := epochPrefix
        cachegen := 0 } }

theorem lonely_newFromProto : newFromProto (lonely.commitTo nodes) lonely.toProto = .ok lonelyStored := by
  rfl

theorem lonelyStored_regular : Regular lonelyStored := by
  have hkeeping : Dpos.Keeping lonelyStored
      ⟨_, ⟨fun _ => none, fun _ => none, fun _ => none⟩, fun _ => none, lonely.commitTo nodes⟩ :=
    ⟨Trie.holds_leaf rfl (DposContext.encodeValidators_ne_nil _),
      ⟨Trie.holds_empty _ _, Trie.holds_empty _ _, Trie.holds_empty _ _⟩, Trie.holds_empty _ _, rfl, rfl⟩
  refine hkeeping.regular_iff.mpr fun epoch => ⟨fun k v hv => ?_, fun v => ?_⟩
  · cases hv
  · simp [countOf]

theorem lonely_parent {parent : Block (Address → Int)}
    (h : lonelyChain.parentBlock lonelyBlock = some parent) : parent.header = lonelyGenesis := by
  have hparent : (lonelyChain.parentBlock lonelyBlock).map (·.header) = some lonelyGenesis := by
    decide +kernel
  rw [h] at hparent
  exact Option.some.inj hparent

theorem lonely_onRegular : ∀ h ∈ handled (world 86400) [lonelyBlock] lonelyChain, h.OnRegular := by
  intro h hh parent d hparent hd
  rw [handled_singleton hh] at hparent hd
  have hheader := lonely_parent hparent
  rw [hheader] at hd
  have hd : newFromProto (lonely.commitTo nodes) lonely.toProto = .ok d := hd
  rw [lonely_newFromProto] at hd
  cases hd
  exact lonelyStored_regular

end BlockChain

end Bgmchain.Core
