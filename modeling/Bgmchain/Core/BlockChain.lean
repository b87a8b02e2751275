import Bgmchain.Core.StateProcessor

/-! # The block chain

`core/blockchain.go` and `core/block_validator.go`: what is checked of a block
before it is written, how it is written, and how the canonical chain follows the
greater total difficulty. Receipts, logs, preimages and events are left out, as
are the caches. -/
namespace Bgmchain.Core
open Common
open Dpos (ChainReader isForked predUint64 StateDB)

/-- What importing blocks reads and writes. `states` is what `state.New` opens,
`txLookups` the lookup entries of transactions (block hash, number, index), and
`timeOfFirstBlock` the global of the engine's package. -/
structure BlockChain (σ : Type) [Execution σ] where
  hc : HeaderChain
  bodies : Hash → Nat → Option (List (Execution.Tx σ) × List Header)
  states : Hash → Option σ
  txLookups : Hash → Option (Hash × Nat × Nat)
  engine : Dpos.Engine
  timeOfFirstBlock : Int
  currentBlock : Block σ
  currentFastBlock : Block σ
  futureBlocks : List (Block σ)
  badHashes : List Hash

abbrev Import (σ : Type) [Execution σ] := EStateM Error (BlockChain σ)

section
variable {σ : Type} [Execution σ]

/-- A check that leaves the chain as it is. -/
def check {α : Type} (r : Except Error α) : Import σ α :=
  match r with
  | .ok a => pure a
  | .error e => throw e

namespace Block

variable [Crypto]

def hash (b : Block σ) : Hash := b.header.hash

def number (b : Block σ) : Nat := uint64 b.header.number

end Block

namespace BlockChain

variable [Crypto]

def getBlock (bc : BlockChain σ) (hash : Hash) (number : Nat) : Option (Block σ) := do
  let header ← bc.hc.getHeader hash number
  let (transactions, uncles) ← bc.bodies hash number
  return ⟨header, transactions, uncles⟩

def getBlockByHash (bc : BlockChain σ) (hash : Hash) : Option (Block σ) :=
  bc.getBlock hash (bc.hc.getBlockNumber hash)

/-- The parent of a block, if it is stored. -/
def parentBlock (bc : BlockChain σ) (b : Block σ) : Option (Block σ) :=
  bc.getBlock b.header.parentHash (predUint64 b.number)

def hasBlockAndState (bc : BlockChain σ) (hash : Hash) : Bool :=
  match bc.getBlockByHash hash with
  | none => false
  | some b => (bc.states b.header.root).isSome

/-! ## Validating -/

/-- `types.CalcUncleHash`; a list with a header that cannot be encoded hashes
nothing. -/
def calcUncleHash (uncles : List Header) : Hash :=
  let enc := uncles.mapM Header.encode
  Crypto.keccak256 ((enc.map fun es => Lib.Rlp.encodeList es.flatten).getD [])

/-- `ValidateBody` -/
def validateBody (bc : BlockChain σ) (block : Block σ) : Except Error Unit := do
  if bc.hasBlockAndState block.hash then throw .knownBlock
  if ¬ bc.hasBlockAndState block.header.parentHash then throw .unknownAncestor
  -- `VerifyUncles` of the engine
  if block.uncles.length > 0 then throw .unclesNotAllowed
  let uncleHash := calcUncleHash block.uncles
  if uncleHash ≠ block.header.uncleHash then throw (.uncleHashMismatch uncleHash block.header.uncleHash)
  let txSha := Execution.txSha block.transactions
  if txSha ≠ block.header.txHash then throw (.txHashMismatch txSha block.header.txHash)

/-- `ValidateState` -/
def validateState (bc : BlockChain σ) (block : Block σ) (p : Processed σ) : Except Error Unit := do
  let header := block.header
  if header.gasUsed ≠ p.usedGas then throw (.invalidGasUsed header.gasUsed p.usedGas)
  let rbloom := Execution.createBloom p.receipts
  if rbloom ≠ header.bloom then throw (.invalidBloom header.bloom rbloom)
  let receiptSha := Execution.receiptSha p.receipts
  if receiptSha ≠ header.receiptHash then throw (.invalidReceiptHash header.receiptHash receiptSha)
  let root := (StateDB.intermediateRoot p.state (isForked bc.hc.config.eip158Block header.number)).1
  if header.root ≠ root then throw (.invalidRoot header.root root)

/-- `ValidateDposState` -/
def validateDposState (block : Block σ) (d : DposContext) : Except Error Unit :=
  let localRoot := d.root
  let remoteRoot := block.header.dposContext.root
  if remoteRoot ≠ localRoot then .error (.invalidDposRoot remoteRoot localRoot) else .ok ()

/-! ## Writing -/

/-- `insert`: the block becomes the current one. The header and the fast block
follow only where the canonical hash was another. -/
def insert (bc : BlockChain σ) (block : Block σ) : BlockChain σ :=
  let updateHeads := bc.hc.canonical.get block.number ≠ block.hash
  let hc := { bc.hc with canonical := bc.hc.canonical.write block.hash block.number }
  if updateHeads then
    { bc with
      hc := { hc with currentHeader := block.header }
      currentBlock := block
      currentFastBlock := block }
  else { bc with hc := hc, currentBlock := block }

/-- `WriteTxLookupEntries` -/
def writeTxLookupEntries (bc : BlockChain σ) (block : Block σ) : BlockChain σ :=
  { bc with
    txLookups := (block.transactions.zipIdx).foldl
      (fun m e => Function.update m (Execution.txHash e.1) (some (block.hash, block.number, e.2)))
      bc.txLookups }

/-- The first loops of `reorg`: from a block down to a number, with the blocks on
the way. -/
def descend (bc : BlockChain σ) (number : Nat) :
    Nat → Block σ → List (Block σ) → Option (Block σ × List (Block σ))
  | 0, _, _ => none
  | f + 1, block, passed =>
    if block.number = number then some (block, passed)
    else
      match bc.parentBlock block with
      | none => none
      | some parent => descend bc number f parent (passed ++ [block])

/-- The loop of `reorg` that looks for the common block. -/
def findCommon (bc : BlockChain σ) : Nat → Block σ → Block σ → List (Block σ) → List (Block σ) →
    Except Error (List (Block σ) × List (Block σ))
  | 0, _, _, _, _ => .error .panicked
  | f + 1, oldBlock, newBlock, oldChain, newChain =>
    if oldBlock.hash = newBlock.hash then .ok (oldChain, newChain)
    else
      match bc.parentBlock oldBlock, bc.parentBlock newBlock with
      | none, _ => .error .invalidOldChain
      | some _, none => .error .invalidNewChain
      | some oldParent, some newParent =>
        findCommon bc f oldParent newParent (oldChain ++ [oldBlock]) (newChain ++ [newBlock])

/-- The blocks that `reorg` drops and those that it adds, from the top down. -/
def forkChains (bc : BlockChain σ) (oldBlock newBlock : Block σ) :
    Except Error (List (Block σ) × List (Block σ)) :=
  if oldBlock.number > newBlock.number then
    match bc.descend newBlock.number (oldBlock.number + 1) oldBlock [] with
    | none => .error .invalidOldChain
    | some (oldBlock, oldChain) => bc.findCommon (oldBlock.number + 2) oldBlock newBlock oldChain []
  else
    match bc.descend oldBlock.number (newBlock.number + 1) newBlock [] with
    | none => .error .invalidNewChain
    | some (newBlock, newChain) => bc.findCommon (oldBlock.number + 2) oldBlock newBlock [] newChain

/-- `reorg`: the blocks of the new chain are inserted from the top down. -/
def reorg (oldBlock newBlock : Block σ) : Import σ Unit := do
  let bc ← get
  let (oldChain, newChain) ← check (bc.forkChains oldBlock newBlock)
  modify fun bc => newChain.foldl (fun bc block => (bc.insert block).writeTxLookupEntries block) bc
  -- lookup entries of transactions that are in dropped blocks only
  let added := newChain.flatMap fun b => b.transactions.map Execution.txHash
  let dropped := (oldChain.flatMap fun b => b.transactions.map Execution.txHash).filter (· ∉ added)
  modify fun bc => { bc with
    txLookups := fun h => if h ∈ dropped then none else bc.txLookups h }

/-- The fork choice of `WriteBlockAndState`; `coin` is `mrand.Float64() < 0.5`. -/
def prefers (coin : Bool) (externTd localTd : Int) (number current : Nat) : Bool :=
  decide (externTd > localTd) ||
    (decide (externTd = localTd) && (decide (number < current) || (decide (number = current) && coin)))

/-- The batch of `WriteBlockAndState`: the block, the nodes of its context and its
state. -/
def storeBlock (bc : BlockChain σ) (block : Block σ) (d : DposContext) (state : σ) : BlockChain σ :=
  let (root, stored) := Execution.commitTo state (isForked bc.hc.config.eip158Block block.header.number)
  { bc with
    hc := bc.hc.storeHeader block.header
    bodies := fun h n => if h = block.hash ∧ n = block.number then
      some (block.transactions, block.uncles) else bc.bodies h n
    states := Function.update bc.states root (some stored)
    engine := { bc.engine with db := d.commitTo bc.engine.db } }

/-- `futureBlocks.Remove` -/
def unqueue (bc : BlockChain σ) (block : Block σ) : BlockChain σ :=
  { bc with futureBlocks := bc.futureBlocks.filter (·.hash ≠ block.hash) }

/-- `futureBlocks.Add` -/
def queue (bc : BlockChain σ) (block : Block σ) : BlockChain σ :=
  { bc with futureBlocks := bc.futureBlocks.filter (·.hash ≠ block.hash) ++ [block] }

/-- `WriteBlockAndState` after the total difficulty is written; `canonical` is what
the fork choice says. -/
def writeBatch (canonical : Bool) (block : Block σ) (d : DposContext) (state : σ) :
    Import σ WriteStatus := do
  check (HeaderChain.encodable block.header)
  let bc ← get
  if canonical then
    if block.header.parentHash ≠ bc.currentBlock.hash then reorg bc.currentBlock block
    modify fun bc =>
      (((bc.writeTxLookupEntries block).storeBlock block d state).insert block).unqueue block
    return .canonStatTy
  else
    modify fun bc => (bc.storeBlock block d state).unqueue block
    return .sideStatTy

/-- `WriteBlockAndState`. A missing total difficulty of the current block is
dereferenced. -/
def writeBlockAndState (coin : Bool) (block : Block σ) (d : DposContext) (state : σ) :
    Import σ WriteStatus := do
  let bc ← get
  match bc.hc.getTd block.header.parentHash (predUint64 block.number) with
  | none => throw .unknownAncestor
  | some ptd =>
    match bc.hc.getTd bc.currentBlock.hash bc.currentBlock.number with
    | none => throw .panicked
    | some localTd =>
      let externTd := block.header.difficulty + ptd
      let hc ← check (bc.hc.writeTd block.hash block.number externTd)
      set { bc with hc := hc }
      writeBatch (prefers coin externTd localTd block.number bc.currentBlock.number) block d state

/-! ## Importing -/

/-- What the outside world answers while block `i` of a batch is handled: the clock
when its header is verified and when it is imported, whether the node is being
stopped, the coin of the fork choice and whether the database takes the confirmed
header. -/
structure World where
  verifyClock : Nat → Int
  clock : Nat → Int
  interrupted : Nat → Bool
  coin : Nat → Bool
  putOk : Nat → Bool

/-- What becomes of a block that causes no error. -/
inductive Outcome where
  | ignored
  | queued
  | written (status : WriteStatus)
deriving DecidableEq

def maxTimeFutureBlocks : Int := 30

/-- `VerifySeal` of the engine; what it does to the engine stays. -/
def verifySeal (putOk : Bool) (block : Block σ) : Import σ Unit := fun bc =>
  match Dpos.verifySeal putOk bc.hc.reader block.header [] bc.engine with
  | .ok _ engine => .ok () { bc with engine := engine }
  | .error e engine => .error (.engine e) { bc with engine := engine }

/-- The body of the loop of `insertChain` for a block that has passed the first
checks, on top of its parent. -/
def importBlock [Rand] (w : World) (i : Nat) (block parent : Block σ) : Import σ WriteStatus := do
  let bc ← get
  match DposContext.newFromProto bc.engine.db parent.header.dposContext with
  | .error e => throw (.context e)
  | .ok d =>
    match bc.states parent.header.root with
    | none => throw .state
    | some state =>
      let p ← check (process bc.hc.reader bc.timeOfFirstBlock block state d)
      set { bc with timeOfFirstBlock := p.timeOfFirstBlock }
      check (bc.validateState block p)
      check (validateDposState block p.dposContext)
      verifySeal (w.putOk i) block
      writeBlockAndState (w.coin i) block p.dposContext p.state

/-- The first checks of the loop of `insertChain`: `verified` is what `VerifyHeaders`
found. -/
def firstCheck (bc : BlockChain σ) (block : Block σ) (verified : Option Dpos.Error) :
    Except Error Unit :=
  if block.hash ∈ bc.badHashes then .error .blacklistedHash
  else
    match verified with
    | some e => .error (.engine e)
    | none => bc.validateBody block

/-- What the loop of `insertChain` does with a block that fails the first checks. -/
def refuse (w : World) (i : Nat) (block : Block σ) (e : Error) : Import σ Outcome := do
  let bc ← get
  match e with
  | .knownBlock => return .ignored
  | .engine .futureBlock =>
    let max := w.clock i + maxTimeFutureBlocks
    if block.header.time > max then throw (.futureBlock block.header.time max)
    set (bc.queue block)
    return .queued
  | e =>
    if (e = .unknownAncestor ∨ e = .engine .unknownAncestor) ∧
        block.header.parentHash ∈ bc.futureBlocks.map (·.hash) then
      set (bc.queue block)
      return .queued
    else throw e

variable [Rand]

/-- The body of the loop of `insertChain`; `prev` is the block before this one in
the batch. -/
def insertBlock (w : World) (i : Nat) (block : Block σ) (verified : Option Dpos.Error)
    (prev : Option (Block σ)) : Import σ Outcome := do
  let bc ← get
  match bc.firstCheck block verified with
  | .error e => refuse w i block e
  | .ok _ =>
    match (prev.orElse fun _ => bc.parentBlock block) with
    -- a parent that is not there is dereferenced
    | none => throw .panicked
    | some parent => return .written (← importBlock w i block parent)

/-- The loop of `insertChain`, from block `i` on. -/
def insertLoop (w : World) : Nat → Option (Block σ) → List (Block σ × Option Dpos.Error) →
    Import σ (List Outcome)
  | _, _, [] => return []
  | i, prev, (block, verified) :: rest => do
    if w.interrupted i then return []
    let outcome ← insertBlock w i block verified prev
    return outcome :: (← insertLoop w (i + 1) (some block) rest)

/-- The first block that does not follow the one before it. -/
def nonContiguous : Nat → List (Block σ) → Option Nat
  | i, a :: b :: rest =>
    if b.number ≠ (a.number + 1) % 2 ^ 64 ∨ b.header.parentHash ≠ a.hash then some i
    else nonContiguous (i + 1) (b :: rest)
  | _, _ => none

/-- The headers of a batch as `VerifyHeaders` finds them. -/
def verdicts (w : World) (chain : List (Block σ)) (bc : BlockChain σ) : List (Option Dpos.Error) :=
  let headers := chain.map (·.header)
  Dpos.verifyHeaders w.verifyClock bc.hc.reader headers (headers.map fun _ => true)

/-- `insertChain`: what became of each block. -/
def insertChain (w : World) (chain : List (Block σ)) : Import σ (List Outcome) := do
  match nonContiguous 0 chain with
  | some i => throw (.nonContiguous i)
  | none => insertLoop w 0 none (chain.zip (verdicts w chain (← get)))

end BlockChain

end

end Bgmchain.Core
