import Bgmchain.Core.HeaderChain
import Bgmchain.Core.Types.Delegation

/-! # Processing a block

`core/state_processor.go`: the transactions of a block are applied to the state
and to the DPoS context, then the engine finalizes the block. The state database,
the signatures of transactions and the virtual machine are taken as given. -/
namespace Bgmchain.Core
open Common
open Dpos (ChainConfig ChainReader StateDB isForked)

/-- `types.TxType` -/
inductive TxType where
  | binary
  | loginCandidate
  | logoutCandidate
  | delegate
  | unDelegate
  | unknown (code : UInt8)
deriving DecidableEq

/-- What `ApplyTransaction` looks at in a message; the rest of it is for the
virtual machine. -/
structure Message where
  sender : Address
  to_ : Option Address
  txType : TxType

/-- What `ApplyMessage` returns: the state and the gas pool it leaves, the gas it
used and whether the call failed. -/
structure Applied (σ : Type) where
  state : σ
  gasPool : Int
  gas : Int
  failed : Bool

/-- The state database and the virtual machine, as importing a block uses them. -/
class Execution (σ : Type) extends StateDB σ where
  Tx : Type
  Receipt : Type
  txHash : Tx → Hash
  /-- `tx.AsMessage(MakeSigner(config, number))` -/
  asMessage : ChainConfig → Int → Tx → Option Message
  /-- `statedb.Prepare` -/
  prepare : σ → Tx → Hash → Nat → σ
  /-- `ApplyMessage` on a state, a header and a gas pool -/
  applyMessage : ChainConfig → Header → σ → Tx → Int → Option (Applied σ)
  /-- `statedb.Finalise(true)` -/
  finalise : σ → σ
  /-- The receipt for a post state, a failure, the gas used so far and the gas of
  the transaction, with the logs the state holds for it. -/
  newReceipt : Option Hash → Bool → Int → Int → Tx → σ → Receipt
  applyDAOHardFork : σ → σ
  /-- `DeriveSha` of transactions and of receipts -/
  txSha : List Tx → Hash
  receiptSha : List Receipt → Hash
  createBloom : List Receipt → FixedBytes 256
  /-- `CommitTo`: the root that a state is stored under, and the state that is read
  back from there -/
  commitTo : σ → Bool → Hash × σ

structure Block (σ : Type) [Execution σ] where
  header : Header
  transactions : List (Execution.Tx σ)
  uncles : List Header

section
variable {σ : Type} [Execution σ]

/-- The error of an operation on the context is dropped, but not a panic. -/
def dropError : Option DposError × DposContext → Except Error DposContext
  | (some .panicked, _) => .error .panicked
  | (_, d) => .ok d

/-- `applyDposMessage`. `To` of a message without one is dereferenced. -/
def applyDposMessage (msg : Message) (d : DposContext) : Except Error DposContext :=
  match msg.txType, msg.to_ with
  | .loginCandidate, _ => dropError (d.apply (.becomeCandidate msg.sender))
  | .logoutCandidate, _ => dropError (d.apply (.kickoutCandidate msg.sender))
  | .delegate, some candidate => dropError (d.apply (.delegate msg.sender candidate))
  | .unDelegate, some candidate => dropError (d.apply (.unDelegate msg.sender candidate))
  | .delegate, none => .error .panicked
  | .unDelegate, none => .error .panicked
  | .binary, _ => .error .invalidType
  | .unknown _, _ => .error .invalidType

/-- What the loop over the transactions carries. -/
structure Progress (σ : Type) [Execution σ] where
  state : σ
  dposContext : DposContext
  gasPool : Int
  usedGas : Int
  receipts : List (Execution.Receipt σ)

/-- `ApplyTransaction` -/
def applyTransaction (config : ChainConfig) (header : Header) (tx : Execution.Tx σ) (p : Progress σ) :
    Except Error (Progress σ) := do
  match Execution.asMessage config header.number tx with
  | none => throw .transaction
  | some msg =>
    if msg.to_ = none ∧ msg.txType ≠ .binary then throw .invalidType
    match Execution.applyMessage config header p.state tx p.gasPool with
    | none => throw .transaction
    | some applied =>
      let d ← if msg.txType ≠ .binary then applyDposMessage msg p.dposContext else pure p.dposContext
      let (root, state) := if isForked config.byzantiumBlock header.number then
          (none, Execution.finalise applied.state)
        else
          let (root, state) := StateDB.intermediateRoot applied.state
            (isForked config.eip158Block header.number)
          (some root, state)
      let usedGas := p.usedGas + applied.gas
      let receipt := Execution.newReceipt root applied.failed usedGas applied.gas tx state
      return ⟨state, d, applied.gasPool, usedGas, p.receipts ++ [receipt]⟩

variable [Crypto]

/-- The loop of `Process`, from transaction `i` on. -/
def applyTransactions (config : ChainConfig) (header : Header) :
    Nat → List (Execution.Tx σ) → Progress σ → Except Error (Progress σ)
  | _, [], p => .ok p
  | i, tx :: txs, p => do
    let p' ← applyTransaction config header tx
      { p with state := Execution.prepare p.state tx header.hash i }
    applyTransactions config header (i + 1) txs p'

/-- `Process` up to the call of `Finalize`. -/
def runTransactions (config : ChainConfig) (block : Block σ) (state : σ) (d : DposContext) :
    Except Error (Progress σ) :=
  let state := if config.daoForkSupport ∧ config.daoForkBlock = some block.header.number then
    Execution.applyDAOHardFork state else state
  applyTransactions config block.header 0 block.transactions ⟨state, d, block.header.gasLimit, 0, []⟩

/-- What `Process` returns, and what it leaves of the state and the context. -/
structure Processed (σ : Type) [Execution σ] where
  receipts : List (Execution.Receipt σ)
  usedGas : Int
  state : σ
  dposContext : DposContext
  timeOfFirstBlock : Int

/-- `Process`. The error that `Finalize` returns is dropped; a panic in it is not. -/
def process [Rand] (chain : ChainReader) (timeOfFirstBlock : Int) (block : Block σ) (state : σ)
    (d : DposContext) : Except Error (Processed σ) := do
  let p ← runTransactions chain.config block state d
  let f := Dpos.finalize chain timeOfFirstBlock block.header p.state p.dposContext
  if f.err.any (·.isPanic) then throw .panicked
  return ⟨p.receipts, p.usedGas, f.state, f.dposContext, f.timeOfFirstBlock⟩

end

end Bgmchain.Core
