import Bgmchain.Core.Lookups

/-! # The database under the chain

What survives when the process stops: the records of `core/database_util.go` and the
three head pointers. A call of `WriteBlockAndState` is a sequence of single writes, one of
them the batch with the block and its state; done to the end they leave what the call
leaves. `loadLastState` opens the chain from what it finds. Receipts and preimages are
left out, which no head depends on. -/
namespace Bgmchain.Core
open Common Function Lib
open Dpos (isForked predUint64)

/-- The database. A head pointer that was never written is the zero hash. -/
structure Disk (σ : Type) [Execution σ] where
  headers : Hash → Nat → Option Header
  numbers : Hash → Option Nat
  bodies : Hash → Nat → Option (List (Execution.Tx σ) × List Header)
  tds : Hash → Nat → Option Int
  canonical : Canonical
  states : Hash → Option σ
  txLookups : Hash → Option (Hash × Nat × Nat)
  nodes : NodeDatabase
  headBlockHash : Hash
  headHeaderHash : Hash
  headFastBlockHash : Hash

/-- A `Put`, a `Delete` or a `batch.Write`, each of which happens as a whole. The batch
holds a block, the nodes of its context, its state and, for a block that becomes
canonical, its lookup entries. -/
inductive DbWrite (σ : Type) [Execution σ] where
  | td (hash : Hash) (number : Nat) (td : Int)
  | canonicalHash (hash : Hash) (number : Nat)
  | headBlockHash (hash : Hash)
  | headHeaderHash (hash : Hash)
  | headFastBlockHash (hash : Hash)
  | txLookupEntry (tx : Hash) (entry : Hash × Nat × Nat)
  | deleteTxLookupEntry (tx : Hash)
  | batch (block : Block σ) (d : DposContext) (root : Hash) (state : σ) (lookups : Bool)

section
variable {σ : Type} [Execution σ] [Crypto]

namespace Disk

/-- What one write does. -/
def apply (disk : Disk σ) : DbWrite σ → Disk σ
  | .td hash number td => { disk with tds := enterTd disk.tds hash number td }
  | .canonicalHash hash number => { disk with canonical := disk.canonical.write hash number }
  | .headBlockHash hash => { disk with headBlockHash := hash }
  | .headHeaderHash hash => { disk with headHeaderHash := hash }
  | .headFastBlockHash hash => { disk with headFastBlockHash := hash }
  | .txLookupEntry tx entry => { disk with txLookups := update disk.txLookups tx (some entry) }
  | .deleteTxLookupEntry tx => { disk with txLookups := update disk.txLookups tx none }
  | .batch block d root state lookups =>
    { disk with
      headers := fun h n => if h = block.hash ∧ n = block.number then some block.header else disk.headers h n
      numbers := update disk.numbers block.hash (some block.number)
      bodies := fun h n => if h = block.hash ∧ n = block.number then
        some (block.transactions, block.uncles) else disk.bodies h n
      states := update disk.states root (some state)
      nodes := d.commitTo disk.nodes
      txLookups := if lookups then Index.enter disk.txLookups block.entries else disk.txLookups }

def applyAll (disk : Disk σ) (writes : List (DbWrite σ)) : Disk σ := writes.foldl apply disk

/-! ## Opening the chain -/

def getBlock (disk : Disk σ) (hash : Hash) (number : Nat) : Option (Block σ) := do
  let header ← disk.headers hash number
  let (transactions, uncles) ← disk.bodies hash number
  return ⟨header, transactions, uncles⟩

def getBlockByHash (disk : Disk σ) (hash : Hash) : Option (Block σ) :=
  disk.getBlock hash ((disk.numbers hash).getD missingNumber)

def getHeaderByHash (disk : Disk σ) (hash : Hash) : Option Header :=
  disk.headers hash ((disk.numbers hash).getD missingNumber)

end Disk

/-- Why `loadLastState` resets the chain to the genesis. -/
inductive ResetReason where
  | emptyDatabase
  | headBlockMissing
  | headStateMissing
deriving DecidableEq

def ResetReason.message : ResetReason → String
  | .emptyDatabase => "Empty database, resetting chain"
  | .headBlockMissing => "Head block missing, resetting chain"
  | .headStateMissing => "Head state missing, resetting chain"

/-- What `loadLastState` comes to: a reset, or the current block, the current header and
the fast block. -/
inductive Loaded (σ : Type) [Execution σ] where
  | reset (why : ResetReason)
  | opened (currentBlock : Block σ) (currentHeader : Header) (currentFastBlock : Block σ)

def Loaded.why : Loaded σ → Option ResetReason
  | .reset why => some why
  | .opened _ _ _ => none

namespace Disk

/-- `loadLastState` -/
def loadLastState (disk : Disk σ) : Loaded σ :=
  if disk.headBlockHash = .zero 32 then .reset .emptyDatabase
  else
    match disk.getBlockByHash disk.headBlockHash with
    | none => .reset .headBlockMissing
    | some currentBlock =>
      match disk.states currentBlock.header.root with
      | none => .reset .headStateMissing
      | some _ =>
        let currentHeader :=
          if disk.headHeaderHash = .zero 32 then currentBlock.header
          else (disk.getHeaderByHash disk.headHeaderHash).getD currentBlock.header
        let currentFastBlock :=
          if disk.headFastBlockHash = .zero 32 then currentBlock
          else (disk.getBlockByHash disk.headFastBlockHash).getD currentBlock
        .opened currentBlock currentHeader currentFastBlock

end Disk

/-! ## The writes of a call -/

namespace BlockChain

/-- What the chain has in the database. -/
def disk (bc : BlockChain σ) : Disk σ where
  headers := bc.hc.headers
  numbers := bc.hc.numbers
  bodies := bc.bodies
  tds := bc.hc.tds
  canonical := bc.hc.canonical
  states := bc.states
  txLookups := bc.txLookups
  nodes := bc.engine.db
  headBlockHash := bc.currentBlock.hash
  headHeaderHash := bc.hc.currentHeader.hash
  headFastBlockHash := bc.currentFastBlock.hash

/-- `insert`, where these are the canonical hashes. -/
def insertWrites (c : Canonical) (block : Block σ) : List (DbWrite σ) :=
  [.canonicalHash block.hash block.number, .headBlockHash block.hash] ++
    if c.get block.number ≠ block.hash then [.headHeaderHash block.hash, .headFastBlockHash block.hash] else []

/-- `WriteTxLookupEntries` straight to the database. -/
def lookupWrites (block : Block σ) : List (DbWrite σ) :=
  block.entries.map fun e => .txLookupEntry e.1 e.2

/-- The loop of `reorg` over the new chain. -/
def adoptWrites (c : Canonical) : List (Block σ) → List (DbWrite σ)
  | [] => []
  | block :: blocks =>
    insertWrites c block ++ lookupWrites block ++ adoptWrites (c.write block.hash block.number) blocks

/-- `reorg`, once it has found the two chains. -/
def reorgWrites (c : Canonical) (oldChain newChain : List (Block σ)) : List (DbWrite σ) :=
  adoptWrites c newChain ++ (droppedTxs oldChain newChain).map .deleteTxLookupEntry

/-- The batch, and for a block that becomes canonical `insert`. -/
def batchWrites (c : Canonical) (eip158Block : Option Int) (canonical : Bool) (block : Block σ) (d : DposContext)
    (state : σ) : List (DbWrite σ) :=
  let (root, stored) := Execution.commitTo state (isForked eip158Block block.header.number)
  .batch block d root stored canonical :: if canonical then insertWrites c block else []

/-- The writes of `WriteBlockAndState`, in their order, up to where it returns. -/
def dbWrites (bc : BlockChain σ) (coin : Bool) (block : Block σ) (d : DposContext) (state : σ) :
    List (DbWrite σ) :=
  match bc.hc.getTd block.header.parentHash (predUint64 block.number),
    bc.hc.getTd bc.currentBlock.hash bc.currentBlock.number with
  | some ptd, some localTd =>
    let externTd := block.header.difficulty + ptd
    if externTd < 0 then []
    else
      .td block.hash block.number externTd ::
        match HeaderChain.encodable block.header with
        | .error _ => []
        | .ok _ =>
          let canonical := prefers coin externTd localTd block.number bc.currentBlock.number
          if canonical ∧ block.header.parentHash ≠ bc.currentBlock.hash then
            match bc.forkChains bc.currentBlock block with
            | .error _ => []
            | .ok (oldChain, newChain) =>
              reorgWrites bc.hc.canonical oldChain newChain ++
                batchWrites (bc.adopt newChain).hc.canonical bc.hc.config.eip158Block canonical block d state
          else batchWrites bc.hc.canonical bc.hc.config.eip158Block canonical block d state
  | _, _ => []

/-! ## Done to the end, the writes leave what the call leaves -/

variable {bc bc' : BlockChain σ} {block : Block σ}

theorem applyAll_append (disk : Disk σ) (ws ws' : List (DbWrite σ)) :
    disk.applyAll (ws ++ ws') = (disk.applyAll ws).applyAll ws' := List.foldl_append

theorem applyAll_lookups (disk : Disk σ) (l : List (Hash × Hash × Nat × Nat)) :
    disk.applyAll (l.map fun e => .txLookupEntry e.1 e.2) =
      { disk with txLookups := Index.enter disk.txLookups l } := by
  induction l generalizing disk with
  | nil => rfl
  | cons e l ih => exact ih _

theorem applyAll_deletes (disk : Disk σ) (gone : List Hash) :
    disk.applyAll (gone.map .deleteTxLookupEntry) =
      { disk with txLookups := Index.erase disk.txLookups gone } := by
  induction gone generalizing disk with
  | nil =>
    have hnil : Index.erase disk.txLookups [] = disk.txLookups := rfl
    rw [hnil]
    rfl
  | cons h gone ih =>
    have hcons : Index.erase (update disk.txLookups h none) gone = Index.erase disk.txLookups (h :: gone) := by
      funext k
      unfold Index.erase
      by_cases hk : k = h
      · subst hk
        rw [update_self, ite_self, if_pos List.mem_cons_self]
      · rw [update_of_ne hk]
        simp only [List.mem_cons, hk, false_or]
    rw [← hcons]
    exact ih _

section
variable (bc : BlockChain σ) (block : Block σ) (d : DposContext)

theorem insert_disk : (bc.insert block).disk = bc.disk.applyAll (insertWrites bc.hc.canonical block) := by
  unfold insert insertWrites
  by_cases h : bc.hc.canonical.get block.number ≠ block.hash
  · rw [if_pos h, if_pos h]
    rfl
  · rw [if_neg h, if_neg h]
    rfl

theorem writeTxLookupEntries_disk :
    (bc.writeTxLookupEntries block).disk = bc.disk.applyAll (lookupWrites block) := by
  rw [lookupWrites, applyAll_lookups]
  show _ = { bc.disk with txLookups := Index.enter bc.txLookups block.entries }
  rw [← writeTxLookupEntries_txLookups]
  rfl

theorem adopt_disk (blocks : List (Block σ)) :
    (bc.adopt blocks).disk = bc.disk.applyAll (adoptWrites bc.hc.canonical blocks) := by
  induction blocks generalizing bc with
  | nil => rfl
  | cons block blocks ih =>
    have hnext := ih ((bc.insert block).writeTxLookupEntries block)
    rw [writeTxLookupEntries_disk, insert_disk] at hnext
    rw [adoptWrites, applyAll_append, applyAll_append, ← insert_canonical]
    exact hnext

/-- The canonical hashes that the loop leaves depend on those before it only. -/
theorem adopt_canonical_eq (blocks : List (Block σ)) :
    (bc.adopt blocks).hc.canonical = blocks.foldl (fun c b => c.write b.hash b.number) bc.hc.canonical := by
  induction blocks generalizing bc with
  | nil => rfl
  | cons block blocks ih =>
    have hnext := ih ((bc.insert block).writeTxLookupEntries block)
    rw [List.foldl_cons, ← insert_canonical]
    exact hnext

theorem reorged_disk (oldChain newChain : List (Block σ)) :
    (bc.reorged oldChain newChain).disk = bc.disk.applyAll (reorgWrites bc.hc.canonical oldChain newChain) := by
  rw [reorgWrites, applyAll_append, ← adopt_disk, applyAll_deletes]
  rfl

theorem seat_disk (state : σ) : (bc.seat block d state).disk =
      bc.disk.applyAll (batchWrites bc.hc.canonical bc.hc.config.eip158Block true block d state) := by
  have hbatch : ((bc.writeTxLookupEntries block).storeBlock block d state).disk =
      bc.disk.apply (.batch block d
        (Execution.commitTo state (isForked bc.hc.config.eip158Block block.header.number)).1
        (Execution.commitTo state (isForked bc.hc.config.eip158Block block.header.number)).2 true) :=
    congrArg (fun lookups => ({ (bc.storeBlock block d state).disk with txLookups := lookups } : Disk σ))
      (writeTxLookupEntries_txLookups bc block)
  have hinsert := insert_disk ((bc.writeTxLookupEntries block).storeBlock block d state) block
  rw [hbatch] at hinsert
  exact hinsert

theorem shelve_disk (state : σ) :
    (bc.shelve block d state).disk =
      bc.disk.applyAll (batchWrites bc.hc.canonical bc.hc.config.eip158Block false block d state) := rfl

end

section
variable {coin : Bool} {d : DposContext} {state : σ} {ptd localTd : Int}
  (hptd : bc.hc.getTd block.header.parentHash (predUint64 block.number) = some ptd)
  (hlocal : bc.hc.getTd bc.currentBlock.hash bc.currentBlock.number = some localTd)
  (htd : 0 ≤ block.header.difficulty + ptd) (henc : HeaderChain.encodable block.header = .ok ())
include hptd hlocal htd henc

theorem dbWrites_straight (hstraight : prefers coin (block.header.difficulty + ptd) localTd block.number
      bc.currentBlock.number = true → block.header.parentHash = bc.currentBlock.hash) :
    bc.dbWrites coin block d state = .td block.hash block.number (block.header.difficulty + ptd) ::
      batchWrites bc.hc.canonical bc.hc.config.eip158Block
        (prefers coin (block.header.difficulty + ptd) localTd block.number bc.currentBlock.number) block d state := by
  rw [dbWrites, hptd, hlocal]
  simp only [henc, if_neg (Int.not_lt.mpr htd)]
  rw [if_neg fun hboth => hboth.2 (hstraight hboth.1)]

theorem dbWrites_reorg {oldChain newChain : List (Block σ)}
    (hpref : prefers coin (block.header.difficulty + ptd) localTd block.number bc.currentBlock.number = true)
    (hparent : block.header.parentHash ≠ bc.currentBlock.hash)
    (hchains : bc.forkChains bc.currentBlock block = .ok (oldChain, newChain)) :
    bc.dbWrites coin block d state = .td block.hash block.number (block.header.difficulty + ptd) ::
      (reorgWrites bc.hc.canonical oldChain newChain ++
        batchWrites (bc.adopt newChain).hc.canonical bc.hc.config.eip158Block true block d state) := by
  rw [dbWrites, hptd, hlocal]
  simp only [henc, hpref, if_neg (Int.not_lt.mpr htd)]
  rw [if_pos ⟨trivial, hparent⟩, hchains]

end

/-- **The writes of a call, done to the end, leave the database of the chain after it.** -/
theorem Written.disk_eq {coin : Bool} {d : DposContext} {state : σ}
    (hwritten : bc.Written coin block d state bc') (h : bc.Kept) (hw : bc.Arriving block) :
    bc.disk.applyAll (bc.dbWrites coin block d state) = bc'.disk := by
  obtain ⟨_, _, _, _, henc⟩ := hw.writable.td h.linked
  cases hwritten with
  | side hptd hlocal htd hpref =>
    rw [dbWrites_straight hptd hlocal htd henc (by simp [hpref]), hpref]
    exact (shelve_disk (bc.enter block _) block d state).symm
  | extended hptd hlocal htd hpref hparent =>
    rw [dbWrites_straight hptd hlocal htd henc fun _ => hparent, hpref]
    exact (seat_disk (bc.enter block _) block d state).symm
  | @switched ptd _ common olds news hptd hlocal htd hpref hparent hf hchains =>
    rw [dbWrites_reorg hptd hlocal htd henc hpref hparent hchains]
    have hseat := seat_disk ((bc.enter block (block.header.difficulty + ptd)).reorged olds.reverse news.reverse)
      block d state
    have hcanonical : ((bc.enter block (block.header.difficulty + ptd)).reorged olds.reverse news.reverse).hc.canonical =
        (bc.adopt news.reverse).hc.canonical := (adopt_canonical_eq _ _).trans (adopt_canonical_eq bc _).symm
    have hconfig : ((bc.enter block (block.header.difficulty + ptd)).reorged olds.reverse news.reverse).hc.config =
        bc.hc.config := (adopt_sameStore _ _).config
    rw [reorged_disk, ← applyAll_append, hcanonical, hconfig] at hseat
    exact hseat.symm

end BlockChain

end

end Bgmchain.Core
