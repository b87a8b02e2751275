import Bgmchain.Core.BlockChain
import Bgmchain.Core.Types.DeriveSha

/-! # Importing downloaded receipts

`SetReceiptsData` and `InsertReceiptChain` of `core/blockchain.go`: the bodies and
receipts that fast sync has downloaded are written behind the headers. The receipts get
their derived fields from the transactions at the same places, which are not counted
first. The caches, the log lines and the statistics are left out. -/
namespace Bgmchain.Core
open Common Lib Rlp
open Dpos (isForked)

/-- What `MakeSigner` reads of the configuration. -/
structure SignerConfig where
  chainId : Int
  homesteadBlock : Option Int
  eip155Block : Option Int

/-- `MakeSigner` -/
def makeSigner (config : SignerConfig) (blockNumber : Int) : Signer :=
  if isForked config.eip155Block blockNumber then .eip155 config.chainId
  else if isForked config.homesteadBlock blockNumber then .homestead
  else .frontier

/-- A block with the transactions as they are encoded. -/
structure FastBlock where
  header : Header
  transactions : List Transaction
  uncles : List Header

inductive InsertError where
  | nonContiguous (item : Nat)
  | headerUnknown (item : Nat) (number : Int) (hash : Hash)
  | writeBody (item : Nat)
  | writeReceipts (item : Nat)
  | database
  | panicked
deriving DecidableEq

/-- The fixed part of an error's text, up to the values it prints. -/
def InsertError.message : InsertError → String
  | .nonContiguous _ => "non contiguous insert"
  | .headerUnknown _ _ _ => "containing header unknown"
  | .writeBody _ => "failed to write block body"
  | .writeReceipts _ => "failed to write block receipts"
  | .database => ""
  | .panicked => ""

section
variable [Crypto]

def FastBlock.hash (b : FastBlock) : Hash := b.header.hash

def FastBlock.number (b : FastBlock) : Nat := uint64 b.header.number

/-! ## The data of receipts -/

/-- `CreateAddress` -/
def createAddress (b : Address) (nonce : UInt64) : Address :=
  bytesToAddress ((Crypto.keccak256 (encodeList
    (FixedBytes.encode b ++ encodeNat nonce.toNat))).bytes.drop 12)

/-- The inner loop of `SetReceiptsData`, from a log index on. -/
def setLogsData (block : FastBlock) (txHash : Hash) (txIndex : Nat) : Nat → List Log → List Log
  | _, [] => []
  | logIndex, log :: logs =>
    { log with
      blockNumber := block.number
      blockHash := block.hash
      txHash := txHash
      txIndex := txIndex
      index := logIndex } :: setLogsData block txHash txIndex (logIndex + 1) logs

/-- What `SetReceiptsData` makes of the receipt at place `j`; `previous` is the
cumulative gas of the receipt before it. -/
def setReceiptData (signer : Signer) (block : FastBlock) (tx : Transaction) (j : Nat) (previous : Option Int)
    (logIndex : Nat) (receipt : Receipt) : Receipt :=
  { receipt with
    txHash := tx.hash
    contractAddress :=
      if tx.recipient = none then
        -- the error of `Sender` is dropped
        createAddress (match signer.sender tx with
          | .ok sender => sender
          | .error _ => .zero 20) tx.accountNonce
      else receipt.contractAddress
    gasUsed := some (match previous with
      | none => receipt.cumulativeGasUsed
      | some cumulativeGasUsed => receipt.cumulativeGasUsed - cumulativeGasUsed)
    logs := setLogsData block tx.hash j logIndex receipt.logs }

/-- The loop of `SetReceiptsData`, from place `j` on. It panics where there is no
transaction for a receipt. -/
def setReceiptsFrom (signer : Signer) (block : FastBlock) :
    Nat → Option Int → Nat → List Receipt → Option (List Receipt)
  | _, _, _, [] => some []
  | j, previous, logIndex, receipt :: receipts =>
    match block.transactions[j]? with
    | none => none
    | some tx =>
      (setReceiptsFrom signer block (j + 1) (some receipt.cumulativeGasUsed) (logIndex + receipt.logs.length)
        receipts).map (setReceiptData signer block tx j previous logIndex receipt :: ·)

/-- `SetReceiptsData` -/
def setReceiptsData (config : SignerConfig) (block : FastBlock) (receipts : List Receipt) : Option (List Receipt) :=
  setReceiptsFrom (makeSigner config block.header.number) block 0 none 0 receipts

/-! ## What is stored -/

/-- `EncodeRLP` of a `LogForStorage` -/
def Log.encodeForStorage (l : Log) : Bytes :=
  encodeList [FixedBytes.encode l.address, encodeList (l.topics.map FixedBytes.encode).flatten,
    encodeString l.data, encodeNat l.blockNumber, FixedBytes.encode l.txHash, encodeNat l.txIndex,
    FixedBytes.encode l.blockHash, encodeNat l.index].flatten

/-- `EncodeRLP` of a `ReceiptForStorage`; a nil integer is encoded as zero. -/
def Receipt.encodeForStorage (r : Receipt) : Option Bytes := do
  let cumulativeGasUsed ← encodeBigInt r.cumulativeGasUsed
  let gasUsed ← encodeBigInt (r.gasUsed.getD 0)
  return encodeList [encodeString r.statusEncoding, cumulativeGasUsed, FixedBytes.encode r.bloom,
    FixedBytes.encode r.txHash, FixedBytes.encode r.contractAddress,
    encodeList (r.logs.map Log.encodeForStorage).flatten, gasUsed].flatten

/-- What `WriteBlockReceipts` puts. -/
def encodeReceipts (receipts : List Receipt) : Option Bytes :=
  (receipts.mapM Receipt.encodeForStorage).map fun items => encodeList items.flatten

/-- What `WriteBody` puts. -/
def FastBlock.encodeBody (b : FastBlock) : Option Bytes := do
  let transactions ← b.transactions.mapM Transaction.encode
  let uncles ← b.uncles.mapM Header.encode
  return encodeList (encodeList transactions.flatten ++ encodeList uncles.flatten)

/-- What `WriteTxLookupEntries` puts. -/
def FastBlock.encodeLookups (b : FastBlock) : List Bytes :=
  b.transactions.zipIdx.map fun e =>
    encodeList (FixedBytes.encode b.hash ++ encodeNat b.number ++ encodeNat e.2)

/-- What `InsertReceiptChain` reads and writes. -/
structure FastChain where
  hc : HeaderChain
  config : SignerConfig
  bodies : Hash → Nat → Option (List Transaction × List Header)
  receipts : Hash → Nat → Option (List Receipt)
  txLookups : Hash → Option (Hash × Nat × Nat)
  currentFastBlock : FastBlock

/-- A block with its receipts in a batch. -/
structure Entry where
  block : FastBlock
  receipts : List Receipt
  size : Nat

namespace FastChain

def hasHeader (bc : FastChain) (b : FastBlock) : Bool := (bc.hc.getHeader b.hash b.number).isSome

def hasBlock (bc : FastChain) (b : FastBlock) : Bool := (bc.bodies b.hash b.number).isSome

/-- What one entry of a batch writes. -/
def writeEntry (bc : FastChain) (e : Entry) : FastChain :=
  { bc with
    bodies := fun h n => if h = e.block.hash ∧ n = e.block.number then
      some (e.block.transactions, e.block.uncles) else bc.bodies h n
    receipts := fun h n => if h = e.block.hash ∧ n = e.block.number then some e.receipts else bc.receipts h n
    txLookups := (e.block.transactions.zipIdx).foldl
      (fun m t => Function.update m t.1.hash (some (e.block.hash, e.block.number, t.2))) bc.txLookups }

/-- `batch.Write` -/
def write (bc : FastChain) (batch : List Entry) : FastChain := batch.foldl writeEntry bc

/-- What the loop of `InsertReceiptChain` does with block `i` up to the batch: nothing
for a block that is there, an entry for another. -/
def receive (bc : FastChain) (i : Nat) (block : FastBlock) (receipts : List Receipt) :
    Except InsertError (Option Entry) := do
  if ¬ bc.hasHeader block then throw (.headerUnknown i block.header.number block.hash)
  if bc.hasBlock block then return none
  match setReceiptsData bc.config block receipts with
  | none => throw .panicked
  | some receipts =>
    match block.encodeBody with
    | none => throw (.writeBody i)
    | some body =>
      match encodeReceipts receipts with
      | none => throw (.writeReceipts i)
      | some encoded =>
        return some ⟨block, receipts, body.length + encoded.length + (block.encodeLookups.map List.length).sum⟩

/-- What the outside world answers at block `i`, and at the end for the length of the
list: whether the node is being stopped and whether the database takes a batch. -/
structure World where
  interrupted : Nat → Bool
  writeOk : Nat → Bool

def idealBatchSize : Nat := 100 * 1024

def batchSize (batch : List Entry) : Nat := (batch.map (·.size)).sum

/-- How the loop of `InsertReceiptChain` ends. -/
inductive LoopEnd where
  | interrupted
  | failed (err : InsertError)
  | through (batch : List Entry)

/-- The loop of `InsertReceiptChain`, from block `i` on. -/
def receiptsLoop (w : World) : Nat → List FastBlock → List (List Receipt) → List Entry → FastChain →
    LoopEnd × FastChain
  | _, [], _, batch, bc => (.through batch, bc)
  -- no receipts at the place of a block
  | _, _ :: _, [], _, bc => (.failed .panicked, bc)
  | i, block :: rest, receipts :: more, batch, bc =>
    if w.interrupted i then (.interrupted, bc)
    else
      match bc.receive i block receipts with
      | .error err => (.failed err, bc)
      | .ok none => receiptsLoop w (i + 1) rest more batch bc
      | .ok (some e) =>
        if batchSize (batch ++ [e]) < idealBatchSize then receiptsLoop w (i + 1) rest more (batch ++ [e]) bc
        else if w.writeOk i then receiptsLoop w (i + 1) rest more [] (bc.write (batch ++ [e]))
        else (.failed .database, bc)

/-- The end of `InsertReceiptChain`: the head of the fast chain moves to a block with a
greater total difficulty. -/
def updateFastBlock (bc : FastChain) (blockChain : List FastBlock) : Except InsertError FastChain :=
  match blockChain.getLast? with
  | none => .error .panicked
  | some head =>
    match bc.hc.getTd head.hash head.number with
    -- a rewind may have removed the head
    | none => .ok bc
    | some td =>
      match bc.hc.getTd bc.currentFastBlock.hash bc.currentFastBlock.number with
      | none => .error .panicked
      | some localTd => .ok (if localTd < td then { bc with currentFastBlock := head } else bc)

/-- The first block that does not follow the one before it. -/
def nonContiguous : Nat → List FastBlock → Option Nat
  | i, a :: b :: rest =>
    if b.number ≠ (a.number + 1) % 2 ^ 64 ∨ b.header.parentHash ≠ a.hash then some i
    else nonContiguous (i + 1) (b :: rest)
  | _, _ => none

/-- `InsertReceiptChain`, with the chain that it leaves. -/
def insertReceiptChain (w : World) (blockChain : List FastBlock) (receiptChain : List (List Receipt))
    (bc : FastChain) : Except InsertError Unit × FastChain :=
  match nonContiguous 0 blockChain with
  | some i => (.error (.nonContiguous i), bc)
  | none =>
    match receiptsLoop w 0 blockChain receiptChain [] bc with
    | (.interrupted, bc) => (.ok (), bc)
    | (.failed err, bc) => (.error err, bc)
    | (.through batch, bc) =>
      if 0 < batchSize batch ∧ ¬ w.writeOk blockChain.length then (.error .database, bc)
      else
        let bc := bc.write batch
        match bc.updateFastBlock blockChain with
        | .error err => (.error err, bc)
        | .ok bc => (.ok (), bc)

end FastChain

end

end Bgmchain.Core
