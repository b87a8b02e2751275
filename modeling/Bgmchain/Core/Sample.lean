import Bgmchain.Consensus.Dpos.Sample
import Bgmchain.Core.BlockChain

/-! # A small chain to import blocks into

A machine on which every message succeeds and changes nothing, and a chain that
holds a genesis block only. -/
namespace Bgmchain.Core.Sample
open Common Dpos.Sample
open Dpos (StateDB)

scoped instance : Execution (Address → Int) where
  Tx := Message
  Receipt := Unit
  txHash _ := .zero 32
  asMessage _ _ tx := some tx
  prepare state _ _ _ := state
  applyMessage _ _ state _ gasPool := some ⟨state, gasPool, 0, false⟩
  finalise state := state
  newReceipt _ _ _ _ _ _ := ()
  applyDAOHardFork state := state
  txSha _ := .zero 32
  receiptSha _ := .zero 32
  createBloom _ := .zero 256
  commitTo state _ := (.zero 32, state)

/-- A block without transactions. -/
def empty (header : Header) : Block (Address → Int) := ⟨header, [], []⟩

/-- A chain with a genesis block. -/
def chainOf (genesis : Header) (db : NodeDatabase) : BlockChain (Address → Int) where
  hc :=
    { config := ⟨none, .zero 32, none, none, none, false⟩
      headers := fun h n => if h = genesis.hash ∧ n = 0 then some genesis else none
      numbers := fun h => if h = genesis.hash then some 0 else none
      tds := fun h n => if h = genesis.hash ∧ n = 0 then some genesis.difficulty else none
      canonical :=
        { hash? := fun n => if n = 0 then some genesis.hash else none
          top := 0
          above := fun n hn => if_neg (by omega) }
      currentHeader := genesis }
  bodies h n := if h = genesis.hash ∧ n = 0 then some ([], []) else none
  states root := if root = genesis.root then some fun _ => 0 else none
  txLookups _ := none
  engine := ⟨db, address 0, none, none⟩
  timeOfFirstBlock := 0
  currentBlock := empty genesis
  currentFastBlock := empty genesis
  futureBlocks := []
  badHashes := []

def plainGenesis : Header := header 0 0 (address 0) (.zero 32)

/-- A chain whose genesis block has an empty context. -/
def plainChain : BlockChain (Address → Int) := chainOf plainGenesis nodes

/-- A world in which nothing happens and the clock shows the same time throughout. -/
def world (now : Int) : BlockChain.World :=
  ⟨fun _ => now, fun _ => now, fun _ => false, fun _ => false, fun _ => true⟩

end Bgmchain.Core.Sample
