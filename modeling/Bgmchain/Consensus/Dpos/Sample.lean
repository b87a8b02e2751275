import Bgmchain.Consensus.Dpos.Engine

/-! # A small world to run the engine in

Concrete values for what the engine takes as given, so that its functions can
be evaluated on fixed inputs: a hash that keeps the end of what is short and
sums up what is long, a signature that is its signer's key, a source that always
draws zero, and a state that is a table of balances. -/
namespace Bgmchain.Dpos.Sample
open Common

scoped instance : Crypto where
  keccak256 b := .ofBytes 32 (if b.length ≤ 64 then b else
    Lib.BigEndian.encode 32 (b.foldl (fun acc x => (acc * 257 + x.toNat + 1) % 2 ^ 255) 0))
  keccak512 b := .ofBytes 64 b
  ecrecover _ signature := some signature

scoped instance : Rand where
  Source := Unit
  newSource _ := ()
  int31n _ _ := (⟨0, Nat.succ_pos _⟩, ())

scoped instance : StateDB (Address → Int) where
  getBalance state a := state a
  addBalance state a amount := Function.update state a (state a + amount)
  intermediateRoot state _ := (.zero 32, state)

def address (n : UInt8) : Address := bytesToAddress [n]

/-- A database with nothing in it. -/
def nodes : NodeDatabase := ⟨fun _ _ => none, 0⟩

def proto : DposContextProto := ⟨.zero 32, .zero 32, .zero 32, .zero 32, .zero 32⟩

/-- A header with a number, a time, a validator and a parent, and 97 bytes of
extra data that end in the validator's address. -/
def header (number time : Int) (validator : Address) (parentHash : Hash) : Header where
  parentHash := parentHash
  uncleHash := uncleHash
  validator := validator
  coinbase := .zero 20
  root := .zero 32
  txHash := .zero 32
  receiptHash := .zero 32
  dposContext := proto
  bloom := .zero 256
  difficulty := 1
  number := number
  gasLimit := 0
  gasUsed := 0
  time := time
  extra := List.replicate 77 0 ++ validator.bytes
  mixDigest := .zero 32
  nonce := .zero 8

/-- A reader that knows a genesis header and one other. -/
def reader (genesis tip : Header) : ChainReader where
  config := ⟨none, .zero 32, none, none, none, false⟩
  currentHeader := tip
  getHeader _ _ := some tip
  getHeaderByNumber n := if n = 0 then some genesis else none
  getHeaderByHash _ := some tip

end Bgmchain.Dpos.Sample
