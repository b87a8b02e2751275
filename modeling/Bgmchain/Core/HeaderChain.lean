import Bgmchain.Consensus.Dpos.Engine

/-! # The header chain

`core/headerchain.go` over the records of `core/database_util.go`: headers and
total difficulties by hash and number, the number of a hash, the canonical hash
of a number and the current header. The caches in front of the database are left
out, and the database takes every write. -/
namespace Bgmchain.Core
open Common Function
open Dpos (ChainConfig ChainReader predUint64 blockInterval)

/-- The errors of the package. -/
inductive Error where
  | knownBlock
  | blacklistedHash
  | unknownAncestor
  | nonContiguous (item : Nat)
  | futureBlock (time max : Int)
  | unclesNotAllowed
  | uncleHashMismatch (have_ want : Hash)
  | txHashMismatch (have_ want : Hash)
  | invalidGasUsed (remote local_ : Int)
  | invalidBloom (remote local_ : FixedBytes 256)
  | invalidReceiptHash (remote local_ : Hash)
  | invalidRoot (remote local_ : Hash)
  | invalidDposRoot (remote local_ : Hash)
  | invalidType
  | transaction
  | state
  | context (err : TrieError)
  | engine (err : Dpos.Error)
  | invalidOldChain
  | invalidNewChain
  | aborted
  | encoding
  | panicked
deriving DecidableEq

/-- The fixed part of an error's text, up to the values it prints. -/
def Error.message : Error → String
  | .knownBlock => "block already known"
  | .blacklistedHash => "blacklisted hash"
  | .unknownAncestor => "unknown ancestor"
  | .nonContiguous _ => "non contiguous insert"
  | .futureBlock _ _ => "future block"
  | .unclesNotAllowed => "uncles not allowed"
  | .uncleHashMismatch _ _ => "uncle root hash mismatch"
  | .txHashMismatch _ _ => "transaction root hash mismatch"
  | .invalidGasUsed _ _ => "invalid gas used"
  | .invalidBloom _ _ => "invalid bloom"
  | .invalidReceiptHash _ _ => "invalid receipt root hash"
  | .invalidRoot _ _ => "invalid merkle root"
  | .invalidDposRoot _ _ => "invalid dpos root"
  | .invalidType => "invalid transaction type"
  | .transaction => "transaction error"
  | .state => "missing trie node"
  | .context _ => "missing trie node"
  | .engine err => err.message
  | .invalidOldChain => "Invalid old chain"
  | .invalidNewChain => "Invalid new chain"
  | .aborted => "aborted"
  | .encoding => "rlp: cannot encode negative *big.Int"
  | .panicked => "runtime error"

/-! ## Canonical hashes -/

/-- The canonical hash of each number that has one. None lies above `top`. -/
structure Canonical where
  hash? : Nat → Option Hash
  top : Nat
  above : ∀ n, top < n → hash? n = none

namespace Canonical

/-- `GetCanonicalHash`: the zero hash when there is none. -/
def get (c : Canonical) (number : Nat) : Hash := (c.hash? number).getD (.zero 32)

/-- `WriteCanonicalHash` -/
def write (c : Canonical) (hash : Hash) (number : Nat) : Canonical where
  hash? := update c.hash? number (some hash)
  top := max c.top number
  above n hn := by
    rw [update_of_ne (by omega)]
    exact c.above n (by omega)

/-- `DeleteCanonicalHash` -/
def delete (c : Canonical) (number : Nat) : Canonical where
  hash? := update c.hash? number none
  top := c.top
  above n hn := by
    by_cases h : n = number
    · rw [h, update_self]
    · rw [update_of_ne h]
      exact c.above n hn

theorem get_write_self (c : Canonical) (hash : Hash) (number : Nat) :
    (c.write hash number).get number = hash := by
  simp [get, write]

theorem get_write_of_ne (c : Canonical) (hash : Hash) {number n : Nat} (h : n ≠ number) :
    (c.write hash number).get n = c.get n := by
  simp [get, write, update_of_ne h]

/-- The first loop of `WriteHeader`: delete upwards until there is no hash. The
number wraps around. -/
def deleteFrom : Nat → Nat → Canonical → Canonical
  | 0, _, c => c
  | f + 1, i, c => if c.get i = .zero 32 then c else deleteFrom f ((i + 1) % 2 ^ 64) (c.delete i)

end Canonical

/-! ## The chain -/

structure HeaderChain where
  config : ChainConfig
  headers : Hash → Nat → Option Header
  numbers : Hash → Option Nat
  tds : Hash → Nat → Option Int
  canonical : Canonical
  currentHeader : Header

/-- What a write did to the canonical chain. -/
inductive WriteStatus where
  | canonStatTy
  | sideStatTy
deriving DecidableEq

def missingNumber : Nat := 2 ^ 64 - 1

namespace HeaderChain

def getBlockNumber (hc : HeaderChain) (hash : Hash) : Nat := (hc.numbers hash).getD missingNumber

def getHeader (hc : HeaderChain) (hash : Hash) (number : Nat) : Option Header := hc.headers hash number

def getHeaderByHash (hc : HeaderChain) (hash : Hash) : Option Header :=
  hc.getHeader hash (hc.getBlockNumber hash)

def getHeaderByNumber (hc : HeaderChain) (number : Nat) : Option Header :=
  if hc.canonical.get number = .zero 32 then none
  else hc.getHeader (hc.canonical.get number) number

def getTd (hc : HeaderChain) (hash : Hash) (number : Nat) : Option Int := hc.tds hash number

/-- The chain as the engine reads it. -/
def reader (hc : HeaderChain) : ChainReader where
  config := hc.config
  currentHeader := hc.currentHeader
  getHeader := hc.getHeader
  getHeaderByNumber := hc.getHeaderByNumber
  getHeaderByHash := hc.getHeaderByHash

/-- `WriteTd`; a negative integer cannot be encoded. -/
def writeTd (hc : HeaderChain) (hash : Hash) (number : Nat) (td : Int) : Except Error HeaderChain :=
  if td < 0 then .error .encoding
  else .ok { hc with
    tds := fun h n => if h = hash ∧ n = number then some td else hc.tds h n }

/-- A header has to be encoded before it is written. -/
def encodable (header : Header) : Except Error Unit :=
  match header.encode with
  | none => .error .encoding
  | some _ => .ok ()

section
variable [Crypto]

/-- `WriteHeader` of `database_util.go`: the header under its hash and number, and
the number under the hash. -/
def storeHeader (hc : HeaderChain) (header : Header) : HeaderChain :=
  { hc with
    headers := fun h n =>
      if h = header.hash ∧ n = uint64 header.number then some header else hc.headers h n
    numbers := update hc.numbers header.hash (some (uint64 header.number)) }

/-- The second loop of `WriteHeader`: make the ancestors canonical, down to the
first that is. A header that is not there is dereferenced. -/
def makeCanonical (hc : HeaderChain) : Nat → Hash → Nat → Canonical → Except Error Canonical
  | 0, _, _, _ => .error .panicked
  | f + 1, headHash, headNumber, c =>
    if c.get headNumber = headHash then .ok c
    else
      match hc.getHeader headHash headNumber with
      | none => .error .panicked
      | some headHeader =>
        makeCanonical hc f headHeader.parentHash (predUint64 (uint64 headHeader.number))
          (c.write headHash headNumber)

/-- The fork choice of `WriteHeader`; `coin` is `mrand.Float64() < 0.5`. -/
def prefers (coin : Bool) (externTd localTd : Int) : Bool :=
  decide (externTd > localTd) || (decide (externTd = localTd) && coin)

/-- `WriteHeader`. A missing total difficulty of the current header is dereferenced. -/
def writeHeader (coin : Bool) (hc : HeaderChain) (header : Header) :
    Except Error (WriteStatus × HeaderChain) := do
  let hash := header.hash
  let number := uint64 header.number
  match hc.getTd header.parentHash (predUint64 number) with
  | none => throw .unknownAncestor
  | some ptd =>
    match hc.getTd hc.currentHeader.hash (uint64 hc.currentHeader.number) with
    | none => throw .panicked
    | some localTd =>
      let externTd := header.difficulty + ptd
      let hc ← hc.writeTd hash number externTd
      encodable header
      let hc := hc.storeHeader header
      if prefers coin externTd localTd then
        let c := hc.canonical.deleteFrom (hc.canonical.top + 1) ((number + 1) % 2 ^ 64)
        let c ← hc.makeCanonical (number + 2) header.parentHash (predUint64 number) c
        return (.canonStatTy, { hc with canonical := c.write hash number, currentHeader := header })
      else return (.sideStatTy, hc)

/-! ## Importing headers -/

/-- `HasHeader` -/
def hasHeader (hc : HeaderChain) (hash : Hash) (number : Nat) : Bool := (hc.headers hash number).isSome

/-- What the outside world answers while a batch of headers is imported: the clock
when the engine checks header `i`, the `i`-th draw of `hc.rand.Intn(checkFreq)`,
whether the node is being stopped before header `i` in each of the two loops, and
the coin of the fork choice. -/
structure World where
  clock : Nat → Int
  draw : Nat → Nat
  interrupted : Nat → Bool
  stopped : Nat → Bool
  coin : Nat → Bool

/-- The first header that does not follow the one before it. -/
def nonContiguous : Nat → List Header → Option Nat
  | i, a :: b :: rest =>
    if uint64 b.number ≠ (uint64 a.number + 1) % 2 ^ 64 ∨ b.parentHash ≠ a.hash then some i
    else nonContiguous (i + 1) (b :: rest)
  | _, _ => none

/-- The seals that `ValidateHeaderChain` wants checked in a batch: one drawn from
each `checkFreq` headers, and the last. A frequency of zero is divided by, and in
an empty batch there is no last one. -/
def requestedSeals (draw : Nat → Nat) (length : Nat) (checkFreq : Int) : Except Error (List Bool) :=
  if checkFreq = 0 ∨ length = 0 then .error .panicked
  else
    let seals := (List.range ((length : Int).tdiv checkFreq).toNat).foldl
      (fun seals i => seals.set (min (i * checkFreq.toNat + draw i) (length - 1)) true)
      (List.replicate length false)
    .ok (seals.set (length - 1) true)

/-- The loop of `ValidateHeaderChain` over the results of the engine, from header
`i` on. An error comes with the index that is returned. -/
def validateLoop (w : World) (badHashes : List Hash) :
    Nat → List (Header × Option Dpos.Error) → Except (Nat × Error) Unit
  | _, [] => .ok ()
  | i, (header, verified) :: rest =>
    if w.interrupted i then .error (0, .aborted)
    else if header.hash ∈ badHashes then .error (i, .blacklistedHash)
    else
      match verified with
      | some e => .error (i, .engine e)
      | none => validateLoop w badHashes (i + 1) rest

/-- `ValidateHeaderChain` -/
def validateHeaderChain (hc : HeaderChain) (w : World) (badHashes : List Hash) (chain : List Header)
    (checkFreq : Int) : Except (Nat × Error) Unit :=
  match nonContiguous 0 chain with
  | some i => .error (0, .nonContiguous i)
  | none =>
    match requestedSeals w.draw chain.length checkFreq with
    | .error e => .error (0, e)
    | .ok seals =>
      validateLoop w badHashes 0 (chain.zip (Dpos.verifyHeaders w.clock hc.reader chain seals))

/-- The loop of `InsertHeaderChain`, from header `i` on. -/
def insertLoop (w : World) : Nat → List Header → EStateM (Nat × Error) HeaderChain Unit
  | _, [] => pure ()
  | i, header :: rest => do
    if w.stopped i then throw (i, .aborted)
    let hc ← get
    if hc.hasHeader header.hash (uint64 header.number) then insertLoop w (i + 1) rest
    else
      match hc.writeHeader (w.coin i) header with
      | .error e => throw (i, e)
      | .ok (_, hc) =>
        set hc
        insertLoop w (i + 1) rest

/-- `InsertHeaderChain` of the block chain: the batch is validated, then written. -/
def insertHeaderChain (w : World) (badHashes : List Hash) (chain : List Header) (checkFreq : Int) :
    EStateM (Nat × Error) HeaderChain Unit := do
  match (← get).validateHeaderChain w badHashes chain checkFreq with
  | .error e => throw e
  | .ok _ => insertLoop w 0 chain

end

end HeaderChain

end Bgmchain.Core
