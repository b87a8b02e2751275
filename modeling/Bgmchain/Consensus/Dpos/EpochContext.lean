import Bgmchain.Core.Types.Header

/-! # The election

`consensus/dpos/epoch_context.go`: counting the votes behind each candidate,
taking inactive validators out at the end of an epoch and electing the
validators of the next. The functions run in `EStateM` over the DPoS context,
whose tries they read and write; an error keeps what was written before it. -/
namespace Bgmchain.Dpos
open Common LeafIterator

def blockInterval : Int := 10
def epochInterval : Int := 86400
def maxValidatorSize : Nat := 3
def safeSize : Nat := maxValidatorSize * 2 / 3 + 1
def consensusSize : Nat := maxValidatorSize * 2 / 3 + 1

/-- The errors of the package. -/
inductive Error where
  | unknownBlock
  | missingVanity
  | missingSignature
  | invalidMixDigest
  | invalidUncleHash
  | invalidDifficulty
  | invalidTimestamp
  | waitForPrevBlock
  | mintFutureBlock
  | mismatchSignerAndValidator
  | invalidBlockValidator
  | invalidMintBlockTime
  | nilBlockHeader
  | futureBlock
  | unknownAncestor
  | forkHash
  | noCandidates
  | noValidatorCouldBeKickout
  | failedToLookupValidator
  | tooFewCandidates
  | failedToGetValidator (err : DposError)
  | gotErrorWhenElect (err : Error)
  | context (err : DposError)
  | database
  | signature
  | panicked
deriving DecidableEq

def Error.message : Error → String
  | .unknownBlock => "unknown block"
  | .missingVanity => "extra-data 32 byte vanity prefix missing"
  | .missingSignature => "extra-data 65 byte suffix signature missing"
  | .invalidMixDigest => "non-zero mix digest"
  | .invalidUncleHash => "non empty uncle hash"
  | .invalidDifficulty => "invalid difficulty"
  | .invalidTimestamp => "invalid timestamp"
  | .waitForPrevBlock => "wait for last block arrived"
  | .mintFutureBlock => "mint the future block"
  | .mismatchSignerAndValidator => "mismatch block signer and validator"
  | .invalidBlockValidator => "invalid block validator"
  | .invalidMintBlockTime => "invalid time to mint the block"
  | .nilBlockHeader => "nil block header returned"
  | .futureBlock => "block in the future"
  | .unknownAncestor => "unknown ancestor"
  | .forkHash => "homestead gas reprice fork"
  | .noCandidates => "no candidates"
  | .noValidatorCouldBeKickout => "no validator could be kickout"
  | .failedToLookupValidator => "failed to lookup validator"
  | .tooFewCandidates => "too few candidates"
  | .failedToGetValidator err => "failed to get validator: " ++ err.message
  | .gotErrorWhenElect err => "got error when elect next epoch, err: " ++ err.message
  | .context err => err.message
  | .database => "database error"
  | .signature => "invalid signature"
  | .panicked => "runtime error"

/-- The error stands for a panic of the source, which no caller recovers from. -/
def Error.isPanic : Error → Bool
  | .panicked => true
  | .context .panicked => true
  | .failedToGetValidator .panicked => true
  | .gotErrorWhenElect err => err.isPanic
  | _ => false

abbrev Elect := EStateM Error DposContext

/-! ## Votes -/

/-- `map[common.Address]*big.Int`, the keys in the order they were entered. -/
abbrev Votes := List (Address × Int)

def Votes.get? (votes : Votes) (a : Address) : Option Int := (votes.find? (·.1 = a)).map (·.2)

def Votes.set (votes : Votes) (a : Address) (score : Int) : Votes :=
  if votes.any (·.1 = a) then votes.map fun e => if e.1 = a then (a, score) else e
  else votes ++ [(a, score)]

/-- The inner loop of `countVotes`: add the balance of one delegator. -/
def addWeight (balance : Address → Int) (candidateAddr : Address) (delegator : Bytes) (votes : Votes) :
    Votes :=
  votes.set candidateAddr ((votes.get? candidateAddr).getD 0 + balance (bytesToAddress delegator))

/-- The body of the outer loop of `countVotes`. -/
def countCandidate (balance : Address → Int) (delegateTrie : Trie) (candidate : Bytes) (votes : Votes) :
    Except Error Votes :=
  let candidateAddr := bytesToAddress candidate
  let iter := newPrefix delegateTrie candidate
  match iter.next delegateTrie with
  | (.done, _) => .ok (votes.set candidateAddr 0)
  | (.panicked, _) => .error .panicked
  | (.item delegator, iter') =>
    iter'.each (fun _ => delegateTrie) (fun _ => .panicked)
      (fun delegator votes => .ok (addWeight balance candidateAddr delegator votes))
      iter.nodeIt.fuel (addWeight balance candidateAddr delegator votes)

/-- `countVotes`; `balance` is `statedb.GetBalance`. -/
def countVotes (balance : Address → Int) (d : DposContext) : Except Error Votes :=
  let iter := new d.candidateTrie []
  match iter.next d.candidateTrie with
  | (.done, _) => .error .noCandidates
  | (.panicked, _) => .error .panicked
  | (.item candidate, iter') =>
    match countCandidate balance d.delegateTrie candidate [] with
    | .error e => .error e
    | .ok votes =>
      iter'.each (fun _ => d.candidateTrie) (fun _ => .panicked)
        (countCandidate balance d.delegateTrie) iter.nodeIt.fuel votes

section
variable [Crypto]

/-- `sortableAddresses.Less`: more weight first, then by the text of the address. -/
def less (p q : Address × Int) : Bool :=
  if p.2 < q.2 then false
  else if q.2 < p.2 then true
  else decide (p.1.hex < q.1.hex)

/-- `sort.Sort` -/
def sortAddresses (l : List (Address × Int)) : List (Address × Int) :=
  l.insertionSort fun p q => !less q p

/-- `sort.Sort(sort.Reverse(l))` -/
def sortReverse (l : List (Address × Int)) : List (Address × Int) :=
  l.insertionSort fun p q => !less p q

end

/-! ## Kicking out -/

/-- The key of a validator's count for an epoch. -/
def mintCntKey (epoch : Int) (validator : Address) : Bytes :=
  putUint64 (uint64OfInt64 epoch) ++ validator.bytes

/-- The blocks a validator has minted in an epoch, by the mint count trie. -/
def mintCnt (epoch : Int) (validator : Address) : Elect Int := fun d =>
  let (cntBytes, mintCntTrie) := d.mintCntTrie.get (mintCntKey epoch validator)
  let d := { d with mintCntTrie := mintCntTrie }
  match cntBytes with
  | none => .ok 0 d
  | some b =>
    match getUint64 b with
    | none => .error .panicked d
    | some n => .ok (int64 n) d

/-- The blocks a validator has to mint not to be kicked out. -/
def minBlocks (timeStamp timeOfFirstBlock : Int) : Int :=
  let sinceFirst := int64 (timeStamp - timeOfFirstBlock)
  let epochDuration := if sinceFirst < epochInterval then sinceFirst else epochInterval
  ((epochDuration.tdiv blockInterval).tdiv maxValidatorSize).tdiv 2

/-- The validators with fewer blocks than that, with their counts. -/
def needKickout (epoch required : Int) : List Address → Elect (List (Address × Int))
  | [] => pure []
  | validator :: rest => do
    let cnt ← mintCnt epoch validator
    let need ← needKickout epoch required rest
    return if cnt < required then (validator, cnt) :: need else need

/-- The number of candidates, counted no further than `limit`. -/
def countCandidates (d : DposContext) (limit : Nat) : Except Error Nat :=
  let iter := new d.candidateTrie []
  match iter.each (fun _ => d.candidateTrie) (fun _ => none)
      (fun _ n => if n + 1 ≥ limit then .error (some (n + 1)) else .ok (n + 1)) iter.nodeIt.fuel 0 with
  | .ok n => .ok n
  | .error (some n) => .ok n
  | .error none => .error .panicked

/-- The last loop of `kickoutValidator`. -/
def kickoutLoop : Nat → List (Address × Int) → Elect Unit
  | _, [] => pure ()
  | candidateCount, (validator, _) :: rest => do
    -- ensure candidate count greater than or equal to safeSize
    if candidateCount ≤ safeSize then return ()
    let d ← get
    let (err, d') := d.kickoutCandidate validator
    set d'
    match err with
    | some e => throw (.context e)
    | none => kickoutLoop (candidateCount - 1) rest

/-- `GetValidators` on the context at hand. -/
def getValidators : Elect (Except DposError (List Address)) := fun d =>
  let (r, d') := d.getValidators
  .ok r d'

variable [Crypto]

/-- `kickoutValidator` -/
def kickoutValidator (timeStamp timeOfFirstBlock epoch : Int) : Elect Unit := do
  match ← getValidators with
  | .error e => throw (.failedToGetValidator e)
  | .ok validators =>
    if validators = [] then throw .noValidatorCouldBeKickout
    let need ← needKickout epoch (minBlocks timeStamp timeOfFirstBlock) validators
    -- no validators need kickout
    if need = [] then return ()
    match countCandidates (← get) (need.length + safeSize) with
    | .error e => throw e
    | .ok candidateCount => kickoutLoop candidateCount (sortReverse need)

/-- `lookupValidator` -/
def lookupValidator (now : Int) : Elect Address := do
  let offset := now.tmod epochInterval
  if offset.tmod blockInterval ≠ 0 then throw .invalidMintBlockTime
  let offset := offset.tdiv blockInterval
  match ← getValidators with
  | .error e => throw (.context e)
  | .ok validators =>
    if validators.length = 0 then throw .failedToLookupValidator
    -- a negative index panics
    match validators[(offset.tmod validators.length).toNat]? with
    | some validator => if offset.tmod validators.length < 0 then throw .panicked else return validator
    | none => throw .panicked

/-! ## Electing -/

variable [Rand]

/-- The shuffle of `tryElect`, from index `i` down. -/
def shuffle {α : Type} : Nat → Rand.Source → List α → List α
  | 0, _, l => l
  | i + 1, r, l =>
    let (j, r') := Rand.int31n r (i + 1)
    shuffle i r' (l.swap (i + 1) j.val)

/-- The seed of an epoch's shuffle. -/
def electSeed (parentHash : Hash) (i : Int) : Int :=
  int64 (littleEndianUint32 (Crypto.keccak512 parentHash.bytes).bytes + i)

/-- The validators elected by these votes. -/
def electValidators (parentHash : Hash) (i : Int) (votes : Votes) : List Address :=
  let candidates := (sortAddresses votes).take maxValidatorSize
  (shuffle (candidates.length - 1) (Rand.newSource (electSeed parentHash i)) candidates).map (·.1)

/-- One turn of the loop of `tryElect` after the kickout: elect the validators of
the epoch after `i`. -/
def electRound (balance : Address → Int) (parentHash : Hash) (i : Int) : Elect Unit := do
  match countVotes balance (← get) with
  | .error e => throw e
  | .ok votes =>
    if votes.length < safeSize then throw .tooFewCandidates
    modify fun d =>
      ({ d with epochTrie := .empty d.db epochPrefix }).setValidators (electValidators parentHash i votes)

/-- The kickout at the start of a turn: only when the iterator over the counts of
the last epoch, which is not rewound between turns, finds another one. -/
def kickoutTurn (timeStamp timeOfFirstBlock prevEpoch : Int) (prevEpochIsGenesis : Bool)
    (iter : LeafIterator) : Elect LeafIterator := do
  if prevEpochIsGenesis then return iter
  match iter.next (← get).mintCntTrie with
  | (.item _, iter') =>
    kickoutValidator timeStamp timeOfFirstBlock prevEpoch
    return iter'
  | (.done, iter') => return iter'
  | (.panicked, _) => throw .panicked

/-- The loop of `tryElect`, with the number of turns left. -/
def electLoop (balance : Address → Int) (timeStamp timeOfFirstBlock prevEpoch : Int)
    (prevEpochIsGenesis : Bool) (parentHash : Hash) : Nat → Int → LeafIterator → Elect Unit
  | 0, _, _ => pure ()
  | n + 1, i, iter => do
    let iter' ← kickoutTurn timeStamp timeOfFirstBlock prevEpoch prevEpochIsGenesis iter
    electRound balance parentHash i
    electLoop balance timeStamp timeOfFirstBlock prevEpoch prevEpochIsGenesis parentHash n (i + 1) iter'

/-- The epoch a timestamp lies in. -/
def epochOf (timeStamp : Int) : Int := timeStamp.tdiv epochInterval

/-- `tryElect` -/
def tryElect (balance : Address → Int) (timeStamp timeOfFirstBlock : Int) (genesis parent : Header) :
    Elect Unit := do
  let genesisEpoch := epochOf (int64 genesis.time)
  let prevEpoch := epochOf (int64 parent.time)
  let currentEpoch := epochOf timeStamp
  let prevEpochIsGenesis := decide (prevEpoch = genesisEpoch)
  let prevEpoch := if prevEpochIsGenesis ∧ prevEpoch < currentEpoch then currentEpoch - 1 else prevEpoch
  let iter := newPrefix (← get).mintCntTrie (putUint64 (uint64OfInt64 prevEpoch))
  electLoop balance timeStamp timeOfFirstBlock prevEpoch prevEpochIsGenesis parent.hash
    (currentEpoch - prevEpoch).toNat prevEpoch iter

end Bgmchain.Dpos
