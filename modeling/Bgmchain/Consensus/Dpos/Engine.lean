import Bgmchain.Consensus.Dpos.EpochContext

/-! # The DPoS engine

`consensus/dpos/dpos.go`: what a node checks of a header and of its seal, which
block it holds for confirmed, how a block is finalized and when the local
signer may mint. The cache of recovered signers is left out: a hit returns what
was recovered from a header with the same hash. -/
namespace Bgmchain.Dpos
open Common Lib Crypto

def extraVanity : Nat := 32
def extraSeal : Nat := 65

/-- What importing a block reads of `params.ChainConfig`. -/
structure ChainConfig where
  eip150Block : Option Int
  eip150Hash : Hash
  eip158Block : Option Int
  byzantiumBlock : Option Int
  daoForkBlock : Option Int
  daoForkSupport : Bool

/-- `isForked` -/
def isForked (s : Option Int) (head : Int) : Bool :=
  match s with
  | none => false
  | some s => decide (s ≤ head)

/-- `consensus.ChainReader` -/
structure ChainReader where
  config : ChainConfig
  currentHeader : Header
  getHeader : Hash → Nat → Option Header
  getHeaderByNumber : Nat → Option Header
  getHeaderByHash : Hash → Option Header

/-- The state of `Dpos`. `confirmedHead` is what the database holds under
`confirmed-block-head`. -/
structure Engine where
  db : NodeDatabase
  signer : Address
  confirmedBlockHeader : Option Header
  confirmedHead : Option Bytes

section
variable [Crypto]

/-- `sigHash`; callers have made sure that the extra data holds a signature. -/
def sigHash (header : Header) : Hash :=
  let enc : Option Bytes := do
    let difficulty ← encodeBigInt header.difficulty
    let number ← encodeBigInt header.number
    let gasLimit ← encodeBigInt header.gasLimit
    let gasUsed ← encodeBigInt header.gasUsed
    let time ← encodeBigInt header.time
    return Rlp.encodeList ([FixedBytes.encode header.parentHash, FixedBytes.encode header.uncleHash,
      FixedBytes.encode header.validator, FixedBytes.encode header.coinbase,
      FixedBytes.encode header.root, FixedBytes.encode header.txHash,
      FixedBytes.encode header.receiptHash, FixedBytes.encode header.bloom, difficulty, number,
      gasLimit, gasUsed, time,
      Rlp.encodeString (header.extra.take (header.extra.length - extraSeal)),
      FixedBytes.encode header.mixDigest, FixedBytes.encode header.nonce,
      FixedBytes.encode header.dposContext.root].flatten)
  keccak256 (enc.getD [])

/-- `ecrecover` -/
def ecrecover (header : Header) : Except Error Address :=
  if header.extra.length < extraSeal then .error .missingSignature
  else
    let signature := header.extra.drop (header.extra.length - extraSeal)
    match Crypto.ecrecover (sigHash header) signature with
    | none => .error .signature
    | some pubkey => .ok (bytesToAddress ((keccak256 (pubkey.drop 1)).bytes.drop 12))

/-- `types.CalcUncleHash(nil)` -/
def uncleHash : Hash := keccak256 (Rlp.encodeList [])

/-! ## Verifying headers -/

/-- `misc.VerifyForkHashes` -/
def verifyForkHashes (config : ChainConfig) (header : Header) : Except Error Unit :=
  if config.eip150Block = some header.number then
    if config.eip150Hash ≠ .zero 32 ∧ config.eip150Hash ≠ header.hash then .error .forkHash
    else .ok ()
  else .ok ()

/-- `number - 1` in `uint64`. -/
def predUint64 (number : Nat) : Nat := (number + 2 ^ 64 - 1) % 2 ^ 64

/-- The parent of a header: the last of a batch, or from the chain. -/
def parentOf (chain : ChainReader) (header : Header) (parents : List Header) : Option Header :=
  match parents.getLast? with
  | some parent => some parent
  | none => chain.getHeader header.parentHash (predUint64 (uint64 header.number))

/-- The last check of `verifyHeader`. -/
def timeTooEarly (parent header : Header) : Bool :=
  decide ((uint64 parent.time + blockInterval.toNat) % 2 ^ 64 > uint64 header.time)

/-- `verifyHeader`, with the local clock's reading. -/
def verifyHeader (now : Int) (chain : ChainReader) (header : Header) (parents : List Header) :
    Except Error Unit := do
  let number := uint64 header.number
  -- unnecessary to verify the block from future
  if header.time > now then throw .futureBlock
  if header.extra.length < extraVanity then throw .missingVanity
  if header.extra.length < extraVanity + extraSeal then throw .missingSignature
  if header.mixDigest ≠ .zero 32 then throw .invalidMixDigest
  -- difficulty always 1
  if uint64 header.difficulty ≠ 1 then throw .invalidDifficulty
  if header.uncleHash ≠ uncleHash then throw .invalidUncleHash
  verifyForkHashes chain.config header
  match parentOf chain header parents with
  | none => throw .unknownAncestor
  | some parent =>
    if uint64 parent.number ≠ predUint64 number ∨ parent.hash ≠ header.parentHash then
      throw .unknownAncestor
    if timeTooEarly parent header then throw .invalidTimestamp

/-- `VerifyHeaders`: the results in the order of the headers, `none` for nil. The
goroutine takes no notice of `seals`. `now i` is the clock when it checks header `i`. -/
def verifyHeaders (now : Nat → Int) (chain : ChainReader) (headers : List Header) (_seals : List Bool) :
    List (Option Error) :=
  (List.range headers.length).map fun i =>
    match headers[i]? with
    | none => none
    | some header =>
      match verifyHeader (now i) chain header (headers.take i) with
      | .ok _ => none
      | .error e => some e

/-! ## The confirmed block -/

/-- `loadConfirmedBlockHeader` -/
def loadConfirmedBlockHeader (chain : ChainReader) (e : Engine) : Option Header :=
  e.confirmedHead.bind fun key => chain.getHeaderByHash (bytesToHash key)

/-- `storeConfirmedBlockHeader`; `putOk` says whether the database takes the write. -/
def storeConfirmedBlockHeader (putOk : Bool) (header : Header) : EStateM Error Engine Unit := fun e =>
  if putOk then .ok () { e with confirmedHead := some header.hash.bytes }
  else .error .database e

/-- A set of addresses, `map[common.Address]bool`. -/
def addWitness (witnesses : List Address) (a : Address) : List Address :=
  if a ∈ witnesses then witnesses else witnesses ++ [a]

/-- The loop of `updateConfirmedBlockHeader`. -/
def confirmLoop (putOk : Bool) (chain : ChainReader) (confirmed : Header) :
    Nat → Header → Int → List Address → EStateM Error Engine Unit
  | 0, _, _, _ => throw .panicked
  | f + 1, curHeader, epoch, validatorMap => do
    if confirmed.hash ≠ curHeader.hash ∧ uint64 confirmed.number < uint64 curHeader.number then
      let curEpoch := epochOf (int64 curHeader.time)
      let validatorMap := if curEpoch ≠ epoch then [] else validatorMap
      -- fast return: too few blocks are left to confirm one
      if int64 (int64 curHeader.number - int64 confirmed.number) <
          (consensusSize : Int) - validatorMap.length then
        return ()
      let validatorMap := addWitness validatorMap curHeader.validator
      if validatorMap.length ≥ consensusSize then
        modify fun e => { e with confirmedBlockHeader := some curHeader }
        storeConfirmedBlockHeader putOk curHeader
      else
        match chain.getHeaderByHash curHeader.parentHash with
        | none => throw .nilBlockHeader
        | some parent => confirmLoop putOk chain confirmed f parent curEpoch validatorMap

/-- The confirmed header that `updateConfirmedBlockHeader` starts from: the one in
memory, the one in the database, or the genesis header. -/
def confirmedHeader (chain : ChainReader) (e : Engine) : Option Header :=
  match e.confirmedBlockHeader with
  | some header => some header
  | none =>
    match loadConfirmedBlockHeader chain e with
    | some header => some header
    | none => chain.getHeaderByNumber 0

/-- `updateConfirmedBlockHeader`. The walk goes to the parent in every turn, so
the height of the head bounds it. -/
def updateConfirmedBlockHeader (putOk : Bool) (chain : ChainReader) : EStateM Error Engine Unit := do
  let e ← get
  match confirmedHeader chain e with
  -- the error of the failed load
  | none => throw (if e.confirmedHead = none then .database else .nilBlockHeader)
  | some confirmed =>
    set { e with confirmedBlockHeader := some confirmed }
    confirmLoop putOk chain confirmed (uint64 chain.currentHeader.number + 1) chain.currentHeader (-1) []

/-! ## Verifying seals -/

/-- `verifyBlockSigner` -/
def verifyBlockSigner (validator : Address) (header : Header) : Except Error Unit := do
  let signer ← ecrecover header
  if signer ≠ validator then throw .invalidBlockValidator
  if signer ≠ header.validator then throw .mismatchSignerAndValidator

/-- The validator whose turn it is at a time, by the context that hangs under
these hashes. -/
def scheduledValidator (db : NodeDatabase) (proto : DposContextProto) (now : Int) :
    Except Error Address :=
  match DposContext.newFromProto db proto with
  | .error e => .error (.context (.trie e))
  | .ok d =>
    match lookupValidator now d with
    | .ok validator _ => .ok validator
    | .error e _ => .error e

/-- `verifySeal` up to the point where it looks for a newly confirmed block. -/
def checkSeal (db : NodeDatabase) (chain : ChainReader) (header : Header) (parents : List Header) :
    Except Error Unit :=
  if uint64 header.number = 0 then .error .unknownBlock
  else
    match parentOf chain header parents with
    -- a nil parent is dereferenced
    | none => .error .panicked
    | some parent =>
      match scheduledValidator db parent.dposContext (int64 header.time) with
      | .error e => .error e
      | .ok validator => verifyBlockSigner validator header

/-- `verifySeal` -/
def verifySeal (putOk : Bool) (chain : ChainReader) (header : Header) (parents : List Header) :
    EStateM Error Engine Unit := do
  match checkSeal (← get).db chain header parents with
  | .error e => throw e
  | .ok _ => updateConfirmedBlockHeader putOk chain

/-! ## Minting -/

/-- `PrevSlot` -/
def prevSlot (now : Int) : Int := int64 ((int64 (now - 1)).tdiv blockInterval * blockInterval)

/-- `NextSlot` -/
def nextSlot (now : Int) : Int :=
  int64 ((int64 (now + blockInterval - 1)).tdiv blockInterval * blockInterval)

/-- `checkDeadline` -/
def checkDeadline (lastBlock : Header) (now : Int) : Except Error Unit :=
  let lastTime := int64 lastBlock.time
  if lastTime ≥ nextSlot now then .error .mintFutureBlock
  -- last block was arrived, or time's up
  else if lastTime = prevSlot now ∨ int64 (nextSlot now - now) ≤ 1 then .ok ()
  else .error .waitForPrevBlock

/-- `CheckValidator` -/
def checkValidator (e : Engine) (lastBlock : Header) (now : Int) : Except Error Unit := do
  checkDeadline lastBlock now
  let validator ← scheduledValidator e.db lastBlock.dposContext now
  if validator = .zero 20 ∨ validator ≠ e.signer then throw .invalidBlockValidator

/-! ## Finalizing -/

/-- What the engine uses of `state.StateDB`. -/
class StateDB (σ : Type) where
  getBalance : σ → Address → Int
  addBalance : σ → Address → Int → σ
  intermediateRoot : σ → Bool → Hash × σ

variable {σ : Type} [StateDB σ]

/-- `AccumulateRewards` -/
def accumulateRewards (config : ChainConfig) (state : σ) (header : Header) : σ :=
  let blockReward : Int := if isForked config.byzantiumBlock header.number then 3 * 10 ^ 18
    else 5 * 10 ^ 18
  StateDB.addBalance state header.coinbase blockReward

/-- The count `updateMintCnt` will write. -/
def nextMintCnt (currentEpoch newEpoch : Int) (validator : Address) : Elect Int := fun d =>
  -- still during the currentEpochID
  if currentEpoch = newEpoch then
    let iter := LeafIterator.new d.mintCntTrie (putUint64 (uint64OfInt64 currentEpoch))
    match iter.next d.mintCntTrie with
    | (.panicked, _) => .error .panicked d
    | (.done, _) => .ok 1 d
    -- when current is not genesis, read last count from the MintCntTrie
    | (.item _, _) =>
      let (cntBytes, mintCntTrie) := d.mintCntTrie.get (mintCntKey currentEpoch validator)
      let d := { d with mintCntTrie := mintCntTrie }
      match cntBytes with
      | none => .ok 1 d
      -- not the first time to mint
      | some b =>
        match getUint64 b with
        | none => .error .panicked d
        | some n => .ok (int64 (int64 n + 1)) d
  else .ok 1 d

/-- `updateMintCnt` -/
def updateMintCnt (parentBlockTime currentBlockTime : Int) (validator : Address) : Elect Unit := do
  let newEpoch := epochOf currentBlockTime
  let cnt ← nextMintCnt (epochOf parentBlockTime) newEpoch validator
  modify fun d =>
    { d with mintCntTrie :=
        d.mintCntTrie.update (mintCntKey newEpoch validator) (putUint64 (uint64OfInt64 cnt)) }

/-- What a call of `Finalize` leaves behind: the global it may have set, the
header it writes to, the state and the context. -/
structure Finalized (σ : Type) where
  timeOfFirstBlock : Int
  header : Header
  state : σ
  dposContext : DposContext
  err : Option Error

/-- The election and the mint count of `Finalize`, with the parent and the
genesis header read from the chain. -/
def electAndCount [Rand] (balance : Address → Int) (timeOfFirstBlock : Int) (genesis parent : Header)
    (header : Header) : Elect Unit := do
  let timeStamp := int64 header.time
  match tryElect balance timeStamp timeOfFirstBlock genesis parent (← get) with
  | .error err d =>
    set d
    throw (.gotErrorWhenElect err)
  | .ok _ d =>
    set d
    updateMintCnt (int64 parent.time) timeStamp header.validator

/-- The first block's time, once it is known. -/
def firstBlockTime (chain : ChainReader) (timeOfFirstBlock : Int) : Int :=
  if timeOfFirstBlock = 0 then
    match chain.getHeaderByNumber 1 with
    | some first => int64 first.time
    | none => timeOfFirstBlock
  else timeOfFirstBlock

/-- The end of `Finalize`: on success the header gets the hashes of the context. -/
def Finalized.of (timeOfFirstBlock : Int) (header : Header) (state : σ) :
    EStateM.Result Error DposContext Unit → Finalized σ
  | .error err d => ⟨timeOfFirstBlock, header, state, d, some err⟩
  | .ok _ d => ⟨timeOfFirstBlock, { header with dposContext := d.toProto }, state, d, none⟩

/-- The state `Finalize` works with: the reward is paid, and the root taken. -/
def rewarded (chain : ChainReader) (header : Header) (state : σ) : Hash × σ :=
  StateDB.intermediateRoot (accumulateRewards chain.config state header)
    (isForked chain.config.eip158Block header.number)

/-- `Finalize`, up to the block that `NewBlock` makes of the header. A missing
parent or genesis header is dereferenced. -/
def finalize [Rand] (chain : ChainReader) (timeOfFirstBlock : Int) (header : Header) (state : σ)
    (d : DposContext) : Finalized σ :=
  let (root, state) := rewarded chain header state
  let header := { header with root := root }
  let timeOfFirstBlock := firstBlockTime chain timeOfFirstBlock
  match chain.getHeaderByNumber 0, chain.getHeaderByHash header.parentHash with
  | some genesis, some parent =>
    .of timeOfFirstBlock header state
      (electAndCount (StateDB.getBalance state) timeOfFirstBlock genesis parent header d)
  | _, _ => ⟨timeOfFirstBlock, header, state, d, some .panicked⟩

end

end Bgmchain.Dpos
