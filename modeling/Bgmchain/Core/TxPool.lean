import Bgmchain.Core.Sample
import Bgmchain.Core.Types.Validate
import Bgmchain.Lib.Table

/-! # The transaction pool

`core/tx_pool.go` and `core/tx_list.go`: a transaction is checked and goes to the pending list or
the queue of its sender. A full pool first drops its cheapest transactions. -/
namespace Bgmchain.Core
open Common Lib Function Table
open Dpos (ChainConfig)

/-! ## Lists by nonce -/

/-- `txList`, without the caps that spare `Filter` some work. -/
structure TxList where
  strict : Bool
  txs : List TxObject

/-- `Get` -/
def TxList.get (l : TxList) (nonce : UInt64) : Option TxObject := find (·.accountNonce) l.txs nonce

/-- `Overlaps` -/
def TxList.overlaps (l : TxList) (tx : TxObject) : Bool := (l.get tx.accountNonce).isSome

/-- `Add`: the list and what was replaced, unless the price is too low for that. -/
def TxList.add (l : TxList) (tx : TxObject) (priceBump : UInt64) : Option (TxList × Option TxObject) :=
  let old := l.get tx.accountNonce
  if old.any fun old => tx.price ≤ old.price ∨ tx.price < old.price * (100 + priceBump).toInt64.toInt / 100 then none
  else some ({ l with txs := tx :: erase (·.accountNonce) l.txs tx.accountNonce }, old)

/-- `Remove`, if there is a transaction of that nonce: the list and what is no longer executable. -/
def TxList.remove (l : TxList) (tx : TxObject) : Option (TxList × List TxObject) :=
  if l.overlaps tx then
    let txs := erase (·.accountNonce) l.txs tx.accountNonce
    let (invalids, kept) := txs.partition fun other => l.strict ∧ tx.accountNonce < other.accountNonce
    some ({ l with txs := kept }, invalids)
  else none

/-! ## The pool -/

/-- `txPricedList`: the price heap in the order that its entries are popped in. -/
structure Priced where
  items : List TxObject
  stales : Int

/-- `TxPool`, with what it reads of its configuration and its states. A missing heartbeat is the
zero time, from which times are counted in nanoseconds. -/
structure TxPool where
  globalSlots : UInt64
  globalQueue : UInt64
  priceBump : UInt64
  lifetime : Int64
  gasPrice : Int
  signer : Signer
  homestead : Bool
  currentMaxGas : Int
  nonce : Address → UInt64
  balance : Address → Int
  pendingNonce : Address → UInt64
  locals : List Address
  pending : Address → Option TxList
  queue : Address → Option TxList
  beats : Address → Option Int
  all : List TxObject
  priced : Priced

/-- `IntrinsicGas` -/
def intrinsicGas (data : Bytes) (contractCreation homestead : Bool) : Int :=
  let nz := data.countP (· ≠ 0)
  (if contractCreation ∧ homestead then 53000 else 21000) + nz * 68 + (data.length - nz) * 4

section
variable [Crypto]

/-- `types.Sender`, or the zero address on an error that is dropped -/
def TxPool.sender (pool : TxPool) (tx : TxObject) : Address := (pool.signer.sender tx.toTransaction).toOption.getD (.zero 20)

/-- `Get` -/
def TxPool.get (pool : TxPool) (hash : Hash) : Option TxObject := find (·.hash) pool.all hash

/-- `validateTx` -/
def TxPool.validateTx (pool : TxPool) (tx : TxObject) (isLocal : Bool) : Except String Unit :=
  if 32 * 1024 < (tx.encode.getD []).length then .error "oversized data"
  else if tx.amount < 0 then .error "negative value"
  else if pool.currentMaxGas < tx.gasLimit then .error "exceeds block gas limit"
  else match pool.signer.sender tx.toTransaction with
    | .error _ => .error "invalid sender"
    | .ok sender =>
      if ¬ (isLocal ∨ sender ∈ pool.locals) ∧ tx.price < pool.gasPrice then .error "transaction underpriced"
      else if tx.accountNonce < pool.nonce sender then .error "nonce too low"
      else if pool.balance sender < tx.price * tx.gasLimit + tx.amount then
        .error "insufficient funds for gas * price + value"
      else if tx.gasLimit < intrinsicGas tx.payload (tx.recipient = none) pool.homestead then
        .error "intrinsic gas too low"
      else .ok ()

/-- `containsTx` of the local accounts -/
def TxPool.containsTx (pool : TxPool) (tx : TxObject) : Bool :=
  match pool.signer.sender tx.toTransaction with
  | .ok sender => sender ∈ pool.locals
  | .error _ => false

/-- `heap.Push` -/
def Priced.put (priced : Priced) (tx : TxObject) : Priced :=
  { priced with items := priced.items.orderedInsert (·.price ≤ ·.price) tx }

/-- A transaction leaves `all`: `Removed` makes the heap anew when a quarter of it is stale. -/
def TxPool.forget (pool : TxPool) (hash : Hash) : TxPool :=
  let all := erase (·.hash) pool.all hash
  { pool with
    all
    priced := if pool.priced.stales + 1 ≤ pool.priced.items.length / 4 then
        { pool.priced with stales := pool.priced.stales + 1 }
      else ⟨all.insertionSort (·.price ≤ ·.price), 0⟩ }

/-- A transaction enters `all` in the place of another. -/
def TxPool.replace (pool : TxPool) (old : Option TxObject) (tx : TxObject) : TxPool :=
  let pool := old.elim pool fun old => pool.forget old.hash
  { pool with all := tx :: erase (·.hash) pool.all tx.hash, priced := pool.priced.put tx }

/-- `enqueueTx` -/
def TxPool.enqueueTx (pool : TxPool) (tx : TxObject) : Except String Bool × TxPool :=
  let sender := pool.sender tx
  let list := (pool.queue sender).getD ⟨false, []⟩
  match list.add tx pool.priceBump with
  | none => (.error "replacement transaction underpriced", { pool with queue := update pool.queue sender (some list) })
  | some (list, old) =>
    (.ok old.isSome, TxPool.replace { pool with queue := update pool.queue sender (some list) } old tx)

/-- `removeTx` -/
def TxPool.removeTx (pool : TxPool) (hash : Hash) : TxPool :=
  match pool.get hash with
  | none => pool
  | some tx =>
    let addr := pool.sender tx
    let pool := pool.forget hash
    match (pool.pending addr).bind (·.remove tx) with
    | some (list, invalids) =>
      -- what is no longer executable is lost with the last pending transaction
      let pool := if list.txs.isEmpty then
          { pool with pending := update pool.pending addr none, beats := update pool.beats addr none }
        else invalids.foldl (fun pool tx => (pool.enqueueTx tx).2) { pool with pending := update pool.pending addr (some list) }
      if tx.accountNonce < pool.pendingNonce addr then
        { pool with pendingNonce := update pool.pendingNonce addr tx.accountNonce }
      else pool
    | none =>
      match pool.queue addr with
      | none => pool
      | some future =>
        let list := (future.remove tx).elim future Prod.fst
        { pool with queue := update pool.queue addr (if list.txs.isEmpty then none else some list) }

/-- `Underpriced`, and the pool with the stale entries popped from the top of the heap -/
def TxPool.underpriced (pool : TxPool) (tx : TxObject) : Bool × TxPool :=
  if pool.containsTx tx then (false, pool)
  else
    let stale := pool.priced.items.takeWhile fun tx => (pool.get tx.hash).isNone
    let items := pool.priced.items.drop stale.length
    (items.head?.any fun cheapest => tx.price ≤ cheapest.price,
      { pool with priced := ⟨items, pool.priced.stales - stale.length⟩ })

/-- `Discard`: what is dropped, the heap with the local transactions pushed back, and how many stale entries
were popped. -/
def TxPool.discard (pool : TxPool) : List TxObject → Nat → List TxObject × List TxObject × Nat
  | tx :: items, count + 1 =>
    if (pool.get tx.hash).isNone then
      let (drop, items, stales) := pool.discard items (count + 1)
      (drop, items, stales + 1)
    else if pool.containsTx tx then
      let (drop, items, stales) := pool.discard items (count + 1)
      (drop, items.orderedInsert (·.price ≤ ·.price) tx, stales)
    else
      let (drop, items, stales) := pool.discard items count
      (tx :: drop, items, stales)
  | items, _ => ([], items, 0)

/-- The pool holds as many transactions as it may. -/
def TxPool.full (pool : TxPool) : Bool := pool.globalSlots + pool.globalQueue ≤ .ofNat pool.all.length

/-- A full pool drops its cheapest transactions. -/
def TxPool.makeRoom (pool : TxPool) : TxPool :=
  let count := pool.all.length - (pool.globalSlots + pool.globalQueue - 1).toInt64.toInt
  let (drop, items, stales) := pool.discard pool.priced.items count.toNat
  drop.foldl (fun pool tx => pool.removeTx tx.hash) { pool with priced := ⟨items, pool.priced.stales - stales⟩ }

/-- What `add` does once there is room. -/
def TxPool.insert (pool : TxPool) (tx : TxObject) (isLocal : Bool) : Except String Bool × TxPool :=
  let sender := pool.sender tx
  match (pool.pending sender).filter (·.overlaps tx) with
  | some list =>
    match list.add tx pool.priceBump with
    | none => (.error "replacement transaction underpriced", pool)
    | some (list, old) =>
      (.ok old.isSome, TxPool.replace { pool with pending := update pool.pending sender (some list) } old tx)
  | none =>
    match pool.enqueueTx tx with
    | (.error e, pool) => (.error e, pool)
    | (.ok replaced, pool) => (.ok replaced, if isLocal then { pool with locals := sender :: pool.locals } else pool)

/-- `add` -/
def TxPool.add (pool : TxPool) (tx : TxObject) (isLocal : Bool) : Except String Bool × TxPool :=
  if (pool.get tx.hash).isSome then
    (.error ("known transaction: " ++ .ofList ((encodeHex tx.hash.bytes).map fun c => Char.ofNat c.toNat)), pool)
  else match pool.validateTx tx isLocal with
    | .error e => (.error e, pool)
    | .ok _ =>
      if pool.full then
        match pool.underpriced tx with
        | (true, pool) => (.error "transaction underpriced", pool)
        | (false, pool) => pool.makeRoom.insert tx isLocal
      else pool.insert tx isLocal

end

open Dpos.Sample Core.Sample

/-- A pool for two transactions, with nothing in it. -/
def emptyPool : TxPool where
  globalSlots := 1
  globalQueue := 1
  priceBump := 10
  lifetime := 10800000000000
  gasPrice := 1
  signer := .homestead
  homestead := true
  currentMaxGas := 1000000
  nonce _ := 0
  balance _ := 10 ^ 9
  pendingNonce _ := 0
  locals := []
  pending _ := none
  queue _ := none
  beats _ := none
  all := []
  priced := ⟨[], 0⟩

/-- A transfer of nothing that waits for another, from the account whose signature ends in `s`. -/
def waiting (price gasLimit s : Int) : TxObject :=
  .newTransaction .binary 1 (address 1) none gasLimit price none 27 (2 ^ 250) s

/-- The pool with one transaction in a queue. -/
def queuedPool : TxPool := (emptyPool.add (waiting 2 21000 1) false).2

/-! ## A rejected transaction -/

variable {pool : TxPool} {tx : TxObject} {isLocal : Bool} {e : String}

/-- What the pool holds. -/
def TxPool.contents [Crypto] (pool : TxPool) : (Address → Option TxList) × (Address → Option TxList) × (Hash → Option TxObject) :=
  (pool.pending, pool.queue, pool.get)

/-- A new list takes every transaction, so the queue is what it was when one is refused. -/
theorem TxPool.enqueueTx_cases [Crypto] (pool : TxPool) (tx : TxObject) :
    pool.enqueueTx tx = (.error "replacement transaction underpriced", pool) ∨
      ∃ list old, ((pool.queue (pool.sender tx)).getD ⟨false, []⟩).add tx pool.priceBump = some (list, old) ∧
        pool.enqueueTx tx = (.ok old.isSome,
          TxPool.replace { pool with queue := update pool.queue (pool.sender tx) (some list) } old tx) := by
  cases hadd : ((pool.queue (pool.sender tx)).getD ⟨false, []⟩).add tx pool.priceBump with
  | some r => exact .inr ⟨r.1, r.2, rfl, by simp [TxPool.enqueueTx, hadd]⟩
  | none =>
    cases hqueue : pool.queue (pool.sender tx) with
    | none => simp [hqueue, TxList.add, TxList.get, find] at hadd
    | some list =>
      have hsame : update pool.queue (pool.sender tx) (some list) = pool.queue := by
        rw [← hqueue, update_eq_self]
      rw [hqueue, Option.getD_some] at hadd
      exact .inl (by simp [TxPool.enqueueTx, hqueue, hadd, hsame])

theorem TxPool.contents_insert [Crypto] (h : (pool.insert tx isLocal).1 = .error e) :
    (pool.insert tx isLocal).2.contents = pool.contents := by
  unfold TxPool.insert at h ⊢
  cases hlist : (pool.pending (pool.sender tx)).filter (·.overlaps tx) with
  | some list =>
    cases hadd : list.add tx pool.priceBump with
    | some r => simp [hlist, hadd] at h
    | none => simp [hlist, hadd]
  | none =>
    rcases pool.enqueueTx_cases tx with henq | ⟨_, _, _, henq⟩
    · simp [hlist, henq]
    · simp [hlist, henq] at h

theorem TxPool.contents_underpriced [Crypto] (pool : TxPool) (tx : TxObject) : (pool.underpriced tx).2.contents = pool.contents := by
  unfold TxPool.underpriced
  split <;> rfl

inductive TxStatus where
  | unknown
  | queued
  | pending
deriving DecidableEq

/-- A turn of `Status`. The pending list of the sender is dereferenced, and none is a panic. -/
def TxPool.statusOf [Crypto] (pool : TxPool) (hash : Hash) : Option TxStatus :=
  match pool.get hash with
  | none => some .unknown
  | some tx => (pool.pending (pool.sender tx)).map fun list => if list.overlaps tx then .pending else .queued

/-- `Status` -/
def TxPool.status [Crypto] (pool : TxPool) (hashes : List Hash) : Option (List TxStatus) := hashes.mapM pool.statusOf

/-- The transaction of a hash is in the list of its sender. -/
def TxPool.Lists [Crypto] (pool : TxPool) (lists : Address → Option TxList) (hash : Hash) : Prop :=
  ∃ tx list, tx.hash = hash ∧ lists (pool.sender tx) = some list ∧ tx ∈ list.txs

/-- A status says where the transaction is. -/
def TxPool.Tells [Crypto] (pool : TxPool) (hash : Hash) (status : TxStatus) : Prop :=
  (status = .pending ↔ pool.Lists pool.pending hash) ∧ (status = .queued ↔ pool.Lists pool.queue hash)

/-- A loop over a list gives right results exactly when every turn does. -/
theorem mapM_forall₂_iff {α β : Type} {f : α → Option β} {R : α → β → Prop} :
    (∀ l : List α, ∃ l', l.mapM f = some l' ∧ List.Forall₂ R l l') ↔ ∀ a, ∃ b, f a = some b ∧ R a b := by
  constructor
  · intro h a
    obtain ⟨l', hl', hR⟩ := h [a]
    cases hf : f a with
    | none => simp [hf] at hl'
    | some b =>
      obtain rfl : [b] = l' := by simpa [hf] using hl'
      exact ⟨b, rfl, (List.forall₂_cons.mp hR).1⟩
  · intro h l
    induction l with
    | nil => exact ⟨[], rfl, .nil⟩
    | cons a l ih =>
      obtain ⟨b, hf, hR⟩ := h a
      obtain ⟨l', hl', hRs⟩ := ih
      exact ⟨b :: l', by simp [hf, hl'], .cons hR hRs⟩

/-- `time.Since`, which saturates -/
def since (now t : Int) : Int := max (-2 ^ 63) (min (now - t) (2 ^ 63 - 1))

/-- The queue of an account has lived too long. -/
def TxPool.expired (pool : TxPool) (now : Int) (addr : Address) : Bool :=
  addr ∉ pool.locals ∧ pool.lifetime.toInt < since now ((pool.beats addr).getD 0)

/-- The eviction loop over the accounts that have a queue -/
def TxPool.evict [Crypto] (pool : TxPool) (now : Int) (addrs : List Address) : TxPool :=
  addrs.foldl (fun pool addr => if pool.expired now addr then
    ((pool.queue addr).elim [] TxList.txs).foldl (fun pool tx => pool.removeTx tx.hash) pool else pool) pool

/-- The heart of an account that is not local has beaten since the oldest of its queued transactions entered, and none
of them is evicted before its time. -/
def TxPool.Beating [Crypto] (pool : TxPool) (entered : Hash → Int) (addr : Address) : Prop :=
  addr ∉ pool.locals → ∀ list, pool.queue addr = some list →
    (∃ beat, pool.beats addr = some beat ∧ ∃ tx ∈ list.txs, entered tx.hash ≤ beat) ∧
    ∀ now, pool.expired now addr → ∀ tx ∈ list.txs, pool.lifetime.toInt < now - entered tx.hash

/-- The heart has beaten since all of them entered, unless nothing is ever evicted. -/
theorem TxPool.beating_iff [Crypto] {entered : Hash → Int} {addr : Address} {list : TxList} (haddr : addr ∉ pool.locals)
    (hqueue : pool.queue addr = some list) :
    pool.Beating entered addr ↔ ∃ beat, pool.beats addr = some beat ∧ (∃ tx ∈ list.txs, entered tx.hash ≤ beat) ∧
      (pool.lifetime.toInt = 2 ^ 63 - 1 ∨ ∀ tx ∈ list.txs, entered tx.hash ≤ beat) := by
  have hlo := pool.lifetime.le_toInt
  have hhi := pool.lifetime.toInt_lt
  constructor
  · intro h
    obtain ⟨⟨beat, hbeat, hold⟩, htime⟩ := h haddr list hqueue
    refine ⟨beat, hbeat, hold, or_iff_not_imp_left.mpr fun hmax tx htx => ?_⟩
    -- the first moment at which the queue is evicted
    have := htime (beat + pool.lifetime.toInt + 1) (by simp [TxPool.expired, haddr, hbeat, since]; omega) tx htx
    omega
  · rintro ⟨beat, hbeat, hold, hall⟩ - list' hlist'
    obtain rfl : list = list' := Option.some.inj (hqueue.symm.trans hlist')
    refine ⟨⟨beat, hbeat, hold⟩, fun now hexp tx htx => ?_⟩
    simp only [TxPool.expired, haddr, hbeat, since, not_false_eq_true, true_and, Option.getD_some, decide_eq_true_eq] at hexp
    rcases hall with hmax | hall
    · omega
    · have := hall tx htx
      omega

theorem TxList.mem_add {l l' : TxList} {old : Option TxObject} {priceBump : UInt64} (h : l.add tx priceBump = some (l', old))
    {other : TxObject} : other ∈ l'.txs ↔ other = tx ∨ other ∈ l.txs ∧ other.accountNonce ≠ tx.accountNonce := by
  simp only [TxList.add] at h
  split at h
  · cases h
  · cases h
    simp [mem_erase]

/-- A call that builds a transaction, without the fields that admission and execution treat alike. -/
inductive Build where
  | transaction (txType : TxType) (to_ : Address)
  | contractCreation

/-- The transaction, with its other fields and a signature -/
def Build.build (nonce : UInt64) (amount gasLimit gasPrice : Option Int) (data : Option Bytes) (v r s : Int) : Build → TxObject
  | .transaction txType to_ => .newTransaction txType nonce to_ amount gasLimit gasPrice data v r s
  | .contractCreation => .newContractCreation nonce amount gasLimit gasPrice data v r s

/-- Execution knows the type, and a candidate that logs in or out names some address. -/
def Build.Executable : Build → Prop
  | .transaction (.unknown _) _ => False
  | .transaction .loginCandidate to_ => to_ ≠ .zero 20
  | .transaction .logoutCandidate to_ => to_ ≠ .zero 20
  | _ => True

theorem dropError_ne_invalidType (r : Option DposError × DposContext) : dropError r ≠ .error .invalidType := by
  obtain ⟨_ | e, d⟩ := r
  · nofun
  · cases e <;> nofun

theorem applyDposMessage_eq_invalidType {msg : Message} {d : DposContext} (h : msg.to_ ≠ none) :
    applyDposMessage msg d = .error .invalidType ↔ msg.txType = .binary ∨ ∃ code, msg.txType = .unknown code := by
  obtain ⟨sender, _ | to_, txType⟩ := msg
  · exact absurd rfl h
  · cases txType <;> simp [applyDposMessage, dropError_ne_invalidType]

/-- A message that the machine can apply has a type that is refused. -/
theorem applyTransaction_eq_invalidType {σ : Type} [Execution σ] {config : ChainConfig} {header : Header} {t : Execution.Tx σ}
    {p : Progress σ} {msg : Message} {applied : Applied σ} (hmsg : Execution.asMessage config header.number t = some msg)
    (happlied : Execution.applyMessage config header p.state t p.gasPool = some applied) :
    applyTransaction config header t p = .error .invalidType ↔
      msg.txType ≠ .binary ∧ (msg.to_ = none ∨ ∃ code, msg.txType = .unknown code) := by
  have hdpos := @applyDposMessage_eq_invalidType msg p.dposContext
  by_cases hbinary : msg.txType = .binary
  · simp [applyTransaction, hmsg, happlied, hbinary, pure, Except.pure, bind, Except.bind]
  by_cases hto : msg.to_ = none
  · simp [applyTransaction, hmsg, hbinary, hto, throw, throwThe, MonadExceptOf.throw, bind, Except.bind]
  cases hd : applyDposMessage msg p.dposContext <;>
    simp_all [applyTransaction, pure, Except.pure, bind, Except.bind]

/-- **A transaction that was built and admitted has a type that execution refuses** exactly when the type is unknown or a
candidate logs in or out without an address. -/
theorem executable_iff {σ : Type} [Crypto] [Execution σ] (pool : TxPool) (isLocal : Bool) (call : Build) {nonce : UInt64}
    {amount gasLimit gasPrice : Option Int} {data : Option Bytes} {v r s : Int} {config : ChainConfig}
    {header : Header} {t : Execution.Tx σ} {p : Progress σ} {sender : Address} {applied : Applied σ}
    (hbuild : call.build nonce amount gasLimit gasPrice data v r s = tx)
    (hvalid : tx.validate = .ok ()) (_ : pool.validateTx tx isLocal = .ok ())
    (hmsg : Execution.asMessage config header.number t = some ⟨sender, tx.recipient, tx.txType⟩)
    (happlied : Execution.applyMessage config header p.state t p.gasPool = some applied) :
    applyTransaction config header t p ≠ .error .invalidType ↔ call.Executable := by
  have hneeds := TxObject.validate_eq_ok.mp hvalid
  rw [ne_eq, applyTransaction_eq_invalidType hmsg happlied]
  subst hbuild
  cases call with
  | contractCreation => simp [Build.build, TxObject.newContractCreation, TxObject.newTransaction', Build.Executable]
  | transaction txType to_ =>
    simp only [Build.build, TxObject.newTransaction, TxObject.newTransaction'] at hneeds ⊢
    by_cases hto : to_ = .zero 20 <;> cases txType <;>
      simp_all [Build.Executable, TxType.needsRecipient, TxType.code]

/-- A transaction of account 1 that is executed next. -/
def signed (txType : TxType) (to_ : Address) : TxObject :=
  (Build.transaction txType to_).build 0 none (some 53000) (some 1) none 27 (2 ^ 250) 1

def execute (tx : TxObject) : Except Error (Progress (Address → Int)) :=
  applyTransaction (σ := Address → Int) plainChain.hc.config plainGenesis (⟨address 1, tx.recipient, tx.txType⟩ : Message)
    ⟨fun _ => 0, .new nodes, 0, 0, []⟩

theorem executable_delegate : execute (signed .delegate (address 1)) ≠ .error .invalidType :=
  (executable_iff emptyPool false (.transaction .delegate (address 1)) rfl rfl rfl rfl rfl).mpr trivial

/-- **A login without an address and a transaction of an unknown type are admitted, and execution refuses them.** -/
theorem admitted_not_executable : [signed .loginCandidate (.zero 20), signed (.unknown 5) (address 1)].Forall fun tx =>
    tx.validate = .ok () ∧ emptyPool.validateTx tx false = .ok () ∧ execute tx = .error .invalidType :=
  ⟨⟨rfl, by decide +kernel, rfl⟩, ⟨rfl, by decide +kernel, rfl⟩⟩

end Bgmchain.Core
