import Bgmchain.Core.BlockChain
import Bgmchain.Core.Types.DeriveSha

/-! # The download queue

`bgm/downloader/queue.go`: bodies and receipts that a peer delivers are matched with
the headers they were requested for. A delivery is taken item by item until one does
not fit, and the headers that are left go back to the queue. The lists of what a peer
lacks, the priorities of the task queue, timers and signals are left out. -/
namespace Bgmchain.Downloader
open Common Core

structure FetchResult where
  pending : Int
  header : Header
  uncles : List Header
  transactions : List Transaction
  receipts : List Receipt
deriving DecidableEq

inductive QueueError where
  | noFetchesPending
  | invalidChain
  | invalidBody
  | invalidReceipt
  | partialFailure (failure : QueueError)
  | staleDelivery
  | panicked
deriving DecidableEq

def QueueError.message : QueueError → String
  | .noFetchesPending => "no fetches pending"
  | .invalidChain => "retrieved hash chain is invalid"
  | .invalidBody => "retrieved block body is invalid"
  | .invalidReceipt => "retrieved receipt is invalid"
  | .partialFailure failure => "partial failure: " ++ failure.message
  | .staleDelivery => "stale delivery"
  | .panicked => ""

/-- The pools for one kind of data. `pendPool` has the headers of the request that a
peer is to answer. -/
structure Tasks where
  taskPool : Hash → Option Header
  taskQueue : List Header
  pendPool : String → Option (List Header)
  donePool : Hash → Bool

structure Queue where
  blocks : Tasks
  receipts : Tasks
  resultCache : List (Option FetchResult)
  resultOffset : Nat

/-- What the loop of `deliver` keeps; an item is accepted in each round that goes on. -/
structure Assembly where
  tasks : Tasks
  resultCache : List (Option FetchResult)
  accepted : Nat
  failure : Option QueueError

/-- The place of a header in the result cache, if there is something there. -/
def findResult (resultOffset : Nat) (cache : List (Option FetchResult)) (header : Header) :
    Option (Nat × FetchResult) :=
  let index := int64 (int64 header.number - int64 resultOffset)
  if index < 0 then none else cache[index.toNat]?.join.map (index.toNat, ·)

section
variable [Crypto]

/-- The loop of `deliver` over the headers of the request. -/
def assemble (resultOffset results : Nat) (reconstruct : Header → Nat → FetchResult → Except QueueError FetchResult) :
    List Header → Assembly → Assembly
  | [], a => a
  | header :: rest, a =>
    if results ≤ a.accepted then a
    else
      match findResult resultOffset a.resultCache header with
      | none => { a with failure := some .invalidChain }
      | some (index, result) =>
        match reconstruct header a.accepted result with
        | .error e => { a with failure := some e }
        | .ok result' =>
          assemble resultOffset results reconstruct rest
            { tasks := { a.tasks with
                donePool := Function.update a.tasks.donePool header.hash true
                taskPool := Function.update a.tasks.taskPool header.hash none }
              resultCache := a.resultCache.set index (some { result' with pending := result'.pending - 1 })
              accepted := a.accepted + 1
              failure := none }

/-- The error that `deliver` returns. -/
def deliveryError (accepted : Nat) : Option QueueError → Option QueueError
  | none => none
  | some .panicked => some .panicked
  | some .invalidChain => some .invalidChain
  | some failure => some (if accepted > 0 then .partialFailure failure else .staleDelivery)

/-- `deliver`: the pools and the cache after it, the number of items that were
accepted and the error. -/
def deliver (tasks : Tasks) (resultCache : List (Option FetchResult)) (resultOffset : Nat) (id : String)
    (results : Nat) (reconstruct : Header → Nat → FetchResult → Except QueueError FetchResult) :
    (Tasks × List (Option FetchResult)) × Nat × Option QueueError :=
  match tasks.pendPool id with
  | none => ((tasks, resultCache), 0, some .noFetchesPending)
  | some headers =>
    let start : Assembly :=
      ⟨{ tasks with pendPool := Function.update tasks.pendPool id none }, resultCache, 0, none⟩
    let a := assemble resultOffset results reconstruct headers start
    (({ a.tasks with taskQueue := a.tasks.taskQueue ++ headers.drop a.accepted }, a.resultCache),
      a.accepted, deliveryError a.accepted a.failure)

/-- What `DeliverBodies` does with one body. -/
def reconstructBody (txLists : List (List Transaction)) (uncleLists : List (List Header)) (header : Header)
    (index : Nat) (result : FetchResult) : Except QueueError FetchResult :=
  match txLists[index]?, uncleLists[index]? with
  | some txs, some uncles =>
    if deriveSha (transactionRlps txs) ≠ header.txHash ∨ BlockChain.calcUncleHash uncles ≠ header.uncleHash then
      .error .invalidBody
    else .ok { result with transactions := txs, uncles := uncles }
  | _, _ => .error .panicked

/-- `DeliverBodies` -/
def Queue.deliverBodies (q : Queue) (id : String) (txLists : List (List Transaction))
    (uncleLists : List (List Header)) : Queue × Nat × Option QueueError :=
  let r := deliver q.blocks q.resultCache q.resultOffset id txLists.length (reconstructBody txLists uncleLists)
  ({ q with blocks := r.1.1, resultCache := r.1.2 }, r.2)

/-- What `DeliverReceipts` does with the receipts of one block. -/
def reconstructReceipts (receiptList : List (List Receipt)) (header : Header) (index : Nat)
    (result : FetchResult) : Except QueueError FetchResult :=
  match receiptList[index]? with
  | none => .error .panicked
  | some receipts =>
    match receiptRlps receipts with
    | none => .error .panicked
    | some rlps =>
      if deriveSha rlps ≠ header.receiptHash then .error .invalidReceipt
      else .ok { result with receipts := receipts }

/-- `DeliverReceipts` -/
def Queue.deliverReceipts (q : Queue) (id : String) (receiptList : List (List Receipt)) :
    Queue × Nat × Option QueueError :=
  let r := deliver q.receipts q.resultCache q.resultOffset id receiptList.length (reconstructReceipts receiptList)
  ({ q with receipts := r.1.1, resultCache := r.1.2 }, r.2)

/-! ## What is accepted -/

/-- Every item that was accepted passed its check. -/
theorem assemble_accepted {resultOffset results : Nat}
    {reconstruct : Header → Nat → FetchResult → Except QueueError FetchResult} (headers : List Header)
    (a : Assembly) {k : Nat} (hle : a.accepted ≤ k)
    (hlt : k < (assemble resultOffset results reconstruct headers a).accepted) :
    ∃ header result result', headers[k - a.accepted]? = some header ∧
      reconstruct header k result = .ok result' := by
  induction headers generalizing a with
  | nil =>
    rw [assemble] at hlt
    omega
  | cons header rest ih =>
    rw [assemble] at hlt
    split at hlt
    · omega
    · cases hfind : findResult resultOffset a.resultCache header with
      | none =>
        simp only [hfind] at hlt
        omega
      | some found =>
        obtain ⟨index, result⟩ := found
        cases hok : reconstruct header a.accepted result with
        | error e =>
          simp only [hfind, hok] at hlt
          omega
        | ok result' =>
          simp only [hfind, hok] at hlt
          rcases Nat.eq_or_lt_of_le hle with heq | hless
          · rw [← heq, Nat.sub_self]
            exact ⟨header, result, result', rfl, hok⟩
          · obtain ⟨h, r, r', hget, hr⟩ := ih _ (by exact hless) hlt
            refine ⟨h, r, r', ?_, hr⟩
            rw [show k - a.accepted = k - (a.accepted + 1) + 1 by omega]
            exact hget

theorem deliver_accepted {tasks : Tasks} {resultCache : List (Option FetchResult)} {resultOffset : Nat}
    {id : String} {results : Nat} {reconstruct : Header → Nat → FetchResult → Except QueueError FetchResult}
    {headers : List Header} (hreq : tasks.pendPool id = some headers) {i : Nat}
    (hi : i < (deliver tasks resultCache resultOffset id results reconstruct).2.1) :
    ∃ header result result', headers[i]? = some header ∧ reconstruct header i result = .ok result' := by
  unfold deliver at hi
  rw [hreq] at hi
  exact assemble_accepted headers _ (Nat.zero_le i) hi

/-- The queue takes a body for a header in some delivery. -/
def Queue.AcceptsBody (q : Queue) (header : Header) (txs : List Transaction) (uncles : List Header) : Prop :=
  ∃ id txLists uncleLists headers i, q.blocks.pendPool id = some headers ∧ headers[i]? = some header ∧
    txLists[i]? = some txs ∧ uncleLists[i]? = some uncles ∧ i < (q.deliverBodies id txLists uncleLists).2.1

/-- The queue takes receipts for a header in some delivery. -/
def Queue.AcceptsReceipts (q : Queue) (header : Header) (receipts : List Receipt) : Prop :=
  ∃ id receiptList headers i, q.receipts.pendPool id = some headers ∧ headers[i]? = some header ∧
    receiptList[i]? = some receipts ∧ i < (q.deliverReceipts id receiptList).2.1

theorem Queue.AcceptsBody.roots {q : Queue} {header : Header} {txs : List Transaction} {uncles : List Header}
    (h : q.AcceptsBody header txs uncles) :
    deriveSha (transactionRlps txs) = header.txHash ∧ BlockChain.calcUncleHash uncles = header.uncleHash := by
  obtain ⟨id, txLists, uncleLists, headers, i, hreq, hheader, htxs, huncles, hi⟩ := h
  obtain ⟨header', result, result', hheader', hok⟩ := deliver_accepted hreq hi
  rw [hheader] at hheader'
  cases hheader'
  simp only [reconstructBody, htxs, huncles] at hok
  split at hok
  · cases hok
  next hroots =>
    exact not_or.mp hroots |>.imp not_not.mp not_not.mp

theorem Queue.AcceptsReceipts.root {q : Queue} {header : Header} {receipts : List Receipt}
    (h : q.AcceptsReceipts header receipts) :
    ∃ rlps, receiptRlps receipts = some rlps ∧ deriveSha rlps = header.receiptHash := by
  obtain ⟨id, receiptList, headers, i, hreq, hheader, hreceipts, hi⟩ := h
  obtain ⟨header', result, result', hheader', hok⟩ := deliver_accepted hreq hi
  rw [hheader] at hheader'
  cases hheader'
  simp only [reconstructReceipts, hreceipts] at hok
  cases hrlps : receiptRlps receipts with
  | none => simp [hrlps] at hok
  | some rlps =>
    simp only [hrlps] at hok
    split at hok
    · cases hok
    next hroot =>
      exact ⟨rlps, rfl, not_not.mp hroot⟩

end

end Bgmchain.Downloader
