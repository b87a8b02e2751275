import Bgmchain.Core.BlockChain
import Bgmchain.Core.Types.DeriveSha

/-! # Answers to the light client's requests

`les/odr_requests.go`: a body or a list of receipts from a server is checked against
the roots in a header that the light client has. -/
namespace Bgmchain.Les
open Common Core Lib

/-- `types.Body` -/
structure Body where
  transactions : List Transaction
  uncles : List Header
deriving DecidableEq

/-- `rlp.EncodeToBytes` of a body. -/
def Body.encode (b : Body) : Option Bytes := do
  let transactions ← b.transactions.mapM Transaction.encode
  let uncles ← b.uncles.mapM Header.encode
  return Rlp.encodeList (Rlp.encodeList transactions.flatten ++ Rlp.encodeList uncles.flatten)

/-- A message by its type, with the object that comes with the type. -/
inductive Msg where
  | blockBodies (bodies : List Body)
  | receipts (receipts : List (List Receipt))
  | other
deriving DecidableEq

inductive OdrError where
  | invalidMessageType
  | invalidEntryCount
  | headerUnavailable
  | txHashMismatch
  | uncleHashMismatch
  | receiptHashMismatch
  | encoding
  | panicked
deriving DecidableEq

def OdrError.message : OdrError → String
  | .invalidMessageType => "invalid message type"
  | .invalidEntryCount => "invalid number of response entries"
  | .headerUnavailable => "header unavailable"
  | .txHashMismatch => "transaction hash mismatch"
  | .uncleHashMismatch => "uncle hash mismatch"
  | .receiptHashMismatch => "receipt hash mismatch"
  | .encoding => "rlp: cannot encode negative *big.Int"
  | .panicked => ""

/-- The headers of the light client's database, by hash and number. -/
abbrev GetHeader := Hash → Nat → Option Header

structure BlockRequest where
  hash : Hash
  number : Nat
  rlp : Bytes
deriving DecidableEq

structure ReceiptsRequest where
  hash : Hash
  number : Nat
  receipts : List Receipt
deriving DecidableEq

section
variable [Crypto]

/-- `BlockRequest.Validate` -/
def BlockRequest.validate (r : BlockRequest) (getHeader : GetHeader) (msg : Msg) : Except OdrError BlockRequest :=
  match msg with
  | .blockBodies [body] =>
    match getHeader r.hash r.number with
    | none => .error .headerUnavailable
    | some header =>
      if header.txHash ≠ deriveSha (transactionRlps body.transactions) then .error .txHashMismatch
      else if header.uncleHash ≠ BlockChain.calcUncleHash body.uncles then .error .uncleHashMismatch
      else
        match body.encode with
        | none => .error .encoding
        | some data => .ok { r with rlp := data }
  | .blockBodies _ => .error .invalidEntryCount
  | _ => .error .invalidMessageType

/-- `ReceiptsRequest.Validate` -/
def ReceiptsRequest.validate (r : ReceiptsRequest) (getHeader : GetHeader) (msg : Msg) :
    Except OdrError ReceiptsRequest :=
  match msg with
  | .receipts [receipts] =>
    match getHeader r.hash r.number with
    | none => .error .headerUnavailable
    | some header =>
      match receiptRlps receipts with
      | none => .error .panicked
      | some rlps =>
        if header.receiptHash ≠ deriveSha rlps then .error .receiptHashMismatch
        else .ok { r with receipts := receipts }
  | .receipts _ => .error .invalidEntryCount
  | _ => .error .invalidMessageType

/-- A body that is accepted has the roots of the header and can be encoded. -/
theorem BlockRequest.validate_ok {r r' : BlockRequest} {getHeader : GetHeader} {msg : Msg}
    (h : r.validate getHeader msg = .ok r') :
    ∃ header body, getHeader r.hash r.number = some header ∧ msg = .blockBodies [body] ∧
      deriveSha (transactionRlps body.transactions) = header.txHash ∧
      BlockChain.calcUncleHash body.uncles = header.uncleHash ∧ body.encode = some r'.rlp := by
  unfold BlockRequest.validate at h
  split at h
  next body =>
    split at h
    · cases h
    next header hheader =>
      split at h
      · cases h
      next htx =>
        split at h
        · cases h
        next huncle =>
          split at h
          · cases h
          next data hdata =>
            cases h
            exact ⟨header, body, hheader, rfl, (not_not.mp htx).symm, (not_not.mp huncle).symm, hdata⟩
  · cases h
  · cases h

/-- Receipts that are accepted have the root of the header. -/
theorem ReceiptsRequest.validate_ok {r r' : ReceiptsRequest} {getHeader : GetHeader} {msg : Msg}
    (h : r.validate getHeader msg = .ok r') :
    ∃ header rlps, getHeader r.hash r.number = some header ∧ msg = .receipts [r'.receipts] ∧
      receiptRlps r'.receipts = some rlps ∧ deriveSha rlps = header.receiptHash := by
  unfold ReceiptsRequest.validate at h
  split at h
  next receipts =>
    split at h
    · cases h
    next header hheader =>
      split at h
      · cases h
      next rlps hrlps =>
        split at h
        · cases h
        next hroot =>
          cases h
          exact ⟨header, rlps, hheader, rfl, hrlps, (not_not.mp hroot).symm⟩
  · cases h
  · cases h

end

end Bgmchain.Les
