import Bgmchain.Core.StateProcessor

/-! # Transactions and their signatures

`core/types/transaction.go` and `core/types/transaction_signing.go`: the fields of
a transaction, the hash that each signer has signed, and the sender that is
recovered from the signature. The caches of hash, size and sender are left out. -/
namespace Bgmchain.Core
open Common Lib Rlp Crypto

/-- The number of a type, as it is encoded. -/
def TxType.code : TxType → UInt8
  | .binary => 0
  | .loginCandidate => 1
  | .logoutCandidate => 2
  | .delegate => 3
  | .unDelegate => 4
  | .unknown code => code

/-- `txdata`. A nil integer is left out: none is ever made or decoded. -/
structure Transaction where
  txType : TxType
  accountNonce : UInt64
  price : Int
  gasLimit : Int
  recipient : Option Address
  amount : Int
  payload : Bytes
  v : Int
  r : Int
  s : Int
deriving DecidableEq

inductive TxError where
  | invalidSig
  | invalidChainId
  | recovery
  | invalidPublicKey
deriving DecidableEq

def TxError.message : TxError → String
  | .invalidSig => "invalid transaction v, r, s values"
  | .invalidChainId => "invalid chain id for signer"
  | .recovery => "recovery failed"
  | .invalidPublicKey => "invalid public key"

/-- A recipient, or the empty string for none. -/
def encodeRecipient : Option Address → Bytes
  | none => encodeString []
  | some a => FixedBytes.encode a

/-- The fields of a transaction in order, each encoded. -/
def Transaction.encode (tx : Transaction) : Option Bytes := do
  let price ← encodeBigInt tx.price
  let gasLimit ← encodeBigInt tx.gasLimit
  let amount ← encodeBigInt tx.amount
  let v ← encodeBigInt tx.v
  let r ← encodeBigInt tx.r
  let s ← encodeBigInt tx.s
  return encodeList ([encodeNat tx.txType.code.toNat, encodeNat tx.accountNonce.toNat, price,
    gasLimit, encodeRecipient tx.recipient, amount, encodeString tx.payload, v, r, s].flatten)

/-- The bytes of a recipient, none for no recipient. -/
def recipientBytes : Option Address → Bytes
  | none => []
  | some a => a.bytes

theorem recipientBytes_inj {a b : Option Address} (h : recipientBytes a = recipientBytes b) : a = b := by
  cases a with
  | none =>
    cases b with
    | none => rfl
    | some b => exact absurd h.symm b.bytes_ne_nil
  | some a =>
    cases b with
    | none => exact absurd h a.bytes_ne_nil
    | some b => exact congrArg some (FixedBytes.ext h)

theorem encodeRecipient_eq (a : Option Address) : encodeRecipient a = encodeString (recipientBytes a) := by
  cases a <;> rfl

/-- The type that a number is decoded to. -/
def TxType.ofCode (code : UInt8) : TxType :=
  if code = 0 then .binary
  else if code = 1 then .loginCandidate
  else if code = 2 then .logoutCandidate
  else if code = 3 then .delegate
  else if code = 4 then .unDelegate
  else .unknown code

/-- The strings of the encoding of a transaction. -/
def Transaction.strings (tx : Transaction) : List Bytes :=
  [minimal tx.txType.code.toNat, minimal tx.accountNonce.toNat, minimal tx.price.toNat,
    minimal tx.gasLimit.toNat, recipientBytes tx.recipient, minimal tx.amount.toNat, tx.payload,
    minimal tx.v.toNat, minimal tx.r.toNat, minimal tx.s.toNat]

theorem Transaction.encode_eq_some {tx : Transaction} {enc : Bytes} (h : tx.encode = some enc) :
    (0 ≤ tx.price ∧ 0 ≤ tx.gasLimit ∧ 0 ≤ tx.amount ∧ 0 ≤ tx.v ∧ 0 ≤ tx.r ∧ 0 ≤ tx.s) ∧
      enc = encodeStrings tx.strings := by
  unfold Transaction.encode at h
  simp only [bind, Option.bind_eq_some_iff, encodeBigInt_eq_some_iff] at h
  obtain ⟨_, ⟨h1, rfl⟩, _, ⟨h2, rfl⟩, _, ⟨h3, rfl⟩, _, ⟨h4, rfl⟩, _, ⟨h5, rfl⟩, _, ⟨h6, rfl⟩, hret⟩ := h
  rw [encodeRecipient_eq] at hret
  cases hret
  exact ⟨⟨h1, h2, h3, h4, h5, h6⟩, rfl⟩

/-- **The encoding of a transaction determines it**, its type by number. -/
theorem Transaction.encode_inj {t t' : Transaction} {enc : Bytes} (h : t.encode = some enc)
    (h' : t'.encode = some enc) (hlen : enc.length < 256 ^ 8) :
    t.txType.code = t'.txType.code ∧ { t with txType := t'.txType } = t' := by
  obtain ⟨⟨h1, h2, h3, h4, h5, h6⟩, rfl⟩ := Transaction.encode_eq_some h
  obtain ⟨⟨h1', h2', h3', h4', h5', h6'⟩, henc⟩ := Transaction.encode_eq_some h'
  have hstrings := encodeStrings_inj hlen henc
  simp only [Transaction.strings, List.cons.injEq, and_true] at hstrings
  obtain ⟨htype, hnonce, hprice, hlimit, hto, hamount, hpayload, hv, hr, hs⟩ := hstrings
  have hnonce : t.accountNonce = t'.accountNonce := UInt64.toNat_inj.mp (minimal_inj hnonce)
  have hto := recipientBytes_inj hto
  have hprice := toNat_minimal_inj h1 h1' hprice
  have hlimit := toNat_minimal_inj h2 h2' hlimit
  have hamount := toNat_minimal_inj h3 h3' hamount
  have hv := toNat_minimal_inj h4 h4' hv
  have hr := toNat_minimal_inj h5 h5' hr
  have hs := toNat_minimal_inj h6 h6' hs
  refine ⟨UInt8.toNat_inj.mp (minimal_inj htype), ?_⟩
  rw [hnonce, hprice, hlimit, hto, hamount, hpayload, hv, hr, hs]

/-- `Signer`: the homestead signer signs what the frontier signer does. -/
inductive Signer where
  | frontier
  | homestead
  | eip155 (chainId : Int)
deriving DecidableEq

/-- The fields that all signers sign. -/
def Transaction.signedFields (tx : Transaction) : Option (List Bytes) := do
  let price ← encodeBigInt tx.price
  let gasLimit ← encodeBigInt tx.gasLimit
  let amount ← encodeBigInt tx.amount
  return [encodeNat tx.accountNonce.toNat, price, gasLimit, encodeRecipient tx.recipient, amount,
    encodeString tx.payload]

/-- What a signer hashes. -/
def Signer.encode (signer : Signer) (tx : Transaction) : Option Bytes := do
  let fields ← tx.signedFields
  match signer with
  | .frontier => return encodeList fields.flatten
  | .homestead => return encodeList fields.flatten
  | .eip155 chainId =>
    let id ← encodeBigInt chainId
    return encodeList (fields ++ [id, encodeNat 0, encodeNat 0]).flatten

/-- `isProtectedV` -/
def isProtectedV (v : Int) : Bool :=
  if v.natAbs < 2 ^ 8 then uint64 v ≠ 27 ∧ uint64 v ≠ 28 else true

/-- `deriveChainId` -/
def deriveChainId (v : Int) : Int :=
  if v.natAbs < 2 ^ 64 then
    if uint64 v = 27 ∨ uint64 v = 28 then 0 else ((uint64 v + 2 ^ 64 - 35) % 2 ^ 64 / 2 : Nat)
  else (v - 35) / 2

def secp256k1N : Int := 0xfffffffffffffffffffffffffffffffebaaedce6af48a03bbfd25e8cd0364141

/-- `ValidateSignatureValues` -/
def validateSignatureValues (v : Nat) (r s : Int) (homestead : Bool) : Bool :=
  if r < 1 ∨ s < 1 then false
  else if homestead ∧ s > secp256k1N / 2 then false
  else r < secp256k1N ∧ s < secp256k1N ∧ (v = 0 ∨ v = 1)

section
variable [Crypto]

/-- `Transaction.Hash` -/
def Transaction.hash (tx : Transaction) : Hash := keccak256 (tx.encode.getD [])

/-- `Hash` of a signer; nothing is written to the hash when the encoder fails. -/
def Signer.hash (signer : Signer) (tx : Transaction) : Hash :=
  keccak256 ((signer.encode tx).getD [])

/-- `recoverPlain` -/
def recoverPlain (sighash : Hash) (r s vb : Int) (homestead : Bool) : Except TxError Address :=
  if 2 ^ 8 ≤ vb.natAbs then .error .invalidSig
  else
    let v := (uint64 vb + 2 ^ 64 - 27) % 2 ^ 8
    if !validateSignatureValues v r s homestead then .error .invalidSig
    else
      let sig := (FixedBytes.ofBytes 32 (minimal r.toNat)).bytes ++
        (FixedBytes.ofBytes 32 (minimal s.toNat)).bytes ++ [UInt8.ofNat v]
      match Crypto.ecrecover sighash sig with
      | none => .error .recovery
      | some pub =>
        if pub.head? ≠ some 4 then .error .invalidPublicKey
        else .ok (bytesToAddress ((keccak256 (pub.drop 1)).bytes.drop 12))

/-- `Sender` of a signer. -/
def Signer.sender (signer : Signer) (tx : Transaction) : Except TxError Address :=
  match signer with
  | .frontier => recoverPlain (Signer.frontier.hash tx) tx.r tx.s tx.v false
  | .homestead => recoverPlain (Signer.homestead.hash tx) tx.r tx.s tx.v true
  | .eip155 chainId =>
    if !isProtectedV tx.v then recoverPlain (Signer.homestead.hash tx) tx.r tx.s tx.v true
    else if deriveChainId tx.v ≠ chainId then .error .invalidChainId
    else recoverPlain (signer.hash tx) tx.r tx.s (tx.v - chainId * 2 - 8) true

/-- `AsMessage`, as far as processing a block looks at the message. -/
def Transaction.asMessage (tx : Transaction) (signer : Signer) : Except TxError Message :=
  match signer.sender tx with
  | .error e => .error e
  | .ok sender => .ok ⟨sender, tx.recipient, tx.txType⟩

end

end Bgmchain.Core
