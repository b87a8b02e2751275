import Bgmchain.Core.Types.Transaction
import Bgmchain.RLP.Termination

/-! # Transactions in memory

`core/types/transaction.go`: the check of a transaction that is to be sent, and what
decoding gives back of a transaction. In memory a payload may be nil. The encoding does not
tell a nil payload from an empty one, but the check does. -/
namespace Bgmchain.Core
open Common RLP Lib

/-- A transaction whose payload may be nil. -/
structure TxObject extends Transaction where
  nilPayload : Bool
  empty_of_nil : nilPayload = true → payload = []

/-- A recipient is required. -/
def TxType.needsRecipient (t : TxType) : Bool :=
  t.code ≠ TxType.loginCandidate.code ∧ t.code ≠ TxType.logoutCandidate.code

/-- `Validate` -/
def TxObject.validate (tx : TxObject) : Except String Unit :=
  if tx.txType.code ≠ TxType.binary.code then
    if uint64 tx.amount ≠ 0 then .error "transaction value should be 0"
    else if tx.recipient = none ∧ tx.txType.needsRecipient then .error "receipient was required"
    else if ¬ tx.nilPayload then .error "payload should be empty"
    else .ok ()
  else .ok ()

/-! ## Building -/

/-- `newTransaction`, with a signature in it -/
def TxObject.newTransaction' (txType : TxType) (nonce : UInt64) (to_ : Option Address) (amount gasLimit gasPrice : Option Int)
    (data : Option Bytes) (v r s : Int) : TxObject where
  txType := txType
  accountNonce := nonce
  price := gasPrice.getD 0
  gasLimit := gasLimit.getD 0
  recipient := to_
  amount := amount.getD 0
  payload := data.getD []
  v := v
  r := r
  s := s
  nilPayload := data.isNone
  empty_of_nil := by cases data <;> simp

/-- `NewTransaction`. But for a plain transaction the zero address stands for no recipient. -/
def TxObject.newTransaction (txType : TxType) (nonce : UInt64) (to_ : Address) :=
  newTransaction' txType nonce (if txType ≠ .binary ∧ to_ = .zero 20 then none else some to_)

/-- `NewContractCreation` -/
def TxObject.newContractCreation (nonce : UInt64) := newTransaction' .binary nonce none

/-! ## Decoding -/

/-- The type `txdata`, without the hash that the encoding leaves out. -/
def txdata : Ty := .struct <|
  .cons "Type" (.uint .w8) <| .cons "AccountNonce" (.uint .w64) <| .cons "Price" (.ptr .bigInt) <|
  .cons "GasLimit" (.ptr .bigInt) <| .opt "Recipient" (.byteArray 20) <| .cons "Amount" (.ptr .bigInt) <|
  .cons "Payload" .bytes <| .cons "V" (.ptr .bigInt) <| .cons "R" (.ptr .bigInt) <| .cons "S" (.ptr .bigInt) .nil

/-- A transaction as a value of `txdata`. -/
def Transaction.value (tx : Transaction) : txdata.Val :=
  ((⟨tx.txType.code.toNat, tx.txType.code.toNat_lt⟩ : Uint .w8),
    (⟨tx.accountNonce.toNat, tx.accountNonce.toNat_lt⟩ : Uint .w64), some tx.price, some tx.gasLimit,
    tx.recipient.map fun a => ⟨a.bytes, a.length_eq⟩, some tx.amount, tx.payload, some tx.v, some tx.r,
    some tx.s, ())

/-- What is decoded into `txdata`. No payload that was decoded is nil. -/
def TxObject.ofValue : Uint .w8 × Uint .w64 × Option Int × Option Int × Option { b : Bytes // b.length = 20 } ×
    Option Int × Bytes × Option Int × Option Int × Option Int × Unit → TxObject
  | (type, nonce, price, gasLimit, recipient, amount, payload, v, r, s, _) =>
    { txType := .ofCode (.ofNat type.val)
      accountNonce := .ofNat nonce.val
      price := price.getD 0
      gasLimit := gasLimit.getD 0
      recipient := recipient.map fun b => ⟨b.val, b.property⟩
      amount := amount.getD 0
      payload := payload
      v := v.getD 0
      r := r.getD 0
      s := s.getD 0
      nilPayload := false
      empty_of_nil := nofun }

/-- `DecodeRLP` of a whole input. There is no loop in the decoder of `txdata`. -/
def TxObject.decodeRLP (b : Bytes) : Except Err TxObject := (txdata.decodeBytes (b.length + 1) b).map TxObject.ofValue

/-- A transaction as it comes back. -/
def Transaction.decoded (tx : Transaction) : TxObject :=
  { tx with txType := .ofCode tx.txType.code, nilPayload := false, empty_of_nil := nofun }

theorem getD_of_samePtr {i : Int} {p : Option Int}
    (h : SamePtr (fun a => (Ty.bigInt.tree a).Empty) Ty.bigInt.Same (some i) p) : p.getD 0 = i := by
  cases p with
  | some j => exact Eq.symm h
  | none =>
    by_contra hne
    exact Rlp.minimal_ne_nil (n := i.natAbs) (fun h0 => hne (Int.natAbs_eq_zero.mp h0).symm) h

theorem recipient_of_samePtr {a : Option Address} {p : Option { b : Bytes // b.length = 20 }}
    (h : SamePtr (fun b => ((Ty.byteArray 20).tree b).Empty) (Ty.byteArray 20).Same (a.map fun a => ⟨a.bytes, a.length_eq⟩) p) :
    (p.map fun b => (⟨b.val, b.property⟩ : Address)) = a := by
  cases a with
  | none =>
    cases p with
    | none => rfl
    | some b => exact absurd (show b.val = [] from h) (fun hb => nomatch hb ▸ b.property)
  | some a =>
    cases p with
    | none => exact absurd h a.bytes_ne_nil
    | some b => exact congrArg some (FixedBytes.ext (congrArg Subtype.val (Eq.symm h)))

variable {tx : Transaction}

theorem TxObject.ofValue_of_same {w : txdata.Val} (h : txdata.Same tx.value w) :
    TxObject.ofValue w = tx.decoded := by
  obtain ⟨type, nonce, price, gasLimit, recipient, amount, payload, v, r, s, _⟩ := w
  obtain ⟨htype, hnonce, hprice, hlimit, hto, hamount, hpayload, hv, hr, hs, -⟩ := h
  have htype : tx.txType.code.toNat = type.val := htype
  have hnonce : tx.accountNonce.toNat = nonce.val := hnonce
  have hpayload : tx.payload = payload := hpayload
  simp [TxObject.ofValue, Transaction.decoded, ← htype, ← hnonce, hpayload, getD_of_samePtr hprice, getD_of_samePtr hlimit,
    getD_of_samePtr hamount, getD_of_samePtr hv, getD_of_samePtr hr, getD_of_samePtr hs, recipient_of_samePtr hto]

theorem Transaction.tree_value {enc : Bytes} (h : tx.encode = some enc) :
    txdata.Encodable tx.value ∧ (txdata.tree tx.value).encode = enc := by
  obtain ⟨⟨h1, h2, h3, h4, h5, h6⟩, rfl⟩ := Transaction.encode_eq_some h
  have hint : ∀ {i : Int}, 0 ≤ i → (Ty.ptr .bigInt).Encodable (some i) := by
    rintro i hi _ ⟨⟩
    exact hi
  have hnat : ∀ {i : Int}, 0 ≤ i → i.natAbs = i.toNat := by omega
  refine ⟨⟨trivial, trivial, hint h1, hint h2, ⟨fun _ _ => trivial, hint h3, trivial, hint h4, hint h5, hint h6, trivial⟩⟩, ?_⟩
  cases hto : tx.recipient
  all_goals
    simp [txdata, Transaction.value, Ty.tree, Fields.trees, Tree.encode, Tree.encodeAll, Rlp.encodeStrings,
      Transaction.strings, Ty.nilTree, recipientBytes, *]
    rfl

theorem Transaction.good_value (tx : Transaction) : txdata.Good tx.value := by
  simp [txdata, Transaction.value, Ty.Good, Fields.Good, Ty.Sticky]

/-- **A transaction comes back from its encoding**, with a payload that is not nil. -/
theorem TxObject.decodeRLP_encode {enc : Bytes} (h : tx.encode = some enc) (hlen : enc.length < 2 ^ 63) :
    TxObject.decodeRLP enc = .ok tx.decoded := by
  obtain ⟨hencodable, rfl⟩ := Transaction.tree_value h
  obtain ⟨w, hdec, hsame⟩ := Ty.decodeBytes_of_good hencodable (by omega) tx.good_value
  rw [TxObject.decodeRLP, hdec]
  exact congrArg Except.ok (TxObject.ofValue_of_same hsame)

/-! ## The check before and after -/

@[simp] theorem TxType.code_ofCode (c : UInt8) : (TxType.ofCode c).code = c := by
  unfold TxType.ofCode
  split_ifs <;> simp_all [TxType.code]

theorem Transaction.encode_of_nonneg (h1 : 0 ≤ tx.price) (h2 : 0 ≤ tx.gasLimit) (h3 : 0 ≤ tx.amount)
    (h4 : 0 ≤ tx.v) (h5 : 0 ≤ tx.r) (h6 : 0 ≤ tx.s) : ∃ enc, tx.encode = some enc := by
  simp [Transaction.encode, encodeBigInt, Int.not_lt.mpr, *]

theorem TxObject.validate_eq_ok {tx : TxObject} : tx.validate = .ok () ↔ tx.txType.code = TxType.binary.code ∨
    (uint64 tx.amount = 0 ∧ ¬ (tx.recipient = none ∧ tx.txType.needsRecipient) ∧ tx.nilPayload = true) := by
  unfold TxObject.validate
  split_ifs <;> simp_all

/-- The verdict is the same when the payload is not looked at, or when there is another reason to reject. -/
theorem TxObject.validate_decoded (tx : TxObject) :
    tx.toTransaction.decoded.validate = tx.validate ↔ tx.txType.code = TxType.binary.code ∨ tx.validate ≠ .ok () := by
  have hneeds : (TxType.ofCode tx.txType.code).needsRecipient = tx.txType.needsRecipient := by
    simp [TxType.needsRecipient]
  simp only [TxObject.validate, Transaction.decoded, TxType.code_ofCode, hneeds]
  split_ifs <;> simp_all

/-- What is asked of the check: it gives the same verdict once the transaction was encoded and decoded, and
it passes no transaction that is not binary and has a value or a payload. -/
def TxObject.VerdictKept (tx : TxObject) : Prop :=
  (∀ enc, tx.encode = some enc → ∃ tx', TxObject.decodeRLP enc = .ok tx' ∧ tx'.validate = tx.validate) ∧
    (tx.validate = .ok () → tx.txType.code ≠ TxType.binary.code → tx.amount = 0 ∧ tx.payload = [])

/-- **When decoding changes the verdict.** What passes the check has a nil payload unless it is binary, and is
rejected once it was encoded and decoded. So the verdict is kept only for binary transactions, for those that
are rejected, and for those with the value 0 that a negative number keeps from being encoded. -/
theorem verdictKept_iff (tx : TxObject) (hlen : ∀ enc, tx.encode = some enc → enc.length < 2 ^ 63) :
    tx.VerdictKept ↔ tx.txType.code = TxType.binary.code ∨ uint64 tx.amount ≠ 0 ∨
      (tx.recipient = none ∧ tx.txType.needsRecipient) ∨ tx.nilPayload = false ∨
      (tx.amount = 0 ∧ (tx.price < 0 ∨ tx.gasLimit < 0 ∨ tx.v < 0 ∨ tx.r < 0 ∨ tx.s < 0)) := by
  have hdec : ∀ enc, tx.encode = some enc → TxObject.decodeRLP enc = .ok tx.toTransaction.decoded :=
    fun enc henc => TxObject.decodeRLP_encode henc (hlen enc henc)
  -- a binary transaction, and one that is rejected
  have hkept : ∀ h : tx.txType.code = TxType.binary.code ∨ tx.validate ≠ .ok (), tx.VerdictKept := by
    refine fun h => ⟨fun enc henc => ⟨_, hdec enc henc, tx.validate_decoded.mpr h⟩, fun hok hne => ?_⟩
    exact absurd hok (h.resolve_left hne)
  by_cases hbinary : tx.txType.code = TxType.binary.code
  · exact iff_of_true (hkept (.inl hbinary)) (.inl hbinary)
  by_cases hok : tx.validate = .ok ()
  · obtain ⟨hamount, hto, hnil⟩ := (TxObject.validate_eq_ok.mp hok).resolve_left hbinary
    simp only [hbinary, hamount, hto, hnil, ne_eq, not_true, false_or, Bool.true_eq_false]
    constructor
    · intro ⟨hsame, hpass⟩
      have hzero := (hpass hok hbinary).1
      refine ⟨hzero, ?_⟩
      by_contra! ⟨h1, h2, h3, h4, h5⟩
      obtain ⟨enc, henc⟩ := Transaction.encode_of_nonneg h1 h2 hzero.ge h3 h4 h5
      obtain ⟨tx', htx', heq⟩ := hsame enc henc
      cases (hdec enc henc).symm.trans htx'
      exact (tx.validate_decoded.mp heq).elim hbinary (· hok)
    · intro ⟨hzero, hneg⟩
      refine ⟨fun enc henc => ?_, fun _ _ => ⟨hzero, tx.empty_of_nil hnil⟩⟩
      obtain ⟨⟨h1, h2, -, h4, h5, h6⟩, -⟩ := Transaction.encode_eq_some henc
      omega
  · refine iff_of_true (hkept (.inr hok)) ?_
    by_contra hno
    simp_all [TxObject.validate_eq_ok]

/-- A candidate logs in. -/
def login : TxObject := ⟨⟨.loginCandidate, 0, 0, 0, none, 0, [], 0, 0, 0⟩, true, fun _ => rfl⟩

/-- With a payload the login is rejected, before and after. -/
theorem verdictKept_payload : TxObject.VerdictKept { login with payload := [1], nilPayload := false, empty_of_nil := nofun } := by
  refine (verdictKept_iff _ fun enc henc => ?_).mpr (.inr (.inr (.inr (.inl rfl))))
  cases henc
  decide +kernel

/-- **A login passes the check and no longer passes it once it was encoded and decoded**; and with a value of
`2 ^ 64` it passes the check too. -/
theorem login_not_verdictKept : login.validate = .ok () ∧
    (∃ enc tx', login.encode = some enc ∧ TxObject.decodeRLP enc = .ok tx' ∧
      tx'.validate = .error "payload should be empty") ∧
    TxObject.validate { login with amount := 2 ^ 64 } = .ok () := by
  have hdec := TxObject.decodeRLP_encode (show login.toTransaction.encode = some _ from rfl) (by decide +kernel)
  exact ⟨rfl, ⟨_, _, rfl, hdec, rfl⟩, rfl⟩

end Bgmchain.Core
