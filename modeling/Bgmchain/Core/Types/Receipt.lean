import Bgmchain.Core.Types.Transaction

/-! # Receipts

`core/types/receipt.go` and `core/types/log.go`: receipts with their logs, the
consensus encoding that a receipt root is made of, and what decoding makes of it.
`Removed` of a log, which is set for subscribers only, is left out. -/
namespace Bgmchain.Core
open Common Lib Rlp List

structure Log where
  address : Address
  topics : List Hash
  data : Bytes
  blockNumber : Nat
  txHash : Hash
  txIndex : Nat
  blockHash : Hash
  index : Nat
deriving DecidableEq

/-- `GasUsed` is nil until the data of the block is filled in. -/
structure Receipt where
  postState : Bytes
  status : Nat
  cumulativeGasUsed : Int
  bloom : FixedBytes 256
  logs : List Log
  txHash : Hash
  contractAddress : Address
  gasUsed : Option Int
deriving DecidableEq

/-- `rlpLog` -/
structure RlpLog where
  address : Address
  topics : List Hash
  data : Bytes
deriving DecidableEq

/-- `receiptRLP`, the consensus fields of a receipt. -/
structure ReceiptRLP where
  postStateOrStatus : Bytes
  cumulativeGasUsed : Int
  bloom : FixedBytes 256
  logs : List RlpLog
deriving DecidableEq

def receiptStatusFailed : Nat := 0
def receiptStatusSuccessful : Nat := 1
def receiptStatusFailedRLP : Bytes := []
def receiptStatusSuccessfulRLP : Bytes := [0x01]

/-- `statusEncoding` -/
def Receipt.statusEncoding (r : Receipt) : Bytes :=
  if r.postState.length = 0 then
    if r.status = receiptStatusFailed then receiptStatusFailedRLP else receiptStatusSuccessfulRLP
  else r.postState

/-- An invalid status, by its bytes. -/
inductive ReceiptError where
  | invalidStatus (postStateOrStatus : Bytes)
deriving DecidableEq

/-- `setStatus` -/
def Receipt.setStatus (r : Receipt) (postStateOrStatus : Bytes) : Except ReceiptError Receipt :=
  if postStateOrStatus = receiptStatusSuccessfulRLP then .ok { r with status := receiptStatusSuccessful }
  else if postStateOrStatus = receiptStatusFailedRLP then .ok { r with status := receiptStatusFailed }
  else if postStateOrStatus.length = 32 then .ok { r with postState := postStateOrStatus }
  else .error (.invalidStatus postStateOrStatus)

/-! ## The consensus encoding -/

def Log.toRLP (l : Log) : RlpLog := ⟨l.address, l.topics, l.data⟩

/-- `DecodeRLP` of a log, once the fields have been read. -/
def Log.ofRLP (dec : RlpLog) : Log :=
  { address := dec.address, topics := dec.topics, data := dec.data, blockNumber := 0, txHash := .zero 32,
    txIndex := 0, blockHash := .zero 32, index := 0 }

/-- What `EncodeRLP` of a receipt encodes. -/
def Receipt.toRLP (r : Receipt) : ReceiptRLP :=
  ⟨r.statusEncoding, r.cumulativeGasUsed, r.bloom, r.logs.map Log.toRLP⟩

/-- A receipt before anything has been read into it. -/
def Receipt.new : Receipt :=
  { postState := [], status := 0, cumulativeGasUsed := 0, bloom := .zero 256, logs := [], txHash := .zero 32,
    contractAddress := .zero 20, gasUsed := none }

/-- `DecodeRLP` of a receipt, once the fields have been read. -/
def Receipt.ofRLP (dec : ReceiptRLP) : Except ReceiptError Receipt :=
  match Receipt.new.setStatus dec.postStateOrStatus with
  | .error e => .error e
  | .ok r => .ok { r with
      cumulativeGasUsed := dec.cumulativeGasUsed
      bloom := dec.bloom
      logs := dec.logs.map Log.ofRLP }

def RlpLog.encode (l : RlpLog) : Bytes :=
  encodeList [FixedBytes.encode l.address, encodeList (l.topics.map FixedBytes.encode).flatten,
    encodeString l.data].flatten

def ReceiptRLP.encode (r : ReceiptRLP) : Option Bytes := do
  let cumulativeGasUsed ← encodeBigInt r.cumulativeGasUsed
  return encodeList [encodeString r.postStateOrStatus, cumulativeGasUsed, FixedBytes.encode r.bloom,
    encodeList (r.logs.map RlpLog.encode).flatten].flatten

/-- `EncodeRLP` -/
def Receipt.encode (r : Receipt) : Option Bytes := r.toRLP.encode

/-- The status that is read is the one that is written, in each of its three forms. -/
theorem Receipt.statusEncoding_setStatus {bs : Bytes} {r : Receipt} (h : Receipt.new.setStatus bs = .ok r) :
    r.statusEncoding = bs := by
  unfold Receipt.setStatus at h
  split at h
  next hs =>
    cases h
    exact hs.symm
  · split at h
    next hs =>
      cases h
      exact hs.symm
    · split at h
      next hne _ =>
        cases h
        have hlen : bs.length ≠ 0 := fun hz => hne (eq_nil_of_length_eq_zero hz)
        rw [Receipt.statusEncoding, if_neg hlen]
      · cases h

/-- What was decoded is encoded as it was. -/
theorem Receipt.toRLP_ofRLP {dec : ReceiptRLP} {r : Receipt} (h : Receipt.ofRLP dec = .ok r) :
    r.toRLP = dec := by
  have hlogs : (dec.logs.map Log.ofRLP).map Log.toRLP = dec.logs := by
    rw [map_map]
    exact map_id _
  unfold Receipt.ofRLP at h
  split at h
  · cases h
  next r' hset =>
    have hstatus := Receipt.statusEncoding_setStatus hset
    cases h
    calc _ = ReceiptRLP.mk r'.statusEncoding dec.cumulativeGasUsed dec.bloom
          ((dec.logs.map Log.ofRLP).map Log.toRLP) := rfl
      _ = dec := by rw [hstatus, hlogs]

/-! ## Injectivity -/

theorem RlpLog.encode_inj {l l' : RlpLog} (hlen : l.encode.length < 256 ^ 8)
    (h : l.encode = l'.encode) : l = l' := by
  have hencoded : ∀ l : RlpLog, ∀ bs ∈ [FixedBytes.encode l.address,
      encodeList (l.topics.map FixedBytes.encode).flatten, encodeString l.data], Encoded bs := by
    intro l bs hbs
    simp only [mem_cons, not_mem_nil, or_false] at hbs
    rcases hbs with rfl | rfl | rfl
    · exact FixedBytes.encoded _
    · exact encoded_encodeList _
    · exact encoded_encodeString _
  have hlen' : l'.encode.length < 256 ^ 8 := h ▸ hlen
  have hitems := encodeList_flatten_inj (hencoded l) (hencoded l') hlen hlen' h
  simp only [List.cons.injEq, and_true] at hitems
  obtain ⟨haddress, htopics, hdata⟩ := hitems
  have hbound : ∀ bs ∈ [FixedBytes.encode l.address,
      encodeList (l.topics.map FixedBytes.encode).flatten, encodeString l.data],
      bs.length < 256 ^ 8 := fun bs hbs => (length_le_of_mem hbs).trans_lt hlen
  have htopics := encodeList_map_inj FixedBytes.encoded (fun a b _ hab => FixedBytes.encode_inj (by decide) hab)
    (hbound _ (by simp)) htopics
  have hdata := encodeString_inj_of_length (hbound _ (by simp)) hdata
  cases l
  cases l'
  simp only at htopics hdata haddress
  rw [FixedBytes.encode_inj (by decide) haddress, htopics, hdata]

/-- The items of the encoding of a receipt. -/
def ReceiptRLP.items (r : ReceiptRLP) : List Bytes :=
  [encodeString r.postStateOrStatus, encodeNat r.cumulativeGasUsed.toNat, FixedBytes.encode r.bloom,
    encodeList (r.logs.map RlpLog.encode).flatten]

theorem ReceiptRLP.encode_eq_some {r : ReceiptRLP} {enc : Bytes} (h : r.encode = some enc) :
    0 ≤ r.cumulativeGasUsed ∧ enc = encodeList r.items.flatten := by
  obtain ⟨gas, hgas, hret⟩ := Option.bind_eq_some_iff.mp h
  obtain ⟨hnonneg, rfl⟩ := encodeBigInt_eq_some_iff.mp hgas
  cases hret
  exact ⟨hnonneg, rfl⟩

/-- **The encoding of a receipt determines its consensus fields.** -/
theorem ReceiptRLP.encode_inj {r r' : ReceiptRLP} {enc : Bytes} (h : r.encode = some enc)
    (h' : r'.encode = some enc) (hlen : enc.length < 256 ^ 8) : r = r' := by
  obtain ⟨hgas, henc⟩ := ReceiptRLP.encode_eq_some h
  obtain ⟨hgas', henc'⟩ := ReceiptRLP.encode_eq_some h'
  have hencoded : ∀ r : ReceiptRLP, ∀ bs ∈ r.items, Encoded bs := by
    intro r bs hbs
    simp only [ReceiptRLP.items, mem_cons, not_mem_nil, or_false] at hbs
    rcases hbs with rfl | rfl | rfl | rfl
    · exact encoded_encodeString _
    · exact encoded_encodeString _
    · exact FixedBytes.encoded _
    · exact encoded_encodeList _
  have hbound : ∀ bs ∈ r.items, bs.length < 256 ^ 8 :=
    fun bs hbs => (length_le_of_mem hbs).trans_lt (henc ▸ hlen)
  have hitems := encodeList_flatten_inj (hencoded r) (hencoded r') (henc ▸ hlen) (henc' ▸ hlen)
    (henc.symm.trans henc')
  simp only [ReceiptRLP.items, mem_cons, not_mem_nil, or_false, forall_eq_or_imp, forall_eq]
    at hbound
  simp only [ReceiptRLP.items, List.cons.injEq, and_true] at hitems
  have hstatus := encodeString_inj_of_length hbound.1 hitems.1
  have hcumulative := encodeNat_inj hbound.2.1 hitems.2.1
  have hlogs := encodeList_map_inj (fun l => encoded_encodeList _)
    (fun a b hlen => RlpLog.encode_inj hlen) hbound.2.2.2 hitems.2.2.2
  cases r
  cases r'
  simp only [ReceiptRLP.mk.injEq] at *
  exact ⟨hstatus, by omega, FixedBytes.encode_inj (by decide) hitems.2.2.1, hlogs⟩

end Bgmchain.Core
