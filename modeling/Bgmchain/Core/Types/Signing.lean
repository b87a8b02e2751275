import Bgmchain.Consensus.Dpos.Sample
import Bgmchain.Core.Types.Transaction
import Bgmchain.Lib.Hoare
import Bgmchain.Lib.RlpHead

/-! # What a signature of a transaction binds

The signers hash the fields of a transaction by hand, and none of them hashes the
type. Two transactions with the same hash to sign agree in everything else, so a
signature is good for every type. The id of the chain is in the hash and in V, but not
in V when it is 0. -/
namespace Bgmchain.Core
open Common Lib Rlp BigEndian List

/-- The strings that a signer encodes, in order. -/
def Signer.strings (signer : Signer) (tx : Transaction) : List Bytes :=
  [minimal tx.accountNonce.toNat, minimal tx.price.toNat, minimal tx.gasLimit.toNat,
    recipientBytes tx.recipient, minimal tx.amount.toNat, tx.payload] ++
  match signer with
  | .eip155 chainId => [minimal chainId.toNat, [], []]
  | _ => []

/-- What can be encoded has no negative integer, and is encoded as these strings. -/
theorem Signer.encode_eq_some {signer : Signer} {tx : Transaction} {enc : Bytes}
    (h : signer.encode tx = some enc) :
    (0 ≤ tx.price ∧ 0 ≤ tx.gasLimit ∧ 0 ≤ tx.amount) ∧ enc = encodeStrings (signer.strings tx) := by
  unfold Signer.encode Transaction.signedFields at h
  simp only [bind, Option.bind_eq_some_iff, encodeBigInt_eq_some_iff] at h
  obtain ⟨fields, ⟨_, ⟨hp, rfl⟩, _, ⟨hl, rfl⟩, _, ⟨ha, rfl⟩, hfields⟩, hrest⟩ := h
  cases hfields
  refine ⟨⟨hp, hl, ha⟩, ?_⟩
  rw [encodeRecipient_eq] at hrest
  cases signer with
  | frontier | homestead =>
    cases hrest
    rfl
  | eip155 chainId =>
    obtain ⟨id, hid, hret⟩ := Option.bind_eq_some_iff.mp hrest
    obtain ⟨_, rfl⟩ := encodeBigInt_eq_some_iff.mp hid
    cases hret
    rfl

/-- A transaction without its signature. -/
def Transaction.unsigned (tx : Transaction) : Transaction := { tx with v := 0, r := 0, s := 0 }

theorem strings_inj {signer : Signer} {t t' : Transaction} (h : signer.strings t = signer.strings t')
    (hn : 0 ≤ t.price ∧ 0 ≤ t.gasLimit ∧ 0 ≤ t.amount) (hn' : 0 ≤ t'.price ∧ 0 ≤ t'.gasLimit ∧ 0 ≤ t'.amount) :
    t.accountNonce = t'.accountNonce ∧ t.price = t'.price ∧ t.gasLimit = t'.gasLimit ∧
      t.recipient = t'.recipient ∧ t.amount = t'.amount ∧ t.payload = t'.payload := by
  have hfields := append_inj_left h rfl
  simp only [cons.injEq, and_true] at hfields
  obtain ⟨hnonce, hprice, hlimit, hto, hamount, hpayload⟩ := hfields
  exact ⟨UInt64.toNat_inj.mp (minimal_inj hnonce), toNat_minimal_inj hn.1 hn'.1 hprice,
    toNat_minimal_inj hn.2.1 hn'.2.1 hlimit, recipientBytes_inj hto,
    toNat_minimal_inj hn.2.2 hn'.2.2 hamount, hpayload⟩

section
variable [Crypto]

/-- **A signature binds all of a transaction but its type.** Two transactions with the
same hash to sign agree in every field other than the signature exactly when they
have one type. -/
theorem Signer.hash_binds_iff (signer : Signer) {t t' : Transaction} {enc enc' : Bytes}
    (henc : signer.encode t = some enc) (henc' : signer.encode t' = some enc')
    (hsize : enc.length < 2 ^ 64) (hfree : NoCollision {enc, enc'})
    (hhash : signer.hash t = signer.hash t') : t.unsigned = t'.unsigned ↔ t.txType = t'.txType := by
  obtain ⟨hn, rfl⟩ := Signer.encode_eq_some henc
  obtain ⟨hn', rfl⟩ := Signer.encode_eq_some henc'
  rw [Signer.hash, Signer.hash, henc, henc'] at hhash
  have hstrings := encodeStrings_inj hsize (hfree _ (by simp) _ (by simp) hhash)
  obtain ⟨hnonce, hprice, hlimit, hto, hamount, hpayload⟩ := strings_inj hstrings hn hn'
  rw [Transaction.unsigned, Transaction.unsigned, Transaction.mk.injEq]
  refine ⟨And.left, ?_⟩
  intro htype
  exact ⟨htype, hnonce, hprice, hlimit, hto, hamount, hpayload, rfl, rfl, rfl⟩

/-- No signer looks at the type, so a transaction of another type with the same
signature has the same sender. -/
theorem Signer.sender_retyped (signer : Signer) (t : Transaction) (txType : TxType) :
    signer.sender { t with txType := txType } = signer.sender t := by
  cases signer <;> rfl

end

/-! ## Signing for a chain -/

/-- A signature `[R || S || V]`. -/
structure Signature where
  r : FixedBytes 32
  s : FixedBytes 32
  v : UInt8

def Signature.bytes (sig : Signature) : Bytes := sig.r.bytes ++ sig.s.bytes ++ [sig.v]

/-- `crypto.Sign`: V is 0 or 1, R and S are in the range of the curve and S in its lower
half, and `Ecrecover` gives the public key back. -/
class Keys (Key : Type) [Crypto] where
  /-- The public key after the byte that marks it as uncompressed. -/
  point : Key → Bytes
  sign : Hash → Key → Signature
  valid : ∀ hash key, validateSignatureValues (sign hash key).v.toNat (decode (sign hash key).r.bytes)
    (decode (sign hash key).s.bytes) true
  recovers : ∀ hash key, Crypto.ecrecover hash (sign hash key).bytes = some (4 :: point key)

/-- The V of `SignatureValues`. Only a chain id other than 0 goes into it. -/
def Signer.signatureV (signer : Signer) (sig : Signature) : Int :=
  match signer with
  | .eip155 chainId => if chainId ≠ 0 then (sig.v + 35).toNat + chainId * 2 else (sig.v + 27).toNat
  | _ => (sig.v + 27).toNat

/-- The bytes of a number that was read from a fixed array, behind zero bytes, are the array. -/
theorem ofBytes_minimal {n : Nat} (a : FixedBytes n) : FixedBytes.ofBytes n (minimal (decode a.bytes)) = a := by
  obtain ⟨k, hk⟩ := exists_replicate_minimal a.bytes
  generalize minimal (decode a.bytes) = m at hk ⊢
  have hn : n = k + m.length := by
    have hlen := congrArg length hk
    rw [a.length_eq, length_append, length_replicate] at hlen
    exact hlen
  apply FixedBytes.ext
  dsimp only [FixedBytes.ofBytes]
  conv_rhs => rw [hk]
  rw [show n - m.length = k by omega, show m.length - n = 0 by omega, drop_zero]

theorem signatureV_zero {sig : Signature} (hv : sig.v.toNat ≤ 1) :
    (Signer.eip155 0).signatureV sig = sig.v.toNat + 27 := by
  have hsum : (sig.v + 27).toNat = sig.v.toNat + 27 := by
    simp only [UInt8.toNat_add, UInt8.reduceToNat]
    omega
  simp [Signer.signatureV, hsum]

theorem signatureV_chain {sig : Signature} (hv : sig.v.toNat ≤ 1) {chainId : Int} (h : chainId ≠ 0) :
    (Signer.eip155 chainId).signatureV sig = sig.v.toNat + 35 + chainId * 2 := by
  have hsum : (sig.v + 35).toNat = sig.v.toNat + 35 := by
    simp only [UInt8.toNat_add, UInt8.reduceToNat]
    omega
  simp [Signer.signatureV, h, hsum]

theorem isProtectedV_zero {v : Nat} (hv : v ≤ 1) : isProtectedV (v + 27) = false := by
  rw [isProtectedV, if_pos (by omega), uint64]
  simp
  omega

theorem isProtectedV_chain {v : Nat} {chainId : Int} (hpos : 0 < chainId) : isProtectedV (v + 35 + chainId * 2) = true := by
  rw [isProtectedV, uint64]
  split
  · simp
    omega
  · rfl

theorem deriveChainId_chain {v : Nat} (hv : v ≤ 1) {chainId : Int} (hpos : 0 < chainId) :
    deriveChainId (v + 35 + chainId * 2) = chainId := by
  rw [deriveChainId, uint64]
  split_ifs <;> omega

section
variable {Key : Type} [Crypto] [Keys Key]

/-- `SignTx` -/
def Transaction.signTx (tx : Transaction) (signer : Signer) (key : Key) : Transaction :=
  let sig := Keys.sign (signer.hash tx) key
  { tx with r := decode sig.r.bytes, s := decode sig.s.bytes, v := signer.signatureV sig }

/-- `PubkeyToAddress` -/
def pubkeyToAddress (key : Key) : Address := bytesToAddress ((Crypto.keccak256 (Keys.point key)).bytes.drop 12)

/-- The signature tells who signed and for which chain, and no other chain takes it. -/
structure SignedFor (chainId : Int) (tx : Transaction) (key : Key) : Prop where
  sender : (Signer.eip155 chainId).sender (tx.signTx (.eip155 chainId) key) = .ok (pubkeyToAddress key)
  chain : deriveChainId (tx.signTx (.eip155 chainId) key).v = chainId
  elsewhere : ∀ other, other ≠ 0 → other ≠ chainId →
    ∃ e, (Signer.eip155 other).sender (tx.signTx (.eip155 chainId) key) = .error e

theorem Keys.v_le (hash : Hash) (key : Key) : (Keys.sign hash key).v.toNat ≤ 1 := by
  have hvalid := Keys.valid hash key
  simp only [validateSignatureValues] at hvalid
  split_ifs at hvalid
  simp at hvalid
  omega

/-- A signature over a hash, with the V of the plain signers, is recovered from it. -/
theorem recoverPlain_sign {hash : Hash} {key : Key} {sig : Signature} (hsig : Keys.sign hash key = sig) :
    recoverPlain hash (decode sig.r.bytes) (decode sig.s.bytes) (sig.v.toNat + 27) true =
      .ok (pubkeyToAddress key) := by
  have hv := Keys.v_le hash key
  have hvalid := Keys.valid hash key
  have hrecovers := Keys.recovers hash key
  rw [hsig] at hv hvalid hrecovers
  have hrange : ¬ 2 ^ 8 ≤ ((sig.v.toNat : Int) + 27).natAbs := by omega
  have hbyte : (uint64 ((sig.v.toNat : Int) + 27) + 2 ^ 64 - 27) % 2 ^ 8 = sig.v.toNat := by
    rw [uint64]
    omega
  simp only [recoverPlain, if_neg hrange, hbyte, hvalid, Int.toNat_natCast, ofBytes_minimal, UInt8.ofNat_toNat]
  rw [← Signature.bytes, hrecovers]
  rfl

/-- **A signature for a chain id other than 0 is good for that chain and no other.** For the
id 0 the hash has the id in it but V has not, so it is taken for one without any id. -/
theorem signedFor_iff {chainId : Int} (h : 0 ≤ chainId) (tx : Transaction) (key : Key) :
    SignedFor chainId tx key ↔ chainId ≠ 0 := by
  have hv := Keys.v_le ((Signer.eip155 chainId).hash tx) key
  constructor
  · rintro hs rfl
    -- V is 27 or 28, so every chain takes the transaction for one of a homestead signer.
    have hV : (tx.signTx (.eip155 0) key).v = _ := signatureV_zero hv
    obtain ⟨e, he⟩ := hs.elsewhere 1 (by decide) (by decide)
    have hsender := hs.sender
    rw [Signer.sender, hV, isProtectedV_zero hv, Bool.not_false, if_pos rfl] at he hsender
    exact nomatch he.symm.trans hsender
  · intro hne
    have hpos : 0 < chainId := by omega
    have hV : (tx.signTx (.eip155 chainId) key).v = _ := signatureV_chain hv hne
    have hprotected : ¬ (!isProtectedV (tx.signTx (.eip155 chainId) key).v) = true := by
      rw [hV, isProtectedV_chain hpos]
      exact Bool.false_ne_true
    have hchain : deriveChainId (tx.signTx (.eip155 chainId) key).v = chainId := by rw [hV, deriveChainId_chain hv hpos]
    refine ⟨?_, hchain, fun other _ hother => ⟨.invalidChainId, ?_⟩⟩
    · rw [Signer.sender, if_neg hprotected, if_neg (not_not.mpr hchain), hV, add_sub_cancel_right, add_sub_assoc]
      exact recoverPlain_sign rfl
    · rw [Signer.sender, if_neg hprotected, hchain, if_pos hother.symm]

end

/-! ## A delegation turned round -/

section
open Dpos.Sample

/-- A signed delegation to a candidate, on the chain with id 1. -/
def delegation : Transaction :=
  ⟨.delegate, 7, 1, 21000, some (address 2), 0, [], 37, 4 * 2 ^ 248, 1⟩

def delegationTurned : Transaction := { delegation with txType := .unDelegate }

theorem Signer.hash_binds_iff_delegation :
    (Signer.eip155 1).hash delegation = (Signer.eip155 1).hash delegationTurned ∧
      (delegation.unsigned = delegationTurned.unsigned ↔ delegation.txType = delegationTurned.txType) := by
  have henc : ((Signer.eip155 1).encode delegation).isSome = true := rfl
  obtain ⟨enc, henc⟩ := Option.isSome_iff_exists.mp henc
  have henc' : (Signer.eip155 1).encode delegationTurned = some enc := henc
  have hsize : (((Signer.eip155 1).encode delegation).getD []).length < 2 ^ 64 := by decide +kernel
  rw [henc] at hsize
  have hfree : NoCollision {enc, enc} := by
    intro a ha b hb _
    simp only [Set.mem_insert_iff, Set.mem_singleton_iff, or_self] at ha hb
    rw [ha, hb]
  exact ⟨rfl, Signer.hash_binds_iff (.eip155 1) henc henc' hsize hfree rfl⟩

/-- Whoever has the signed delegation has a valid message that takes it back. -/
theorem delegation_turned_round :
    (∃ sender, delegation.asMessage (.eip155 1) = .ok ⟨sender, some (address 2), .delegate⟩ ∧
      delegationTurned.asMessage (.eip155 1) = .ok ⟨sender, some (address 2), .unDelegate⟩) ∧
    (Signer.eip155 1).hash delegation = (Signer.eip155 1).hash delegationTurned ∧
    delegation.unsigned ≠ delegationTurned.unsigned := by
  have hsender : ((Signer.eip155 1).sender delegation).toOption.isSome = true := rfl
  obtain ⟨sender, hsender⟩ := Option.isSome_iff_exists.mp hsender
  have hsender := Lib.Hoare.except_toOption_eq_some_iff.mp hsender
  refine ⟨⟨sender, ?_, ?_⟩, rfl, by decide⟩
  · rw [Transaction.asMessage, hsender]
    rfl
  · rw [Transaction.asMessage, delegationTurned, Signer.sender_retyped, hsender]
    rfl

/-- One key, which signs everything alike. -/
instance oneKey : Keys Unit where
  point _ := replicate 62 0 ++ [1, 0]
  sign _ _ := ⟨⟨4 :: replicate 31 0, rfl⟩, ⟨replicate 31 0 ++ [1], rfl⟩, 0⟩
  valid _ _ := by decide +kernel
  recovers _ _ := rfl

theorem signedFor_delegation : SignedFor 1 delegation () := (signedFor_iff (by decide) delegation ()).mpr (by decide)

/-- A transaction that was signed for the chain 0 is taken on the chain 1. -/
theorem chain_zero_taken_elsewhere :
    ((Signer.eip155 1).sender (delegation.signTx (.eip155 0) ())).toOption = some (pubkeyToAddress ()) ∧
      ¬ SignedFor 0 delegation () := by
  have htaken : ((Signer.eip155 1).sender (delegation.signTx (.eip155 0) ())).toOption = some (pubkeyToAddress ()) := rfl
  refine ⟨htaken, fun h => ?_⟩
  obtain ⟨e, he⟩ := h.elsewhere 1 (by decide) (by decide)
  rw [he] at htaken
  cases htaken

end

end Bgmchain.Core
