import Bgmchain.Core.Types.DposContext
import Bgmchain.Trie.Hasher

/-! # Headers

`core/types/block.go` and the hashes of a DPoS context that a header carries.
A header's integers are Go's `big.Int`; a nil pointer in a header is left out,
since decoding never makes one. -/
namespace Bgmchain
open Common Lib Rlp Crypto

structure DposContextProto where
  epochHash : Hash
  delegateHash : Hash
  candidateHash : Hash
  voteHash : Hash
  mintCntHash : Hash
deriving DecidableEq

structure Header where
  parentHash : Hash
  uncleHash : Hash
  validator : Address
  coinbase : Address
  root : Hash
  txHash : Hash
  receiptHash : Hash
  dposContext : DposContextProto
  bloom : FixedBytes 256
  difficulty : Int
  number : Int
  gasLimit : Int
  gasUsed : Int
  time : Int
  extra : Bytes
  mixDigest : Hash
  nonce : FixedBytes 8
deriving DecidableEq

/-- A big integer; a negative one cannot be encoded. -/
def encodeBigInt (x : Int) : Option Bytes := if x < 0 then none else some (encodeNat x.toNat)

theorem encodeBigInt_eq_some_iff {x : Int} {bs : Bytes} :
    encodeBigInt x = some bs ↔ 0 ≤ x ∧ bs = encodeString (minimal x.toNat) := by
  unfold encodeBigInt
  by_cases h : x < 0
  · rw [if_pos h]
    exact iff_of_false (by simp) fun hx => not_le.mpr h hx.1
  · rw [if_neg h, Option.some.injEq]
    exact ⟨fun heq => ⟨not_lt.mp h, heq.symm⟩, fun hx => hx.2.symm⟩

/-- Of what can be encoded, the bytes determine the integer. -/
theorem toNat_minimal_inj {x y : Int} (hx : 0 ≤ x) (hy : 0 ≤ y)
    (h : minimal x.toNat = minimal y.toNat) : x = y := by
  have := minimal_inj h
  omega

def FixedBytes.encode {n : Nat} (b : FixedBytes n) : Bytes := encodeString b.bytes

theorem FixedBytes.encode_inj {n : Nat} {a b : FixedBytes n} (hn : n < 256 ^ 8)
    (h : FixedBytes.encode a = FixedBytes.encode b) : a = b :=
  FixedBytes.ext (encodeString_inj (by rwa [a.length_eq]) (by rwa [b.length_eq]) h)

theorem FixedBytes.encoded {n : Nat} (a : FixedBytes n) : Encoded (FixedBytes.encode a) :=
  encoded_encodeString _

def DposContextProto.encode (p : DposContextProto) : Bytes :=
  encodeList ([p.epochHash, p.delegateHash, p.candidateHash, p.voteHash, p.mintCntHash].flatMap
    FixedBytes.encode)

/-- The fields of a header in order, each encoded. -/
def Header.encode (h : Header) : Option Bytes := do
  let difficulty ← encodeBigInt h.difficulty
  let number ← encodeBigInt h.number
  let gasLimit ← encodeBigInt h.gasLimit
  let gasUsed ← encodeBigInt h.gasUsed
  let time ← encodeBigInt h.time
  return encodeList ([FixedBytes.encode h.parentHash, FixedBytes.encode h.uncleHash,
    FixedBytes.encode h.validator, FixedBytes.encode h.coinbase, FixedBytes.encode h.root,
    FixedBytes.encode h.txHash, FixedBytes.encode h.receiptHash, h.dposContext.encode,
    FixedBytes.encode h.bloom, difficulty, number, gasLimit, gasUsed, time,
    encodeString h.extra, FixedBytes.encode h.mixDigest, FixedBytes.encode h.nonce].flatten)

/-- The items of the encoding of a header. -/
def Header.items (h : Header) : List Bytes :=
  [FixedBytes.encode h.parentHash, FixedBytes.encode h.uncleHash, FixedBytes.encode h.validator,
    FixedBytes.encode h.coinbase, FixedBytes.encode h.root, FixedBytes.encode h.txHash,
    FixedBytes.encode h.receiptHash, h.dposContext.encode, FixedBytes.encode h.bloom,
    encodeNat h.difficulty.toNat, encodeNat h.number.toNat, encodeNat h.gasLimit.toNat,
    encodeNat h.gasUsed.toNat, encodeNat h.time.toNat, encodeString h.extra,
    FixedBytes.encode h.mixDigest, FixedBytes.encode h.nonce]

theorem Header.encode_eq_some {h : Header} {enc : Bytes} (he : h.encode = some enc) :
    (0 ≤ h.difficulty ∧ 0 ≤ h.number ∧ 0 ≤ h.gasLimit ∧ 0 ≤ h.gasUsed ∧ 0 ≤ h.time) ∧
      enc = encodeList h.items.flatten := by
  unfold Header.encode at he
  simp only [bind, Option.bind_eq_some_iff, encodeBigInt_eq_some_iff] at he
  obtain ⟨_, ⟨hd, rfl⟩, _, ⟨hn, rfl⟩, _, ⟨hl, rfl⟩, _, ⟨hu, rfl⟩, _, ⟨ht, rfl⟩, hret⟩ := he
  cases hret
  exact ⟨⟨hd, hn, hl, hu, ht⟩, rfl⟩

theorem DposContextProto.encode_inj {p p' : DposContextProto} (hlen : p.encode.length < 256 ^ 8)
    (h : p.encode = p'.encode) : p = p' := by
  unfold DposContextProto.encode at hlen h
  rw [List.flatMap_def] at hlen h
  rw [List.flatMap_def] at h
  have hhashes := encodeList_map_inj FixedBytes.encoded
    (fun a b _ hab => FixedBytes.encode_inj (by decide) hab) hlen h
  simp only [List.cons.injEq, and_true] at hhashes
  cases p
  cases p'
  simp only [DposContextProto.mk.injEq]
  exact hhashes

theorem Header.encoded_items (h : Header) : ∀ bs ∈ h.items, Encoded bs := by
  have hnat : ∀ n, Encoded (encodeNat n) := fun n => encoded_encodeString _
  simp only [Header.items, List.mem_cons, List.not_mem_nil, or_false, forall_eq_or_imp, forall_eq,
    FixedBytes.encoded, hnat, encoded_encodeString, true_and, and_true]
  exact encoded_encodeList _

/-- **The encoding of a header determines it.** -/
theorem Header.encode_inj {h h' : Header} {enc : Bytes} (he : h.encode = some enc) (he' : h'.encode = some enc)
    (hlen : enc.length < 256 ^ 8) : h = h' := by
  obtain ⟨⟨hd, hn, hl, hu, ht⟩, henc⟩ := Header.encode_eq_some he
  obtain ⟨⟨hd', hn', hl', hu', ht'⟩, henc'⟩ := Header.encode_eq_some he'
  have hbound : ∀ bs ∈ h.items, bs.length < 256 ^ 8 :=
    fun bs hbs => (length_le_of_mem hbs).trans_lt (henc ▸ hlen)
  have hitems := encodeList_flatten_inj h.encoded_items h'.encoded_items (henc ▸ hlen) (henc' ▸ hlen)
    (henc.symm.trans henc')
  have hint : ∀ {x y : Int}, 0 ≤ x → 0 ≤ y → encodeNat x.toNat ∈ h.items →
      encodeNat x.toNat = encodeNat y.toNat → x = y := by
    intro x y hx hy hmem hxy
    have := encodeNat_inj (hbound _ hmem) hxy
    omega
  have hfixed : ∀ {n : Nat} {a b : FixedBytes n}, n < 256 ^ 8 → FixedBytes.encode a = FixedBytes.encode b →
      a = b := FixedBytes.encode_inj
  simp only [Header.items, List.cons.injEq, and_true] at hitems
  obtain ⟨hparent, huncle, hvalidator, hcoinbase, hroot, htx, hreceipt, hctx, hbloom, hdiff, hnumber, hlimit,
    hused, htime, hextra, hmix, hnonce⟩ := hitems
  have hctx := DposContextProto.encode_inj (hbound _ (by simp [Header.items])) hctx
  have hextra := encodeString_inj_of_length (hbound _ (by simp [Header.items])) hextra
  have hdiff := hint hd hd' (by simp [Header.items]) hdiff
  have hnumber := hint hn hn' (by simp [Header.items]) hnumber
  have hlimit := hint hl hl' (by simp [Header.items]) hlimit
  have hused := hint hu hu' (by simp [Header.items]) hused
  have htime := hint ht ht' (by simp [Header.items]) htime
  have hsmall : 8 < 256 ^ 8 ∧ 20 < 256 ^ 8 ∧ 32 < 256 ^ 8 ∧ 256 < 256 ^ 8 := by decide
  obtain ⟨h8, h20, h32, h256⟩ := hsmall
  cases h
  cases h'
  simp only [Header.mk.injEq]
  exact ⟨hfixed h32 hparent, hfixed h32 huncle, hfixed h20 hvalidator, hfixed h20 hcoinbase, hfixed h32 hroot,
    hfixed h32 htx, hfixed h32 hreceipt, hctx, hfixed h256 hbloom, hdiff, hnumber, hlimit, hused, htime,
    hextra, hfixed h32 hmix, hfixed h8 hnonce⟩

section
variable [Crypto]

/-- `Header.Hash`; nothing is written to the hash when the encoder fails. -/
def Header.hash (h : Header) : Hash := keccak256 (h.encode.getD [])

/-- `DposContextProto.Root` -/
def DposContextProto.root (p : DposContextProto) : Hash :=
  keccak256 ([p.epochHash, p.delegateHash, p.candidateHash, p.voteHash,
    p.mintCntHash].flatMap FixedBytes.encode)

namespace DposContext

/-- `ToProto` -/
def toProto (d : DposContext) : DposContextProto where
  epochHash := d.epochTrie.hash
  delegateHash := d.delegateTrie.hash
  candidateHash := d.candidateTrie.hash
  voteHash := d.voteTrie.hash
  mintCntHash := d.mintCntTrie.hash

/-- `DposContext.Root` -/
def root (d : DposContext) : Hash :=
  keccak256 ([d.epochTrie.hash, d.delegateTrie.hash, d.candidateTrie.hash, d.voteTrie.hash,
    d.mintCntTrie.hash].flatMap FixedBytes.encode)

/-- `CommitTo` -/
def commitTo (d : DposContext) (db : NodeDatabase) : NodeDatabase :=
  d.mintCntTrie.commitTo (d.candidateTrie.commitTo (d.voteTrie.commitTo (d.delegateTrie.commitTo
    (d.epochTrie.commitTo db))))

/-- A context and the hashes a header carries for it have one root. -/
theorem root_toProto (d : DposContext) : d.toProto.root = d.root := rfl

end DposContext

end

/-- `NewDposContextFromProto` -/
def DposContext.newFromProto (db : NodeDatabase) (p : DposContextProto) :
    Except TrieError DposContext := do
  let epochTrie ← Trie.new p.epochHash epochPrefix db
  let delegateTrie ← Trie.new p.delegateHash delegatePrefix db
  let voteTrie ← Trie.new p.voteHash votePrefix db
  let candidateTrie ← Trie.new p.candidateHash candidatePrefix db
  let mintCntTrie ← Trie.new p.mintCntHash mintCntPrefix db
  .ok { epochTrie, delegateTrie, voteTrie, candidateTrie, mintCntTrie, db }

end Bgmchain
