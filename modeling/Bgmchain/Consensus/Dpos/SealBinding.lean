import Bgmchain.Consensus.Dpos.Sample

/-! # What a seal binds

The bytes that are signed are the header's fields in an order of their own, with
the context replaced by the hash of its five hashes and the extra data without the
signature. Where Keccak256 has no collisions on the bytes in question, the hash that
is signed determines all of them. -/
namespace Bgmchain.Dpos
open Common Lib Rlp Crypto List

/-- The strings that `sigHash` encodes, in order. -/
def sigFields [Crypto] (h : Header) : List Bytes :=
  [h.parentHash.bytes, h.uncleHash.bytes, h.validator.bytes, h.coinbase.bytes, h.root.bytes,
    h.txHash.bytes, h.receiptHash.bytes, h.bloom.bytes, minimal h.difficulty.toNat,
    minimal h.number.toNat, minimal h.gasLimit.toNat, minimal h.gasUsed.toNat,
    minimal h.time.toNat, h.extra.take (h.extra.length - extraSeal), h.mixDigest.bytes,
    h.nonce.bytes, h.dposContext.root.bytes]

/-- The five integers of a header are not negative, as in every header that has been
decoded; others cannot be encoded. -/
structure NonNegative (h : Header) : Prop where
  difficulty : 0 ≤ h.difficulty
  number : 0 ≤ h.number
  gasLimit : 0 ≤ h.gasLimit
  gasUsed : 0 ≤ h.gasUsed
  time : 0 ≤ h.time

/-- The bytes that `DposContextProto.Root` hashes. -/
def contextBytes (p : DposContextProto) : Bytes :=
  (([p.epochHash, p.delegateHash, p.candidateHash, p.voteHash, p.mintCntHash].map
    (·.bytes)).map encodeString).flatten

section
variable [Crypto]

theorem root_eq (p : DposContextProto) : p.root = keccak256 (contextBytes p) := by
  unfold DposContextProto.root contextBytes
  rw [flatMap_def, map_map]
  rfl

theorem sigHash_eq {h : Header} (hn : NonNegative h) : sigHash h = keccak256 (encodeStrings (sigFields h)) := by
  have henc : ∀ {x : Int}, 0 ≤ x → encodeBigInt x = some (encodeString (minimal x.toNat)) :=
    fun hx => encodeBigInt_eq_some_iff.mpr ⟨hx, rfl⟩
  unfold sigHash
  simp only [henc hn.difficulty, henc hn.number, henc hn.gasLimit, henc hn.gasUsed, henc hn.time]
  rfl

omit [Crypto] in
/-- The bytes of a context determine its five hashes. -/
theorem contextBytes_inj {p p' : DposContextProto} (h : contextBytes p = contextBytes p') : p = p' := by
  have hlen : ∀ l : List Hash, ∀ bs ∈ l.map (·.bytes), bs.length < 256 ^ 8 := by
    intro l bs hbs
    obtain ⟨x, _, rfl⟩ := mem_map.mp hbs
    rw [x.length_eq]
    decide
  have hlist := flatten_encodeString_inj (hlen _) (hlen _) h
  simp only [map_cons, map_nil, List.cons.injEq, FixedBytes.bytes_inj, and_true] at hlist
  obtain ⟨h1, h2, h3, h4, h5⟩ := hlist
  cases p
  cases p'
  simp only at h1 h2 h3 h4 h5
  subst h1 h2 h3 h4 h5
  rfl

/-- A header without its signature. -/
def unsealed (h : Header) : Header := { h with extra := h.extra.take (h.extra.length - extraSeal) }

/-- The last 65 bytes of the extra data. -/
def sealOf (h : Header) : Bytes := h.extra.drop (h.extra.length - extraSeal)

/-- The fields determine all of the header but its signature, if the hash of the
context determines the context. -/
theorem sigFields_inj {h h' : Header} (hn : NonNegative h) (hn' : NonNegative h')
    (hroot : h.dposContext.root = h'.dposContext.root → h.dposContext = h'.dposContext)
    (hfields : sigFields h = sigFields h') : unsealed h = unsealed h' := by
  simp only [sigFields, List.cons.injEq, FixedBytes.bytes_inj, and_true] at hfields
  obtain ⟨hparent, huncle, hvalidator, hcoinbase, hstate, htx, hreceipt, hbloom, hdiff, hnumber, hlimit,
    hused, htime, hextra, hmix, hnonce, hctx⟩ := hfields
  have hdiff := toNat_minimal_inj hn.difficulty hn'.difficulty hdiff
  have hnumber := toNat_minimal_inj hn.number hn'.number hnumber
  have hlimit := toNat_minimal_inj hn.gasLimit hn'.gasLimit hlimit
  have hused := toNat_minimal_inj hn.gasUsed hn'.gasUsed hused
  have htime := toNat_minimal_inj hn.time hn'.time htime
  have hctx := hroot hctx
  simp only [unsealed, Header.mk.injEq]
  exact ⟨hparent, huncle, hvalidator, hcoinbase, hstate, htx, hreceipt, hctx, hbloom, hdiff, hnumber,
    hlimit, hused, htime, hextra, hmix, hnonce⟩

/-- All that is hashed for the seals of two headers. -/
def sealInputs (h h' : Header) : Set Bytes :=
  {encodeStrings (sigFields h), encodeStrings (sigFields h'), contextBytes h.dposContext,
    contextBytes h'.dposContext}

/-- **A seal binds the whole header.** Two headers with the same hash to sign agree in
all but the last 65 bytes of the extra data, the five hashes of the context included;
so with the same signature they are one header and have one hash. -/
theorem sigHash_binds {h h' : Header} (hextra : extraSeal ≤ h.extra.length)
    (hextra' : extraSeal ≤ h'.extra.length) (hn : NonNegative h) (hn' : NonNegative h')
    (hsize : (encodeStrings (sigFields h)).length < 2 ^ 64)
    (hfree : NoCollision (sealInputs h h')) (hsig : sigHash h = sigHash h') :
    unsealed h = unsealed h' ∧ h.extra.length = h'.extra.length ∧ h.dposContext = h'.dposContext ∧
      (sealOf h = sealOf h' → h = h' ∧ h.hash = h'.hash) := by
  have hroot : h.dposContext.root = h'.dposContext.root → h.dposContext = h'.dposContext := by
    intro heq
    rw [root_eq, root_eq] at heq
    exact contextBytes_inj (hfree _ (by simp [sealInputs]) _ (by simp [sealInputs]) heq)
  rw [sigHash_eq hn, sigHash_eq hn'] at hsig
  have henc := hfree _ (by simp [sealInputs]) _ (by simp [sealInputs]) hsig
  have hall := sigFields_inj hn hn' hroot (encodeStrings_inj hsize henc)
  have hfront : h.extra.take (h.extra.length - extraSeal) = h'.extra.take (h'.extra.length - extraSeal) :=
    congrArg (·.extra) hall
  refine ⟨hall, ?_, congrArg (·.dposContext) hall, ?_⟩
  · have hlen := congrArg List.length hfront
    rw [length_take, length_take] at hlen
    omega
  intro hseal
  have hheader : h = h' := by
    have hback : h.extra.drop (h.extra.length - extraSeal) = h'.extra.drop (h'.extra.length - extraSeal) :=
      hseal
    have hwhole : h.extra = h'.extra := by
      rw [← take_append_drop (h.extra.length - extraSeal) h.extra, hfront, hback,
        take_append_drop]
    calc h = { unsealed h with extra := h.extra } := rfl
      _ = { unsealed h' with extra := h'.extra } := by rw [hall, hwhole]
      _ = h' := rfl
  exact ⟨hheader, congrArg Header.hash hheader⟩

end

/-! ## Two signatures of one header -/

section
open Sample

/-- The block that another validator has signed in the same way but for the seal. -/
def resealed : Header :=
  { header 1 10 (address 1) (.zero 32) with extra := List.replicate 77 0 ++ (address 2).bytes }

theorem sigHash_binds_resealed : sigHash (header 1 10 (address 1) (.zero 32)) = sigHash resealed ∧
      unsealed (header 1 10 (address 1) (.zero 32)) = unsealed resealed ∧
      (header 1 10 (address 1) (.zero 32)).extra.length = resealed.extra.length ∧
      (header 1 10 (address 1) (.zero 32)).dposContext = resealed.dposContext ∧
      (sealOf (header 1 10 (address 1) (.zero 32)) = sealOf resealed →
        header 1 10 (address 1) (.zero 32) = resealed ∧
          (header 1 10 (address 1) (.zero 32)).hash = resealed.hash) := by
  have hsig : sigHash (header 1 10 (address 1) (.zero 32)) = sigHash resealed := rfl
  have hnonneg : ∀ h ∈ [header 1 10 (address 1) (.zero 32), resealed], NonNegative h := by
    intro h hh
    simp only [mem_cons, not_mem_nil, or_false] at hh
    rcases hh with rfl | rfl
    · exact ⟨by decide, by decide, by decide, by decide, by decide⟩
    · exact ⟨by decide, by decide, by decide, by decide, by decide⟩
  -- the two headers have the same bytes to hash, and the context has others
  have hfields : sigFields (header 1 10 (address 1) (.zero 32)) = sigFields resealed := rfl
  have hfree : NoCollision (sealInputs (header 1 10 (address 1) (.zero 32)) resealed) := by
    have hctx : keccak256 (encodeStrings (sigFields resealed)) ≠
        keccak256 (contextBytes proto) := by decide +kernel
    have hinputs : ∀ x ∈ sealInputs (header 1 10 (address 1) (.zero 32)) resealed,
        x = encodeStrings (sigFields resealed) ∨ x = contextBytes proto := by
      intro x hx
      rcases hx with hx | hx | hx | hx
      · exact .inl (hx.trans (congrArg encodeStrings hfields))
      · exact .inl hx
      · exact .inr hx
      · exact .inr hx
    intro a ha b hb heq
    rcases hinputs a ha with ha | ha
    · rcases hinputs b hb with hb | hb
      · exact ha.trans hb.symm
      · rw [ha, hb] at heq
        exact absurd heq hctx
    · rcases hinputs b hb with hb | hb
      · rw [ha, hb] at heq
        exact absurd heq.symm hctx
      · exact ha.trans hb.symm
  exact ⟨hsig, sigHash_binds (by decide) (by decide) (hnonneg _ (by simp)) (hnonneg _ (by simp))
    (by decide +kernel) hfree hsig⟩

end

end Bgmchain.Dpos
