import Bgmchain.Consensus.Dpos.Outsiders
import Bgmchain.Consensus.Dpos.Schedule
import Bgmchain.Consensus.Dpos.SealBinding
import Bgmchain.Core.Import
import Bgmchain.Trie.Decode

/-! # One producer per slot

A chain of blocks that were each accepted on top of their parent. Within an epoch
nothing changes the epoch trie, so the hash of it in the header of the epoch's first
block fixes the validators that `verifySeal` asks for until the epoch ends. The first
block itself is still signed by the validators before it. -/
namespace Bgmchain.Dpos
open Common List
open Lib.Hoare (Keeps stateAfter except_bind_ok_iff)

/-! ## The validators under a hash -/

variable {proto : DposContextProto} {d : DposContext} {validators : List Address}

theorem newFromProto_epochTrie {db : NodeDatabase} (hd : DposContext.newFromProto db proto = .ok d) :
    Trie.new proto.epochHash epochPrefix db = .ok d.epochTrie := by
  obtain ⟨epochTrie, hepoch, hd⟩ := except_bind_ok_iff.mp hd
  iterate 4 obtain ⟨_, _, hd⟩ := except_bind_ok_iff.mp hd
  cases hd
  exact hepoch

/-- The validators are read from the epoch trie. -/
theorem Elected.epochTrie {db : NodeDatabase} (h : Elected db proto validators) :
    ∃ t bs, Trie.new proto.epochHash epochPrefix db = .ok t ∧ (t.get DposContext.validatorKey).1 = some bs ∧
      DposContext.decodeValidators bs = some validators := by
  obtain ⟨d, hd, hvalidators⟩ := h
  unfold DposContext.getValidators at hvalidators
  dsimp only at hvalidators
  split at hvalidators
  · cases hvalidators
  next l hdec =>
    cases hvalidators
    cases hget : (d.epochTrie.get DposContext.validatorKey).1 with
    | none =>
      rw [hget] at hdec
      cases hdec
    | some bs =>
      rw [hget] at hdec
      exact ⟨d.epochTrie, bs, newFromProto_epochTrie hd, hget, hdec⟩

section
variable [Crypto]

/-- A context with this hash of its epoch trie lists these validators, in a store of
strings of `P`. -/
def Lists (P : Set Bytes) (proto : DposContextProto) (validators : List Address) : Prop :=
  ∃ get bound, Keyed P get ∧ Elected (.ofStore get bound) proto validators

/-- The hash of the epoch trie determines the validators. -/
theorem Lists.unique {P : Set Bytes} (hP : NoCollision P) {proto' : DposContextProto} {l l' : List Address}
    (h : Lists P proto l) (h' : Lists P proto' l') (hhash : proto.epochHash = proto'.epochHash) : l = l' := by
  obtain ⟨get, bound, hget, helected⟩ := h
  obtain ⟨get', bound', hget', helected'⟩ := h'
  obtain ⟨t, bs, ht, hbs, hl⟩ := helected.epochTrie
  obtain ⟨t', bs', ht', hbs', hl'⟩ := helected'.epochTrie
  rw [← hhash] at ht'
  have heq : bs = bs' := Keyed.get_eq hP hget hget' ht ht' hbs hbs'
  rw [heq, hl'] at hl
  exact (Option.some.inj hl).symm

end

/-! ## Finalizing within an epoch -/

section
variable [Crypto] [Rand]

/-- Without a change of epoch there is no election. -/
theorem tryElect_same_epoch {balance : Address → Int} {ts first : Int} {genesis parent : Header}
    (h : epochOf ts ≤ epochOf (int64 parent.time)) : tryElect balance ts first genesis parent d = .ok () d := by
  rw [tryElect_eq, (rounds_eq_zero_iff ts genesis parent).mpr h]
  rfl

variable {σ : Type} [StateDB σ]

/-- Within an epoch `Finalize` leaves the epoch trie. -/
theorem finalize_epochTrie {chain : ChainReader} {first : Int} {header parent : Header} {state : σ}
    (hparent : chain.getHeaderByHash header.parentHash = some parent)
    (h : epochOf (int64 header.time) ≤ epochOf (int64 parent.time)) :
    (finalize chain first header state d).dposContext.epochTrie = d.epochTrie := by
  cases hgenesis : chain.getHeaderByNumber 0 with
  | none => simp [finalize, hgenesis]
  | some genesis =>
    have hkeep := updateMintCnt_keeps (I := (·.epochTrie = d.epochTrie)) (fun _ _ h => h) (fun _ _ _ h => h)
      (int64 parent.time) (int64 header.time) header.validator d rfl
    rw [finalize_eq hgenesis hparent, electAndCount_eq]
    rw [tryElect_same_epoch h]
    dsimp only
    cases hcount : updateMintCnt (int64 parent.time) (int64 header.time) header.validator d with
    | ok u d' | error err d' =>
      rw [hcount] at hkeep
      exact hkeep

end

end Bgmchain.Dpos

namespace Bgmchain.Core
open Common List
open Dpos (blockInterval epochInterval epochOf parentOf Turn turnAt Lists NonNegative contextBytes)
open Lib.Hoare (except_bind_ok_iff)

section
variable {σ : Type} [Execution σ]

/-! ## Slots -/

/-- The epoch and the slot that the time of a block lies in. -/
def Block.epoch (b : Block σ) : Int := epochOf (int64 b.header.time)

def Block.slot (b : Block σ) : Int := (int64 b.header.time).tdiv blockInterval

def slotsPerEpoch : Nat := (epochInterval.tdiv blockInterval).toNat

/-- How many slots of an epoch fall to an address among these validators. -/
def slotsGiven (validators : List Address) (a : Address) : Nat :=
  (List.range slotsPerEpoch).countP fun s => validators[s % validators.length]? = some a

/-- The place of a block's slot in its epoch. -/
def Block.slotIndex (b : Block σ) : Nat := ((b.header.time.tmod epochInterval).tdiv blockInterval).toNat

variable {b : Block σ} {validators : List Address}

section
variable (h : 0 ≤ b.header.time)
include h

theorem Block.slotIndex_eq : (b.slotIndex : Int) = b.header.time % epochInterval / blockInterval := by
  have hmod : 0 ≤ b.header.time % epochInterval := Int.emod_nonneg _ (by decide)
  unfold Block.slotIndex
  rw [Int.tmod_eq_emod_of_nonneg h, Int.tdiv_eq_ediv_of_nonneg hmod]
  exact Int.toNat_of_nonneg (Int.ediv_nonneg hmod (by decide))

theorem Block.slotIndex_lt : b.slotIndex < slotsPerEpoch := by
  have heq := b.slotIndex_eq h
  have hslots : slotsPerEpoch = 8640 := rfl
  unfold epochInterval blockInterval at heq
  omega

/-- Within an epoch a later block has a later slot. -/
theorem Block.slotIndex_lt_of_time {b' : Block σ} (hlt : b'.header.time < 2 ^ 63)
    (hepoch : b.epoch = b'.epoch) (htime : b.header.time + blockInterval ≤ b'.header.time) :
    b.slotIndex < b'.slotIndex := by
  have h' : 0 ≤ b'.header.time := by
    unfold blockInterval at htime
    omega
  have heq := b.slotIndex_eq h
  have heq' := b'.slotIndex_eq h'
  unfold Block.epoch epochOf at hepoch
  rw [int64_of_isInt64 ⟨by omega, by unfold blockInterval at htime; omega⟩, int64_of_isInt64 ⟨by omega, hlt⟩,
    Int.tdiv_eq_ediv_of_nonneg h, Int.tdiv_eq_ediv_of_nonneg h'] at hepoch
  unfold epochInterval blockInterval at *
  omega

/-- Whose turn it is depends on the slot's place in the epoch. -/
theorem Block.turn_slotIndex (hlt : b.header.time < 2 ^ 63)
    {v : Address} (hturn : Turn (int64 b.header.time) validators v) :
    validators[b.slotIndex % validators.length]? = some v := by
  have hval := hturn.validator
  rw [int64_of_isInt64 ⟨by omega, hlt⟩] at hval
  have hmod : 0 ≤ b.header.time.tmod epochInterval := Int.tmod_nonneg _ h
  have hindex : (turnAt b.header.time validators.length).toNat = b.slotIndex % validators.length := by
    have hnonneg : 0 ≤ (b.header.time.tmod epochInterval).tdiv blockInterval := Int.tdiv_nonneg hmod (by decide)
    unfold turnAt Block.slotIndex
    rw [Int.tmod_eq_emod_of_nonneg hnonneg, Int.toNat_emod hnonneg (Int.natCast_nonneg _), Int.toNat_natCast]
  rwa [hindex] at hval

end

/-! ## Accepted blocks -/

variable [Crypto] [Rand]

/-- Somewhere `verifyHeader`, `verifySeal` and `ValidateDposState` have passed the block
on top of its parent, with a store of strings of `P` for the tries. The header has been
decoded, so that its integers are not negative, and the clock shows an `int64`. -/
structure Accepted (P : Set Bytes) (get : Hash → Option Bytes) (bound : Nat) (parent block : Block σ) : Prop where
  keyed : Keyed P get
  decoded : NonNegative block.header
  verifyHeader : ∃ now chain parents, IsInt64 now ∧ parentOf chain block.header parents = some parent.header ∧
    Dpos.verifyHeader now chain block.header parents = .ok ()
  verifySeal : ∃ putOk chain parents e e', e.db = .ofStore get bound ∧
    parentOf chain block.header parents = some parent.header ∧
    Dpos.verifySeal putOk chain block.header parents e = .ok () e'
  validateDposState : ∃ chain first state d p, chain.getHeaderByHash block.header.parentHash = some parent.header ∧
    DposContext.newFromProto (.ofStore get bound) parent.header.dposContext = .ok d ∧
    process chain first block state d = .ok p ∧ BlockChain.validateDposState block p.dposContext = .ok () ∧
    contextBytes block.header.dposContext ∈ P ∧ contextBytes p.dposContext.toProto ∈ P

/-- Blocks in order, each accepted on top of the one before it, the first on `parent`. -/
def AcceptedChain (P : Set Bytes) : Block σ → List (Block σ) → Prop
  | _, [] => True
  | parent, block :: rest => (∃ get bound, Accepted P get bound parent block) ∧ AcceptedChain P block rest

section
variable {P : Set Bytes} {get : Hash → Option Bytes} {bound : Nat} {parent block : Block σ}

section
variable (h : Accepted P get bound parent block)
include h

theorem Accepted.follows : Dpos.Follows parent.header block.header := by
  obtain ⟨now, chain, parents, _, hparent, hok⟩ := h.verifyHeader
  exact Dpos.AcceptedOn.follows ⟨now, chain, parents, hparent, hok⟩

theorem Accepted.time : 0 ≤ block.header.time ∧ block.header.time < 2 ^ 63 := by
  obtain ⟨now, chain, parents, hnow, _, hok⟩ := h.verifyHeader
  exact ⟨h.decoded.time, (Dpos.verifyHeader_ok_iff.mp hok).1.time.trans_lt hnow.2⟩

theorem Accepted.int64_time : int64 block.header.time = block.header.time := by
  obtain ⟨h0, hlt⟩ := h.time
  exact int64_of_isInt64 ⟨by omega, hlt⟩

theorem Accepted.sealed : Dpos.Sealed (.ofStore get bound) parent.header block.header := by
  obtain ⟨putOk, chain, parents, e, e', hdb, hparent, hok⟩ := h.verifySeal
  obtain ⟨_, parent', hparent', hsealed⟩ := Dpos.checkSeal_ok_iff.mp (Dpos.verifySeal_ok_iff.mp hok).1
  rw [hparent] at hparent'
  cases hparent'
  exact hdb ▸ hsealed

/-- Epochs do not go back, not even after a genesis block with a time of its own. -/
theorem Accepted.epoch_le : parent.epoch ≤ block.epoch := by
  obtain ⟨h0, hlt⟩ := h.time
  have hearly := h.follows.time
  unfold Block.epoch
  rw [h.int64_time]
  unfold Dpos.timeTooEarly at hearly
  rw [decide_eq_false_iff_not] at hearly
  -- where the sum wraps around, the low bits of the parent's time stand for at most ten
  have hparent : int64 parent.header.time ≤ max 10 block.header.time := by
    unfold int64 uint64 blockInterval at *
    omega
  refine (Int.tdiv_le_tdiv (by decide) hparent).trans ?_
  unfold epochOf
  rw [Int.tdiv_eq_ediv_of_nonneg h0, Int.tdiv_eq_ediv_of_nonneg (by omega)]
  unfold epochInterval
  omega

/-- On top of an accepted block the time goes on by a slot at least. -/
theorem Accepted.time_le (hparent : 0 ≤ parent.header.time ∧ parent.header.time < 2 ^ 63) :
    parent.header.time + blockInterval ≤ block.header.time := by
  obtain ⟨h0, hlt⟩ := h.time
  have hearly := h.follows.time
  unfold Dpos.timeTooEarly at hearly
  rw [decide_eq_false_iff_not] at hearly
  unfold uint64 blockInterval at *
  omega

/-- Within an epoch the hash of the epoch trie goes from the parent's header to the
block's. -/
theorem Accepted.epochHash_eq (hP : NoCollision P) (hepoch : block.epoch = parent.epoch) :
    block.header.dposContext.epochHash = parent.header.dposContext.epochHash := by
  obtain ⟨chain, first, state, d, q, hparent, hd, hprocess, hvalid, hmem, hmem'⟩ := h.validateDposState
  obtain ⟨p, hrun, _, rfl⟩ := process_ok_iff.mp hprocess
  obtain ⟨validators, _, helected, _⟩ := h.sealed
  obtain ⟨t, _, ht, hget, _⟩ := helected.epochTrie
  have hroot := BlockChain.validateDposState_ok_iff.mp hvalid
  rw [← DposContext.root_toProto, Dpos.root_eq, Dpos.root_eq] at hroot
  have hproto := Dpos.contextBytes_inj (hP _ hmem _ hmem' hroot)
  rw [hproto]
  show (Dpos.finalize chain first block.header p.state p.dposContext).dposContext.epochTrie.hash = _
  rw [Dpos.finalize_epochTrie hparent hepoch.le, runTransactions_epochTrie hrun]
  exact Trie.new_hash (Dpos.newFromProto_epochTrie hd) (Trie.root_of_get ht hget)

end

end

/-! ## Accepted chains -/

section
variable {P : Set Bytes} {genesis parent : Block σ} {blocks : List (Block σ)}

/-- Each block of a chain carries the rest of it. -/
theorem AcceptedChain.split : ∀ {older : List (Block σ)} {genesis first : Block σ} {blocks later : List (Block σ)},
    AcceptedChain P genesis blocks → genesis :: blocks = older ++ first :: later → AcceptedChain P first later := by
  intro older
  induction older with
  | nil =>
    intro genesis first blocks later h heq
    cases heq
    exact h
  | cons b older ih =>
    intro genesis first blocks later h heq
    obtain ⟨rfl, htail⟩ := List.cons.inj heq
    cases blocks with
    | nil => cases older <;> cases htail
    | cons c rest => exact ih h.2 htail

section
variable (h : AcceptedChain P parent blocks)
include h

theorem AcceptedChain.time : ∀ b ∈ blocks, 0 ≤ b.header.time ∧ b.header.time < 2 ^ 63 := by
  induction blocks generalizing parent with
  | nil => exact nofun
  | cons c rest ih =>
    obtain ⟨⟨get, bound, hc⟩, hrest⟩ := h
    intro b hb
    rcases mem_cons.mp hb with rfl | hb
    · exact hc.time
    · exact ih hrest b hb

theorem AcceptedChain.time_le (hparent : 0 ≤ parent.header.time ∧ parent.header.time < 2 ^ 63) :
    ∀ b ∈ blocks, parent.header.time + blockInterval ≤ b.header.time := by
  induction blocks generalizing parent with
  | nil => exact nofun
  | cons c rest ih =>
    obtain ⟨⟨get, bound, hc⟩, hrest⟩ := h
    have hle := hc.time_le hparent
    intro b hb
    rcases mem_cons.mp hb with rfl | hb
    · exact hle
    · have := ih hrest hc.time b hb
      have : 0 < blockInterval := by decide
      omega

/-- The times of a chain are a slot apart at least. -/
theorem AcceptedChain.pairwise :
    blocks.Pairwise fun b b' => b.header.time + blockInterval ≤ b'.header.time := by
  induction blocks generalizing parent with
  | nil => exact List.Pairwise.nil
  | cons c rest ih =>
    obtain ⟨⟨get, bound, hc⟩, hrest⟩ := h
    exact pairwise_cons.mpr ⟨hrest.time_le hc.time, ih hrest⟩

theorem AcceptedChain.epoch_le : ∀ b ∈ blocks, parent.epoch ≤ b.epoch := by
  induction blocks generalizing parent with
  | nil => exact nofun
  | cons c rest ih =>
    obtain ⟨⟨get, bound, hc⟩, hrest⟩ := h
    intro b hb
    rcases mem_cons.mp hb with rfl | hb
    · exact hc.epoch_le
    · exact hc.epoch_le.trans (ih hrest b hb)

/-- Whoever follows a block in its epoch is signed by the turn among the validators that
the block has left. -/
theorem AcceptedChain.signed (hP : NoCollision P) :
    ∀ b ∈ blocks, b.epoch = parent.epoch → ∃ validators, Lists P parent.header.dposContext validators ∧
      Turn (int64 b.header.time) validators b.header.validator ∧
      Dpos.ecrecover b.header = .ok b.header.validator := by
  induction blocks generalizing parent with
  | nil => exact nofun
  | cons c rest ih =>
    obtain ⟨⟨get, bound, hc⟩, hrest⟩ := h
    obtain ⟨validators, v, helected, hturn, hrecover, rfl⟩ := hc.sealed
    have hlists : Lists P parent.header.dposContext validators := ⟨get, bound, hc.keyed, helected⟩
    intro b hb hepoch
    rcases mem_cons.mp hb with rfl | hb
    · exact ⟨validators, hlists, hturn, hrecover⟩
    -- the block between is of the same epoch and hands the validators on
    · have hle := hc.epoch_le
      have hle' := hrest.epoch_le b hb
      have hc_epoch : c.epoch = parent.epoch := by omega
      obtain ⟨l, hl, hsigned⟩ := ih hrest b hb (hepoch.trans hc_epoch.symm)
      obtain rfl := hl.unique hP hlists (hc.epochHash_eq hP hc_epoch)
      exact ⟨l, hlists, hsigned⟩

end

/-! ## Producers -/

/-- How many of these blocks lie in the epoch and are signed by an address. -/
def produced (blocks : List (Block σ)) (epoch : Int) (a : Address) : Nat :=
  blocks.countP fun b => b.epoch = epoch ∧ Dpos.ecrecover b.header = .ok a

omit [Common.Rand] in
/-- Blocks of one epoch, a slot apart at least and each signed in its turn, are no more
than the turns. -/
theorem produced_le {blocks : List (Block σ)} {epoch : Int} (a : Address)
    (htime : ∀ b ∈ blocks, 0 ≤ b.header.time ∧ b.header.time < 2 ^ 63)
    (hapart : blocks.Pairwise fun b b' => b.header.time + blockInterval ≤ b'.header.time)
    (hturn : ∀ b ∈ blocks, b.epoch = epoch → Turn (int64 b.header.time) validators b.header.validator ∧
      Dpos.ecrecover b.header = .ok b.header.validator) : produced blocks epoch a ≤ slotsGiven validators a := by
  unfold produced slotsGiven
  rw [countP_eq_length_filter, countP_eq_length_filter]
  generalize hmine : blocks.filter _ = mine
  have hmem : ∀ b ∈ mine, b ∈ blocks ∧ b.epoch = epoch ∧ Dpos.ecrecover b.header = .ok a := by
    intro b hb
    rw [← hmine, mem_filter, decide_eq_true_eq] at hb
    exact hb
  have hsub : mine.Sublist blocks := hmine ▸ filter_sublist
  have hnodup : (mine.map Block.slotIndex).Nodup := by
    refine pairwise_map.mpr ((hapart.sublist hsub).imp_of_mem ?_)
    intro b b' hb hb' hle
    obtain ⟨hin, hepoch, _⟩ := hmem b hb
    obtain ⟨hin', hepoch', _⟩ := hmem b' hb'
    exact (Block.slotIndex_lt_of_time (htime b hin).1 (htime b' hin').2 (hepoch.trans hepoch'.symm) hle).ne
  have hslots : mine.map Block.slotIndex ⊆
      (List.range slotsPerEpoch).filter fun s => validators[s % validators.length]? = some a := by
    intro s hs
    obtain ⟨b, hb, rfl⟩ := mem_map.mp hs
    obtain ⟨hin, hepoch, hrecover⟩ := hmem b hb
    obtain ⟨hvalidator, hrecover'⟩ := hturn b hin hepoch
    obtain ⟨h0, hlt⟩ := htime b hin
    have ha : b.header.validator = a := Except.ok.inj (hrecover'.symm.trans hrecover)
    rw [mem_filter, mem_range, decide_eq_true_eq]
    exact ⟨Block.slotIndex_lt h0, ha ▸ Block.turn_slotIndex h0 hlt hvalidator⟩
  have hle := (subperm_of_subset hnodup hslots).length_le
  rwa [length_map] at hle

end

end

/-! ## The first block of an epoch -/

/-- A validator has no slot where it is not listed. -/
theorem slotsGiven_eq_zero {validators : List Address} {a : Address} (h : a ∉ validators) :
    slotsGiven validators a = 0 := by
  refine countP_eq_zero.mpr ?_
  intro s _ hs
  exact h (mem_of_getElem? (of_decide_eq_true hs))

section
open Dpos.Sample Sample

/-- Strings under their hashes. -/
def storeOf (entries : List Bytes) (h : Hash) : Option Bytes := entries.find? fun bs => Crypto.keccak256 bs = h

theorem storeOf_keyed {entries : List Bytes} {P : Set Bytes} (h : ∀ bs ∈ entries, bs ∈ P) :
    Keyed P (storeOf entries) := by
  constructor
  · intro k bs hbs
    have hkey := List.find?_some hbs
    exact of_decide_eq_true hkey
  · intro k bs hbs
    exact h bs (mem_of_find?_eq_some hbs)

/-- One validator, which is no candidate any more, and three candidates. -/
def outgoing : DposContext := Dpos.staged [address 1] [address 2, address 3, address 4] []

def outgoingStore : List Bytes := outgoing.epochTrie.preimages ++ outgoing.candidateTrie.preimages

def outgoingGenesis : Header := { header 0 0 (address 0) (.zero 32) with dposContext := outgoing.toProto }

def outgoingReader : Dpos.ChainReader := reader outgoingGenesis outgoingGenesis

/-- The block of the validator in the first slot of the next epoch, without its context. -/
def openingDraft : Header := header 1 86400 (address 1) outgoingGenesis.hash

/-- The context after the election. -/
def incoming : DposContext :=
  match DposContext.newFromProto (.ofStore (storeOf outgoingStore) 64) outgoing.toProto with
  | .ok d => (Dpos.finalize outgoingReader 0 openingDraft (fun _ => 0 : Address → Int) d).dposContext
  | .error _ => outgoing

def opening : Header := { openingDraft with dposContext := incoming.toProto }

def incomingStore : List Bytes :=
  incoming.epochTrie.preimages ++ incoming.mintCntTrie.preimages ++ outgoingStore

/-- All that is hashed. -/
def openingStrings : List Bytes := contextBytes incoming.toProto :: incomingStore

theorem openingStrings_noCollision : NoCollision {bs | bs ∈ openingStrings} := by
  have hdistinct : (openingStrings.map Crypto.keccak256).Nodup := by decide +kernel
  intro a ha b hb heq
  exact inj_on_of_nodup_map hdistinct ha hb heq

theorem ok_of_any {ε α : Type} {x : Except ε α} {p : α → Bool} (h : x.toOption.any p = true) : ∃ a, x = .ok a ∧ p a = true := by
  cases x with
  | error e => cases h
  | ok a => exact ⟨a, rfl, h⟩

theorem opening_processed :
    ∃ d p, DposContext.newFromProto (.ofStore (storeOf outgoingStore) 64) outgoing.toProto = .ok d ∧
      process outgoingReader 0 (empty opening) (fun _ => 0) d = .ok p ∧
      p.dposContext.toProto = incoming.toProto := by
  have hrun : (DposContext.newFromProto (.ofStore (storeOf outgoingStore) 64) outgoing.toProto).toOption.any (fun d =>
      (process outgoingReader 0 (empty opening) (fun _ => 0 : Address → Int) d).toOption.any fun p =>
        p.dposContext.toProto = incoming.toProto) = true := by
    decide +kernel
  obtain ⟨d, hd, hrun⟩ := ok_of_any hrun
  obtain ⟨p, hp, hproto⟩ := ok_of_any hrun
  exact ⟨d, p, hd, hp, of_decide_eq_true hproto⟩

theorem opening_sealed : ∃ e', Dpos.verifySeal true outgoingReader opening [outgoingGenesis]
      ⟨.ofStore (storeOf outgoingStore) 64, address 0, none, none⟩ = .ok () e' := by
  have hrun : (Dpos.verifySeal true outgoingReader opening [outgoingGenesis]).run'
      ⟨.ofStore (storeOf outgoingStore) 64, address 0, none, none⟩ = some () := by
    decide +kernel
  cases hseal : Dpos.verifySeal true outgoingReader opening [outgoingGenesis]
      ⟨.ofStore (storeOf outgoingStore) 64, address 0, none, none⟩ with
  | ok u e' => exact ⟨e', rfl⟩
  | error e e' =>
    rw [EStateM.run', EStateM.run, hseal] at hrun
    cases hrun

theorem opening_accepted : Accepted {bs | bs ∈ openingStrings} (storeOf outgoingStore) 64
    (empty outgoingGenesis) (empty opening) := by
  have hstore : ∀ bs ∈ outgoingStore, bs ∈ openingStrings := by
    intro bs hbs
    exact mem_cons_of_mem _ (mem_append_right _ hbs)
  obtain ⟨d, p, hd, hprocess, hproto⟩ := opening_processed
  obtain ⟨e', hseal⟩ := opening_sealed
  refine ⟨storeOf_keyed hstore, ⟨by decide, by decide, by decide, by decide, by decide⟩,
    ⟨86400, outgoingReader, [outgoingGenesis], ⟨by decide, by decide⟩, rfl, by decide +kernel⟩,
    ⟨true, outgoingReader, [outgoingGenesis], _, e', rfl, rfl, hseal⟩,
    ⟨outgoingReader, 0, fun _ => 0, d, p, rfl, hd, hprocess, ?_, mem_cons_self, ?_⟩⟩
  · refine BlockChain.validateDposState_ok_iff.mpr ?_
    rw [← DposContext.root_toProto, hproto]
    rfl
  · rw [hproto]
    exact mem_cons_self

theorem opening_chain : AcceptedChain {bs | bs ∈ openingStrings} (empty outgoingGenesis) [empty opening] :=
  ⟨⟨_, _, opening_accepted⟩, trivial⟩

end

end Bgmchain.Core
