import Bgmchain.Consensus.Dpos.Outsiders
import Bgmchain.Consensus.Dpos.Success

/-! # The time of the first block

`Finalize` fills a global of the package with the time of block 1 when it first
finds one, and never again. What the election asks of a validator depends on it,
so two nodes that hold the same ancestors of a block may finalize it differently,
if they have seen different blocks with number 1. -/
namespace Bgmchain.Dpos
open Common List
open Lib.Hoare (Keeps)

variable {ts : Int} {genesis parent : Header}

section
variable [Crypto] {first first' : Int}

/-- Through the blocks it asks for is the only way that the time of the first block
gets into a kickout. -/
theorem kickoutTurn_congr (epoch : Int) {isGenesis : Bool}
    (h : minBlocks ts first = minBlocks ts first' ∨ isGenesis = true) :
    kickoutTurn ts first epoch isGenesis = kickoutTurn ts first' epoch isGenesis := by
  rcases h with h | h
  · funext iter
    simp only [kickoutTurn, kickoutValidator, h]
  · subst h
    rfl

variable [Rand]

theorem electLoop_congr {balance : Address → Int} {epoch : Int} {isGenesis : Bool} {parentHash : Hash} {n : Nat}
    (h : minBlocks ts first = minBlocks ts first' ∨ isGenesis = true ∨ n = 0) :
    ∀ i iter, electLoop balance ts first epoch isGenesis parentHash n i iter =
      electLoop balance ts first' epoch isGenesis parentHash n i iter := by
  induction n with
  | zero => intro i iter; rfl
  | succ n ih =>
    intro i iter
    have hturn : minBlocks ts first = minBlocks ts first' ∨ isGenesis = true :=
      h.imp_right fun h => h.resolve_right (Nat.succ_ne_zero n)
    have hrest := ih (hturn.imp_right .inl)
    simp only [electLoop, kickoutTurn_congr epoch hturn, hrest]

/-- Two times of the first block lead to the same election. -/
theorem tryElect_congr {balance : Address → Int} (h : minBlocks ts first = minBlocks ts first' ∨
      epochOf (int64 parent.time) = epochOf (int64 genesis.time) ∨
      epochOf ts ≤ epochOf (int64 parent.time)) (d : DposContext) :
    tryElect balance ts first genesis parent d = tryElect balance ts first' genesis parent d := by
  rw [tryElect_eq, tryElect_eq]
  refine congrFun (electLoop_congr ?_ _ _) d
  refine h.imp_right fun h => ?_
  by_cases hg : epochOf (int64 parent.time) = epochOf (int64 genesis.time)
  · exact .inl (decide_eq_true hg)
  · right
    rw [electFrom_of_ne hg]
    have := h.resolve_left hg
    omega

end

/-! ## A validator between two minima -/

section
open Sample

/-- One validator among four candidates, with a count of blocks for an epoch. -/
def borderline (epoch count : Int) : DposContext :=
  staged [address 1] outsiders [(mintCntKey epoch (address 1), putUint64 (uint64OfInt64 count))]

def borderlineBooks (epoch count : Int) : Books :=
  stagedBooks [address 1] outsiders [(mintCntKey epoch (address 1), putUint64 (uint64OfInt64 count))]

variable {epoch count : Int}

theorem borderline_keeping : Keeping (borderline epoch count) (borderlineBooks epoch count) := by
  refine staged_keeping [address 1] outsiders ?_
  intro e he
  rw [mem_singleton.mp he]
  exact putUint64_ne_nil _

theorem borderline_entry {k b : Bytes} : (borderlineBooks epoch count).mintCnt k = some b ↔
    k = mintCntKey epoch (address 1) ∧ b = putUint64 (uint64OfInt64 count) := by
  show mapOf [(_, _)] k = some b ↔ _
  rw [mapOf_eq_some (by simp), mem_singleton, Prod.mk.injEq]

theorem borderline_sound (e : Int) : (borderlineBooks epoch count).Sound e := by
  refine ⟨?_, fun v => countOf_ne_none_iff.mpr fun b hb => ?_⟩
  · intro k v hv
    obtain ⟨c, _, hc⟩ := (staged_candidate outsiders_nodup).mp hv
    exact ⟨c, hc⟩
  · rw [(borderline_entry.mp hb).2, length_putUint64]

theorem borderline_regular : Regular (borderline epoch count) :=
  borderline_keeping.regular_iff.mpr borderline_sound

theorem borderline_countOf (hcount : IsInt64 count) :
    countOf (borderlineBooks epoch count).mintCnt epoch (address 1) = some count := by
  have hread : int64 (uint64OfInt64 count) = count := by
    unfold IsInt64 at hcount
    unfold uint64OfInt64 int64
    omega
  unfold countOf
  rw [borderline_entry.mpr ⟨rfl, rfl⟩]
  dsimp only
  rw [getUint64_putUint64 (uint64OfInt64_lt count)]
  exact congrArg some hread

/-- There is one count for the epoch. -/
theorem borderline_counters : mintCounters (borderline epoch count) epoch = 1 := by
  have h : Keeping (borderline epoch count) (borderlineBooks epoch count) := borderline_keeping
  obtain ⟨es, hes, hy⟩ := h.mintCnt.newPrefix (putUint64_ne_nil (uint64OfInt64 epoch))
  rw [mintCounters, hy.toList_eq, length_map,
    hes.length_eq (nodup_singleton (mintCntKey epoch (address 1))), length_singleton]
  intro k
  rw [mem_singleton, Option.ne_none_iff_exists']
  constructor
  · intro hk
    exact ⟨hk ▸ prefix_append _ _, _, borderline_entry.mpr ⟨hk, rfl⟩⟩
  · rintro ⟨_, b, hb⟩
    exact (borderline_entry.mp hb).1

variable [Crypto]

/-- The validator is kicked out when its count is below the minimum. -/
theorem borderline_judged {first : Int} (hcount : IsInt64 count) {kicked : List (Address × Int)}
    (hj : Judged ts first epoch (borderlineBooks epoch count) kicked) :
    (address 1).bytes ∈ kicked.map (·.1.bytes) ↔ count < minBlocks ts first := by
  obtain ⟨vs, need, es, hvs, _, hneed, hes, rfl⟩ := hj
  have hvs' : validatorsOf (borderlineBooks epoch count).epoch = some [address 1] := rfl
  obtain rfl : [address 1] = vs := Option.some.inj (hvs'.symm.trans hvs)
  have hlen : es.length = 4 := staged_entries outsiders_nodup hes
  constructor
  · intro hin
    obtain ⟨e, he, heq⟩ := mem_map.mp hin
    obtain ⟨_, hcnt, hlt⟩ := (mem_needOf hneed).mp (mem_kickedOut he)
    rw [FixedBytes.bytes_inj.mp heq, borderline_countOf hcount] at hcnt
    exact Option.some.inj hcnt ▸ hlt
  · intro hlt
    have hmem : (address 1, count) ∈ need :=
      (mem_needOf hneed).mpr ⟨mem_singleton_self _, borderline_countOf hcount, hlt⟩
    have hmany : safeSize < es.length := by
      rw [hlen]
      decide
    obtain ⟨e, he⟩ := exists_mem_kickedOut (ne_nil_of_mem hmem) hmany
    obtain ⟨hv, _⟩ := (mem_needOf hneed).mp (mem_kickedOut he)
    exact mem_map.mpr ⟨e, he, by rw [mem_singleton.mp hv]⟩

variable [Rand]

/-- What an election makes of the validator. -/
theorem borderline_elect (balance : Address → Int) (first : Int)
    (hg : epochOf (int64 parent.time) ≠ epochOf (int64 genesis.time))
    (hlate : epochOf (int64 parent.time) < epochOf ts) (hcount : IsInt64 count) :
    ∃ d', tryElect balance ts first genesis parent (borderline (epochOf (int64 parent.time)) count) =
        .ok () d' ∧ (d'.candidateEntry (address 1) = none ↔ count < minBlocks ts first) := by
  set epoch := epochOf (int64 parent.time)
  have h : Keeping (borderline epoch count) _ := borderline_keeping
  obtain ⟨es, hes, _⟩ := h.candidateEntries
  obtain ⟨left, hy, hleft⟩ := h.counters epoch
  rw [borderline_counters] at hleft
  obtain ⟨n, hn⟩ : ∃ n, (epochOf ts - epoch).toNat = n + 1 := ⟨(epochOf ts - epoch).toNat - 1, by omega⟩
  have hsize : safeSize ≤ es.length := by
    rw [staged_entries outsiders_nodup hes]
    decide
  obtain ⟨d', hok⟩ := h.electLoop_ok ts first balance parent.hash (n + 1) epoch (borderline_sound _) (.inr hy) hes hsize
    fun _ => ⟨_, validatorsOf_elected (by decide), cons_ne_nil _ _⟩
  refine ⟨d', ?_, ?_⟩
  · rw [tryElect_eq, decide_eq_false hg, electFrom_of_ne hg, hn]
    exact hok
  rcases h.turn balance parent.hash ts first _ (.inr hy) n _ with
    ⟨⟨e, d1, herr, _⟩, _⟩ | ⟨kicked, c, vs, iter1, d1, hk, _, _, heq, h1, hy1, _⟩
  · rw [herr] at hok
    cases hok
  rw [heq] at hok
  -- the first turn takes the only count, so the others judge no one
  have htail : left.tail = [] := eq_nil_of_length_eq_zero (by rw [length_tail, hleft])
  obtain ⟨m', h', hballots⟩ := h1.electLoop_quiet balance parent.hash ts first _ n _ hy1
    (.inr (.inr htail)) hok
  have hjudged : Judged ts first epoch (borderlineBooks epoch count) kicked := by
    rcases hk with ⟨_, hj⟩ | ⟨hno, _⟩
    · exact hj
    · refine absurd ⟨rfl, fun hnil => ?_⟩ hno
      rw [hnil] at hleft
      cases hleft
  have hcand : (borderlineBooks epoch count).ballots.candidates (address 1).bytes = some (address 1).bytes :=
    (staged_candidate outsiders_nodup).mpr ⟨_, mem_cons_self, rfl, rfl⟩
  rw [h'.ballots.candidateEntry, hballots, ← borderline_judged hcount hjudged]
  show (kickAll _ kicked).candidates _ = none ↔ _
  rw [kickAll_candidates, hcand]
  simp

end

/-! ## Two nodes -/

section
variable [Crypto] [Rand] {σ : Type} [StateDB σ]

/-- `Finalize` leaves the candidates as the election does. -/
theorem finalize_candidateTrie {chain : ChainReader} {first : Int} {header : Header} {state : σ}
    {d d' : DposContext} (hg : chain.getHeaderByNumber 0 = some genesis)
    (hp : chain.getHeaderByHash header.parentHash = some parent)
    (helect : tryElect (StateDB.getBalance (rewarded chain header state).2) (int64 header.time)
      (firstBlockTime chain first) genesis parent d = .ok () d') :
    (finalize chain first header state d).dposContext.candidateTrie = d'.candidateTrie := by
  rw [finalize_eq hg hp, electAndCount_eq]
  rw [helect]
  dsimp only
  have hkeeps := updateMintCnt_keeps (I := (·.candidateTrie = d'.candidateTrie)) (fun _ _ h => h) (fun _ _ _ h => h)
    (int64 parent.time) (int64 header.time) header.validator d' rfl
  generalize updateMintCnt (int64 parent.time) (int64 header.time) header.validator d' = r at hkeeps ⊢
  cases r with
  | ok | error => exact hkeeps

/-- Two nodes hold the same ancestors of a block, as far as `Finalize` asks for them. -/
structure SameAncestors (chain chain' : ChainReader) (header genesis parent : Header) : Prop where
  config : chain.config = chain'.config
  first : chain.getHeaderByNumber 0 = some genesis
  first' : chain'.getHeaderByNumber 0 = some genesis
  last : chain.getHeaderByHash header.parentHash = some parent
  last' : chain'.getHeaderByHash header.parentHash = some parent

omit [Crypto] [Common.Rand] in
theorem SameAncestors.rewarded {chain chain' : ChainReader} {header : Header}
    (h : SameAncestors chain chain' header genesis parent) (state : σ) :
    Dpos.rewarded chain header state = Dpos.rewarded chain' header state := by
  simp only [Dpos.rewarded, accumulateRewards, h.config]

/-- **Two nodes that hold the same ancestors of a block finalize it alike, whatever
the context, exactly when their times of the first block ask for as many blocks, or
no one is judged**: the parent is of the genesis epoch, or the block of its parent's. -/
theorem finalize_same_iff {chain chain' : ChainReader} {header genesis parent : Header}
    (h : SameAncestors chain chain' header genesis parent) (first first' : Int) (state : σ) :
    (∀ d, Regular d → (finalize chain first header state d).dposContext =
      (finalize chain' first' header state d).dposContext) ↔
    (minBlocks (int64 header.time) (firstBlockTime chain first) =
        minBlocks (int64 header.time) (firstBlockTime chain' first') ∨
      epochOf (int64 parent.time) = epochOf (int64 genesis.time) ∨
      epochOf (int64 header.time) ≤ epochOf (int64 parent.time)) := by
  constructor
  · intro hsame
    by_contra hcond
    obtain ⟨hmin, hrest⟩ := not_or.mp hcond
    obtain ⟨hg, hlate⟩ := not_or.mp hrest
    have hlate := not_le.mp hlate
    -- a validator whose count lies between the two minima
    have hcand : ∀ count, IsInt64 count →
        (count < minBlocks (int64 header.time) (firstBlockTime chain first) ↔
          count < minBlocks (int64 header.time) (firstBlockTime chain' first')) := by
      intro count hcount
      obtain ⟨d1, helect, hiff⟩ := borderline_elect
        (StateDB.getBalance (Dpos.rewarded chain header state).2) (firstBlockTime chain first) hg hlate hcount
      obtain ⟨d2, helect', hiff'⟩ := borderline_elect
        (StateDB.getBalance (Dpos.rewarded chain' header state).2) (firstBlockTime chain' first') hg hlate
        hcount
      have hreg : Regular (borderline (epochOf (int64 parent.time)) count) := borderline_regular
      have hctx := congrArg (·.candidateTrie) (hsame _ hreg)
      rw [finalize_candidateTrie h.first h.last helect,
        finalize_candidateTrie h.first' h.last' helect'] at hctx
      rw [← hiff, ← hiff', DposContext.candidateEntry, DposContext.candidateEntry, hctx]
    have hle := (minBlocks_bounds (int64 header.time) (firstBlockTime chain first)).imp_left le_of_lt
    have hle' := (minBlocks_bounds (int64 header.time) (firstBlockTime chain' first')).imp_left le_of_lt
    rcases lt_or_gt_of_ne hmin with hlt | hlt
    · exact lt_irrefl _ ((hcand _ hle).mpr hlt)
    · exact lt_irrefl _ ((hcand _ hle').mp hlt)
  · intro hcond d _
    rw [finalize_eq h.first h.last, finalize_eq h.first' h.last', h.rewarded]
    simp only [electAndCount_eq]
    rw [tryElect_congr hcond]
    split
    · rfl
    · cases updateMintCnt _ _ _ _ <;> rfl

end

/-! ## A block of epoch 12 on two nodes -/

section
open Sample

/-- The parent of the block, in epoch 11. -/
def lateParent : Header := header 1 (11 * 86400) (address 1) (header 0 0 (address 1) (.zero 32)).hash

def lateHeader : Header := header 2 (12 * 86400) (address 1) lateParent.hash

def lateReader : ChainReader := reader (header 0 0 (address 1) (.zero 32)) lateParent

theorem lateReader_sameAncestors :
    SameAncestors lateReader lateReader lateHeader (header 0 0 (address 1) (.zero 32)) lateParent :=
  ⟨rfl, by decide +kernel, by decide +kernel, by decide +kernel, by decide +kernel⟩

theorem finalize_same_iff_late :
    (∀ d, Regular d → (finalize lateReader 10 lateHeader (fun _ => 0 : Address → Int) d).dposContext =
      (finalize lateReader (12 * 86400 - 600) lateHeader (fun _ => 0 : Address → Int) d).dposContext) ↔
    (minBlocks (int64 lateHeader.time) (firstBlockTime lateReader 10) =
        minBlocks (int64 lateHeader.time) (firstBlockTime lateReader (12 * 86400 - 600)) ∨
      epochOf (int64 lateParent.time) = epochOf (int64 (header 0 0 (address 1) (.zero 32)).time) ∨
      epochOf (int64 lateHeader.time) ≤ epochOf (int64 lateParent.time)) :=
  finalize_same_iff lateReader_sameAncestors 10 (12 * 86400 - 600) fun _ => 0

/-- A node that took the time of the first block from a fork which began ten minutes
before the block asks its validators for ten blocks, one that has it right for 1440.
A validator with a hundred blocks stays on the first node and goes on the other, and
the hashes of the candidates in the block's header differ. -/
theorem late_block_finalized_apart : (finalize lateReader 10 lateHeader (fun _ => 0 : Address → Int)
        (borderline 11 100)).dposContext.toProto.candidateHash ≠
      (finalize lateReader (12 * 86400 - 600) lateHeader (fun _ => 0 : Address → Int)
        (borderline 11 100)).dposContext.toProto.candidateHash := by
  decide +kernel

end

end Bgmchain.Dpos
