import Bgmchain.Consensus.Dpos.MintCount
import Bgmchain.Consensus.Dpos.Rounds

/-! # When a block can be finalized

On a context as the code's own operations make it, `tryElect` and with it
`Finalize` succeed under a condition that can be read off the context: there are
enough candidates, and someone to judge where someone is to be judged. -/
namespace Bgmchain.Dpos
open Common Function

/-- A readable context whose candidates are entered under their addresses and
whose counts are numbers. -/
structure Regular (d : DposContext) : Prop where
  whole : Whole d
  candidate : ∀ k v, (d.candidateTrie.get k).1 = some v → ∃ c : Address, k = c.bytes ∧ v = c.bytes
  count : ∀ epoch v b, (d.mintCntTrie.get (mintCntKey epoch v)).1 = some b → 8 ≤ b.length

variable {epoch : Int}

theorem countOf_ne_none_iff {mintCnt : Bytes → Option Bytes} {v : Address} :
    countOf mintCnt epoch v ≠ none ↔ ∀ b, mintCnt (mintCntKey epoch v) = some b → 8 ≤ b.length := by
  unfold countOf
  cases mintCnt (mintCntKey epoch v) with
  | none => simp
  | some b =>
    by_cases hb : b.length < 8
    · simp [getUint64, hb]
    · simp [getUint64, hb, Nat.le_of_not_lt hb]

variable {d : DposContext} {m : Books} {genesis parent : Header}

theorem Keeping.regular_iff (h : Keeping d m) : Regular d ↔ ∀ epoch, m.Sound epoch := by
  constructor
  · intro hr epoch
    refine ⟨fun k v hv => hr.candidate k v ?_, fun v => countOf_ne_none_iff.mpr fun b hb => ?_⟩
    · rw [h.ballots.candidates.get_fst, hv]
    · exact hr.count epoch v b (by rw [h.mintCnt.get_fst, hb])
  · intro hs
    refine ⟨h.whole, fun k v hv => ?_, fun epoch v b hb => ?_⟩
    · rw [h.ballots.candidates.get_fst] at hv
      exact (hs 0).candidate k v hv
    · rw [h.mintCnt.get_fst] at hb
      exact countOf_ne_none_iff.mp ((hs epoch).count v) b hb

theorem Regular.keeping (h : Regular d) : ∃ m, Keeping d m ∧ ∀ epoch, m.Sound epoch := by
  obtain ⟨m, hm⟩ := h.whole.keeping
  exact ⟨m, hm, hm.regular_iff.mp h⟩

/-! ## The operations keep a context regular -/

theorem Books.Sound.step (h : m.Sound epoch) (op : Poll.Op Address) :
    Books.Sound { m with ballots := m.ballots.step op } epoch := by
  refine ⟨?_, h.count⟩
  intro k v hv
  rcases Ballots.step_candidates hv with hv | hnew
  · exact h.candidate k v hv
  · exact hnew

theorem Regular.apply (h : Regular d) (op : Poll.Op Address) : Regular (d.apply op).2 := by
  obtain ⟨m, hm, hs⟩ := h.keeping
  have hm' := hm.of_sameBooks (DposContext.apply_sameBooks d op) (hm.ballots.apply op)
  exact hm'.regular_iff.mpr fun epoch => (hs epoch).step op

/-! ## The election -/

/-- The number of candidates. -/
def candidateCount (d : DposContext) : Nat :=
  ((LeafIterator.new d.candidateTrie []).toList d.candidateTrie).length

/-- An election for a block at `ts` on top of `parent` can be held: the block opens
no epoch, or there are enough candidates and, where validators are judged, there
are some. -/
def CanElect (ts : Int) (genesis parent : Header) (d : DposContext) : Prop :=
  epochOf ts ≤ epochOf (int64 parent.time) ∨
    (safeSize ≤ candidateCount d ∧
      (epochOf (int64 parent.time) = epochOf (int64 genesis.time) ∨
        mintCounters d (epochOf (int64 parent.time)) = 0 ∨
        ∃ vs, d.getValidators.1 = .ok vs ∧ vs ≠ []))

theorem rounds_eq_zero_iff (ts : Int) (genesis parent : Header) :
    (epochOf ts - electFrom ts genesis parent).toNat = 0 ↔ epochOf ts ≤ epochOf (int64 parent.time) := by
  unfold electFrom
  split <;> omega

theorem Keeping.getValidators_ok_iff (h : Keeping d m) {vs : List Address} :
    d.getValidators.1 = .ok vs ↔ validatorsOf m.epoch = some vs := by
  obtain ⟨d', _, heq⟩ := h.getValidators
  rw [heq]
  cases validatorsOf m.epoch with
  | none | some vs' => simp

theorem Keeping.candidateCount_eq (h : Keeping d m) {es}
    (hes : Entries m.ballots.candidates (fun _ => True) es) : candidateCount d = es.length := by
  obtain ⟨es', hes', hy⟩ := h.candidateEntries
  rw [candidateCount, hy.toList_eq, List.length_map, hes.unique hes']

/-- What is left after a kickout was there before. -/
theorem Books.Sound.electable_le (h : m.Sound epoch) {es}
    (hes : Entries m.ballots.candidates (fun _ => True) es) {kicked : List (Address × Int)} {c : Nat}
    (hc : Electable (kickAll m.ballots kicked).candidates c) : c ≤ es.length := by
  obtain ⟨es', hes', hlen⟩ := hc
  rw [(h.turned kicked []).electable ⟨es', hes', hlen⟩ hes']
  refine hes'.length_le hes [] fun k v _ hv => .inl ⟨v, trivial, ?_⟩
  rw [kickAll_candidates] at hv
  split at hv
  · cases hv
  · exact hv

section
variable [Crypto] [Rand] (balance : Address → Int) (first : Int) {d : DposContext}

/-- **The election succeeds exactly when it can be held.** -/
theorem Regular.tryElect_ok_iff (h : Regular d) (ts : Int) (genesis parent : Header) :
    (∃ d', tryElect balance ts first genesis parent d = .ok () d') ↔ CanElect ts genesis parent d := by
  obtain ⟨m, hm, hs⟩ := h.keeping
  obtain ⟨es, hes, _⟩ := hm.candidateEntries
  obtain ⟨left, hy, hleft⟩ := hm.counters (electFrom ts genesis parent)
  have hy : decide (epochOf (int64 parent.time) = epochOf (int64 genesis.time)) = true ∨
      LeafIterator.Yields m.mintDb _ left := .inr hy
  rw [tryElect_eq, CanElect, ← rounds_eq_zero_iff ts genesis parent, hm.candidateCount_eq hes]
  cases hn : (epochOf ts - electFrom ts genesis parent).toNat with
  | zero => exact ⟨fun _ => .inl rfl, fun _ => ⟨d, rfl⟩⟩
  | succ n =>
    -- whether the first turn judges
    have hjudge : (decide (epochOf (int64 parent.time) = epochOf (int64 genesis.time)) = false ∧ left ≠ []) ↔
        ¬ (epochOf (int64 parent.time) = epochOf (int64 genesis.time) ∨
          mintCounters d (epochOf (int64 parent.time)) = 0) := by
      rw [decide_eq_false_iff_not, not_or]
      refine and_congr_right fun hg => ?_
      rw [electFrom_of_ne hg] at hleft
      rw [← hleft, List.length_eq_zero_iff]
    constructor
    · intro ⟨d', hok⟩
      right
      rcases hm.turn balance parent.hash ts first _ hy n _ with
        ⟨⟨e, d1, herr, _⟩, _⟩ | ⟨kicked, c, vs, iter', d1, hk, hc, hmany, _⟩
      · rw [herr] at hok
        cases hok
      · refine ⟨hmany.trans ((hs 0).electable_le hes hc), ?_⟩
        rcases hk with ⟨_, vs0, _, _, hvs, hne, _⟩ | ⟨hno, _⟩
        · exact .inr (.inr ⟨vs0, hm.getValidators_ok_iff.mpr hvs, hne⟩)
        · rw [hjudge, not_not] at hno
          rcases hno with hno | hno
          · exact .inl hno
          · exact .inr (.inl hno)
    · intro hcan
      obtain ⟨hsize, hcan⟩ := hcan.resolve_left (Nat.succ_ne_zero n)
      refine hm.electLoop_ok ts first balance parent.hash (n + 1) _ (hs _) hy hes hsize fun hj => ?_
      rw [hjudge, not_or] at hj
      obtain ⟨vs, hvs, hne⟩ := (hcan.resolve_left hj.1).resolve_left hj.2
      exact ⟨vs, hm.getValidators_ok_iff.mp hvs, hne⟩

variable {ts : Int}

/-- The errors of an election are no panics. -/
theorem Keeping.electLoop_not_panic {epoch : Int} {isGenesis : Bool} {parentHash : Hash} (n : Nat) :
    ∀ {d d' : DposContext} {m : Books} {iter : LeafIterator} {left : List Bytes} {e : Error} (i : Int),
      Keeping d m → m.Sound epoch → (isGenesis = true ∨ iter.Yields m.mintDb left) →
      electLoop balance ts first epoch isGenesis parentHash n i iter d = .error e d' → e.isPanic = false := by
  induction n with
  | zero => intro d d' m iter left e i _ _ _ herr; cases herr
  | succ n ih =>
    intro d d' m iter left e i h hs hy herr
    rcases h.turn balance parentHash ts first epoch hy n i with
      ⟨⟨e', d1, heq, hpanic⟩, _⟩ | ⟨kicked, c, vs, iter', d1, _, _, _, heq, h1, hy', _⟩
    · rw [heq] at herr
      cases herr
      exact hpanic hs
    · rw [heq] at herr
      exact ih (i + 1) h1 (hs.turned kicked vs) hy' herr

theorem Regular.tryElect_not_panic {d' : DposContext} (h : Regular d)
    {e : Error} (herr : tryElect balance ts first genesis parent d = .error e d') : e.isPanic = false := by
  obtain ⟨m, hm, hs⟩ := h.keeping
  obtain ⟨left, hy, _⟩ := hm.counters (electFrom ts genesis parent)
  rw [tryElect_eq] at herr
  exact hm.electLoop_not_panic balance first _ _ (hs _) (.inr hy) herr

theorem Regular.tryElect {d' : DposContext} (h : Regular d)
    (hok : Dpos.tryElect balance ts first genesis parent d = .ok () d') : Regular d' := by
  obtain ⟨m, hm, hs⟩ := h.keeping
  obtain ⟨left, hy, _⟩ := hm.counters (electFrom ts genesis parent)
  rw [tryElect_eq] at hok
  obtain ⟨_, m', hm', hs'⟩ := Keeping.electLoop_rule (I := fun _ m => ∀ e, m.Sound e) balance parent.hash ts first _
    (fun _ _ kicked vs hs _ e => (hs e).turned kicked vs) _ _ hm (.inr hy) hs hok
  exact hm'.regular_iff.mpr hs'

end

/-! ## Finalizing -/

/-- With counts that are numbers, the mint count can be updated. -/
theorem Regular.updateMintCnt_ok (h : Regular d) (parentTime time : Int) (v : Address) :
    ∃ d', updateMintCnt parentTime time v d = .ok () d' := by
  obtain ⟨m, hm, hs⟩ := h.keeping
  have hnext : ∃ cnt d1, nextMintCnt (epochOf parentTime) (epochOf time) v d = .ok cnt d1 := by
    obtain ⟨d1, -, heq⟩ := nextMintCnt_eq hm.mintCnt (epochOf parentTime) (epochOf time) v
    rw [heq]
    split
    · exact ⟨_, _, rfl⟩
    next b hb =>
      split at hb
      · have hlen := countOf_ne_none_iff.mp ((hs _).count v) b hb
        simp only [getUint64, Nat.not_lt_of_le hlen, if_false]
        exact ⟨_, _, rfl⟩
      · cases hb
  obtain ⟨cnt, d1, hnext⟩ := hnext
  refine ⟨{ d1 with mintCntTrie :=
    d1.mintCntTrie.update (mintCntKey (epochOf time) v) (putUint64 (uint64OfInt64 cnt)) }, ?_⟩
  show EStateM.bind _ _ d = _
  simp only [EStateM.bind, hnext]
  rfl

section
variable [Crypto] [Rand] {σ : Type} [StateDB σ] {d : DposContext}

/-- Where `Finalize` has not panicked it has found the headers it reads. -/
theorem finalize_headers {chain : ChainReader} {first : Int} {header : Header} {state : σ}
    (h : ((finalize chain first header state d).err.any (·.isPanic)) = false) :
    ∃ genesis parent, chain.getHeaderByNumber 0 = some genesis ∧
      chain.getHeaderByHash header.parentHash = some parent := by
  cases hg : chain.getHeaderByNumber 0 with
  | none => simp [finalize, hg, Error.isPanic] at h
  | some genesis =>
    cases hp : chain.getHeaderByHash header.parentHash with
    | none => simp [finalize, hg, hp, Error.isPanic] at h
    | some parent => exact ⟨genesis, parent, rfl, rfl⟩

/-- **`Finalize` succeeds exactly when the headers it reads are there and the
election can be held.** -/
theorem Regular.finalize_ok_iff (h : Regular d) (chain : ChainReader) (first : Int)
    (header : Header) (state : σ) : (finalize chain first header state d).err = none ↔
      ∃ genesis parent, chain.getHeaderByNumber 0 = some genesis ∧
        chain.getHeaderByHash header.parentHash = some parent ∧
        CanElect (int64 header.time) genesis parent d := by
  constructor
  · intro hok
    obtain ⟨genesis, parent, hg, hp⟩ := finalize_headers (by rw [hok]; rfl)
    obtain ⟨balance, d1, _, helect, _⟩ := finalize_ok hg hp hok
    exact ⟨genesis, parent, hg, hp, (h.tryElect_ok_iff balance _ _ genesis parent).mp ⟨d1, helect⟩⟩
  · intro ⟨genesis, parent, hg, hp, hcan⟩
    obtain ⟨d1, helect⟩ := (h.tryElect_ok_iff (StateDB.getBalance (rewarded chain header state).2)
      (firstBlockTime chain first) _ genesis parent).mpr hcan
    obtain ⟨d2, hcount⟩ := (h.tryElect _ _ helect).updateMintCnt_ok (int64 parent.time) (int64 header.time)
      header.validator
    rw [finalize_eq hg hp, electAndCount_eq]
    rw [helect]
    dsimp only
    rw [hcount]
    rfl

/-- A failed `Finalize` that found its headers has not panicked. -/
theorem Regular.finalize_not_panic (h : Regular d) {chain : ChainReader} {first : Int}
    {header : Header} {state : σ} (hg : chain.getHeaderByNumber 0 = some genesis)
    (hp : chain.getHeaderByHash header.parentHash = some parent) :
    ((finalize chain first header state d).err.any (·.isPanic)) = false := by
  rw [finalize_eq hg hp, electAndCount_eq]
  cases helect : Dpos.tryElect (StateDB.getBalance (rewarded chain header state).2) (int64 header.time)
      (firstBlockTime chain first) genesis parent d with
  | error e d1 =>
    have hpanic : e.isPanic = false := h.tryElect_not_panic _ _ helect
    exact hpanic
  | ok u d1 =>
    obtain ⟨d2, hcount⟩ := (h.tryElect _ _ helect).updateMintCnt_ok (int64 parent.time) (int64 header.time)
      header.validator
    dsimp only
    rw [hcount]
    rfl

end

end Bgmchain.Dpos
