import Bgmchain.Consensus.Dpos.Election
import Bgmchain.Consensus.Dpos.Sample
import Bgmchain.Consensus.Dpos.Verify

/-! # Mint counts along a chain

Every block that `Finalize` completes adds one to the count of its validator in
its epoch. The count is started afresh when the parent lies in another epoch,
which loses nothing as long as timestamps grow: then no earlier block lies in
the new epoch. Timestamps are those the engine works with, `header.Time.Int64()`. -/
namespace Bgmchain.Dpos
open Common Lib.Hoare DposContext

/-! ## Epochs -/

theorem epochOf_mono {a b : Int} (h : a ≤ b) : epochOf a ≤ epochOf b :=
  Int.tdiv_le_tdiv (by decide) h

/-- Where a timestamp lies in its epoch; division truncates towards zero. -/
theorem epochOf_bounds (t : Int) : (0 ≤ t ∧ epochOf t * 86400 ≤ t ∧ t < epochOf t * 86400 + 86400) ∨
      (t < 0 ∧ t ≤ epochOf t * 86400 ∧ epochOf t * 86400 - 86400 < t) := by
  unfold epochOf epochInterval
  rcases Int.le_total 0 t with h | h
  · left
    rw [Int.tdiv_eq_ediv_of_nonneg h]
    omega
  · by_cases h0 : t = 0
    · subst h0
      left
      decide
    · right
      obtain ⟨n, rfl⟩ : ∃ n, t = -n := ⟨-t, by omega⟩
      rw [Int.neg_tdiv, Int.tdiv_eq_ediv_of_nonneg (by omega)]
      omega

theorem epochOf_isInt64 {t : Int} (h : IsInt64 t) : IsInt64 (epochOf t) := by
  unfold IsInt64 at *
  rcases epochOf_bounds t with h' | h' <;> omega

theorem mintCntKey_inj {e e' : Int} {v v' : Address} (he : IsInt64 e) (he' : IsInt64 e')
    (h : mintCntKey e v = mintCntKey e' v') : e = e' ∧ v = v' := by
  obtain ⟨h1, h2⟩ := List.append_inj h (by simp)
  have hu := putUint64_inj (uint64OfInt64_lt e) (uint64OfInt64_lt e') h1
  exact ⟨uint64OfInt64_inj he he' hu, FixedBytes.ext h2⟩

/-! ## One block -/

/-- What reading and writing the counts keeps, the update keeps. -/
theorem updateMintCnt_keeps {I : DposContext → Prop}
    (hget : ∀ d k, I d → I { d with mintCntTrie := (d.mintCntTrie.get k).2 })
    (hset : ∀ d k n, I d → I { d with mintCntTrie := d.mintCntTrie.update k (putUint64 n) })
    (parentTime time : Int) (v : Address) : Keeps I (updateMintCnt parentTime time v) := by
  refine Keeps.bind ?_ fun cnt => Keeps.modify _ fun d => hset d _ _
  intro d hd
  have hread := hget d (mintCntKey (epochOf parentTime) v) hd
  unfold nextMintCnt
  by_cases he : epochOf parentTime = epochOf time
  · rw [if_pos he]
    dsimp only
    generalize LeafIterator.next _ _ = step
    obtain ⟨step, it⟩ := step
    cases step with
    | panicked | done => exact hd
    | item b =>
      cases (d.mintCntTrie.get (mintCntKey (epochOf parentTime) v)).1 with
      | none => exact hread
      | some b =>
        dsimp only
        cases getUint64 b <;> exact hread
  · rw [if_neg he]
    exact hd

/-- The entry of a count: none for zero. -/
def countEntry (n : Nat) : Option Bytes := if n = 0 then none else some (putUint64 n)

variable {d : DposContext}

/-- What `updateMintCnt` writes, by the map of the counts. -/
theorem nextMintCnt_eq {m} (h : d.mintCntTrie.Holds m) (e e' : Int) (v : Address) :
    ∃ d', d'.mintCntTrie.Holds m ∧ nextMintCnt e e' v d =
      match (if e = e' then m (mintCntKey e v) else none) with
      | none => .ok 1 d'
      | some b =>
        match getUint64 b with
        | none => .error .panicked d'
        | some n => .ok (int64 (int64 n + 1)) d' := by
  unfold nextMintCnt
  by_cases he : e = e'
  · simp only [if_pos he]
    obtain ⟨t, hg, ht⟩ := h.get (mintCntKey e v)
    obtain ⟨es, hes, hy⟩ := h.yields (putUint64 (uint64OfInt64 e))
      (by simp [putUint64_ne_nil]) (.inl rfl)
    obtain ⟨it', hnext, _⟩ := LeafIterator.Yields.next hy
    have hiter : LeafIterator.next d.mintCntTrie
        (LeafIterator.new d.mintCntTrie (putUint64 (uint64OfInt64 e))) = _ := hnext
    rw [hiter]
    cases es with
    | nil =>
      -- where the iterator finds nothing, the validator has no entry
      have hm : m (mintCntKey e v) = none := by
        by_contra hne
        obtain ⟨b, hb⟩ := Option.ne_none_iff_exists'.1 hne
        cases (hes.mem_iff _ _).2 ⟨⟨ not_hex_lt_of_prefix (List.prefix_append _ _), List.nil_prefix⟩, hb⟩
      exact ⟨d, h, by rw [hm]; rfl⟩
    | cons p es =>
      simp only [stepOf, List.map_cons, hg]
      exact ⟨{ d with mintCntTrie := t }, ht, rfl⟩
  · exact ⟨d, h, by rw [if_neg he, if_neg he]⟩

/-- The number is one more than what the trie holds for the epoch, or one at the start of an
epoch. -/
theorem nextMintCnt_spec {m} (h : d.mintCntTrie.Holds m) {e e' : Int} {v : Address}
    {n : Nat} (hn : n + 1 < 2 ^ 64) (hsame : e = e' → m (mintCntKey e v) = countEntry n)
    (hnew : e ≠ e' → n = 0) : ∃ cnt d', nextMintCnt e e' v d = .ok cnt d' ∧ uint64OfInt64 cnt = n + 1 ∧
      d'.mintCntTrie.Holds m := by
  obtain ⟨d', hd', heq⟩ := nextMintCnt_eq h e e' v
  have hm : (if e = e' then m (mintCntKey e v) else none) = countEntry n := by
    split
    next he => exact hsame he
    next he => rw [hnew he]; rfl
  rw [hm] at heq
  by_cases h0 : n = 0
  · subst h0
    exact ⟨1, d', heq, rfl, hd'⟩
  · rw [countEntry, if_neg h0] at heq
    dsimp only at heq
    rw [getUint64_putUint64 (by omega)] at heq
    refine ⟨_, d', heq, ?_, hd'⟩
    unfold uint64OfInt64 int64
    omega

/-- `updateMintCnt` adds one to the count of the validator. -/
theorem updateMintCnt_spec {m} (h : d.mintCntTrie.Holds m) (parentTime time : Int)
    (v : Address) (n : Nat) (hn : n + 1 < 2 ^ 64)
    (hsame : epochOf parentTime = epochOf time → m (mintCntKey (epochOf time) v) = countEntry n)
    (hnew : epochOf parentTime ≠ epochOf time → n = 0) : ∃ d', updateMintCnt parentTime time v d = .ok () d' ∧
      d'.mintCntTrie.Holds (Function.update m (mintCntKey (epochOf time) v) (some (putUint64 (n + 1)))) := by
  obtain ⟨cnt, d1, hnext, hcnt, h1⟩ := nextMintCnt_spec h hn
    (fun he => he ▸ hsame he) hnew
  refine ⟨{ d1 with mintCntTrie :=
    d1.mintCntTrie.update (mintCntKey (epochOf time) v) (putUint64 (n + 1)) }, ?_,
    h1.update (mintCntKey (epochOf time) v) (putUint64_ne_nil (n + 1))⟩
  show EStateM.bind _ _ d = _
  simp only [EStateM.bind, hnext, ← hcnt]
  rfl

/-- Holding a map of mint counts is an invariant of the election. -/
theorem mintCntHolds_invariant (m : Bytes → Option Bytes) : ElectInvariant fun d => d.mintCntTrie.Holds m where
  readMintCnt d k hd := by
    obtain ⟨t, hg, ht⟩ := hd.get k
    rw [hg]
    exact ht
  setEpoch _ _ hd := hd
  kickout d c hd := by
    rw [(kickoutCandidate_sameBooks d c).mintCnt]
    exact hd

/-! ## Whole chains -/

/-- Two contexts whose tries can be read and hold the same. A context that was
committed and loaded again is such a copy of itself. -/
structure SameMaps (d d' : DposContext) : Prop where
  epoch : ∃ m, d.epochTrie.Holds m ∧ d'.epochTrie.Holds m
  delegate : ∃ m, d.delegateTrie.Holds m ∧ d'.delegateTrie.Holds m
  vote : ∃ m, d.voteTrie.Holds m ∧ d'.voteTrie.Holds m
  candidate : ∃ m, d.candidateTrie.Holds m ∧ d'.candidateTrie.Holds m
  mintCnt : ∃ m, d.mintCntTrie.Holds m ∧ d'.mintCntTrie.Holds m

/-- The blocks of an epoch that a validator has minted. -/
def minted (blocks : List Header) (epoch : Int) (v : Address) : Nat :=
  blocks.countP fun b => decide (epochOf (int64 b.time) = epoch ∧ b.validator = v)

/-- The invariant along a chain. The timestamps of the blocks bound their number,
and so no count wraps around. -/
structure Counted (genesis : Header) (blocks : List Header) (d : DposContext) : Prop where
  holds : ∃ m, d.mintCntTrie.Holds m ∧
    ∀ e v, IsInt64 e → m (mintCntKey e v) = countEntry (minted blocks e v)
  before : ∀ b ∈ blocks, int64 b.time ≤ int64 (tip genesis blocks).time
  length : int64 genesis.time + blocks.length ≤ int64 (tip genesis blocks).time

theorem genesis_mintCntTrie (db : NodeDatabase) (validators : Option (List Address)) :
    (initGenesisDposContext db validators).mintCntTrie = .empty db mintCntPrefix := by
  cases validators with
  | none => rfl
  | some vs =>
    have hfold : ∀ d : DposContext, (vs.foldl genesisValidator d).mintCntTrie = d.mintCntTrie := by
      induction vs with
      | nil => intro d; rfl
      | cons v vs ih => intro d; exact ih (genesisValidator d v)
    exact hfold _

theorem minted_cons (b : Header) (blocks : List Header) (e : Int) (v : Address) : minted (b :: blocks) e v =
      minted blocks e v + if epochOf (int64 b.time) = e ∧ b.validator = v then 1 else 0 := by
  simp [minted, List.countP_cons]

/-- No block of the chain lies in an epoch after that of its newest block. -/
theorem Counted.minted_eq_zero {genesis : Header} {blocks : List Header}
    (h : Counted genesis blocks d) {e : Int} (he : epochOf (int64 (tip genesis blocks).time) < e)
    (v : Address) : minted blocks e v = 0 := by
  rw [minted, List.countP_eq_zero]
  intro b hb
  have hmono := epochOf_mono (h.before b hb)
  simp only [decide_eq_true_eq, not_and]
  intro heq
  omega

section
variable [Crypto] [Rand] {σ : Type} [StateDB σ]

/-- The chains, newest block first and without the genesis block, that successful
calls of `Finalize` with growing timestamps produce, and the context after the
newest block. Each call gets the context of its parent, loaded again, after the
delegations in the block's transactions. -/
inductive Produced (σ : Type) [StateDB σ] (db : NodeDatabase) (validators : Option (List Address))
    (genesis : Header) : List Header → DposContext → Prop
  | genesis : Produced σ db validators genesis [] (initGenesisDposContext db validators)
  | block {blocks d} (d1 : DposContext) (ops : List (Poll.Op Address)) (chain : ChainReader)
      (timeOfFirstBlock : Int) (header : Header) (state : σ) :
      Produced σ db validators genesis blocks d → SameMaps d d1 →
      chain.getHeaderByNumber 0 = some genesis →
      chain.getHeaderByHash header.parentHash = some (tip genesis blocks) →
      int64 (tip genesis blocks).time < int64 header.time →
      (finalize chain timeOfFirstBlock header state (d1.run ops)).err = none →
      Produced σ db validators genesis
        ((finalize chain timeOfFirstBlock header state (d1.run ops)).header :: blocks)
        (finalize chain timeOfFirstBlock header state (d1.run ops)).dposContext

theorem electAndCount_eq (balance : Address → Int) (first : Int) (genesis parent header : Header)
    (d : DposContext) :
    electAndCount balance first genesis parent header d =
      match tryElect balance (int64 header.time) first genesis parent d with
      | .error err d' => .error (.gotErrorWhenElect err) d'
      | .ok _ d' => updateMintCnt (int64 parent.time) (int64 header.time) header.validator d' := by
  unfold electAndCount
  show EStateM.bind _ _ d = _
  simp only [EStateM.bind, get, getThe, MonadStateOf.get, EStateM.get]
  cases tryElect balance (int64 header.time) first genesis parent d <;> rfl

variable {first : Int} {header genesis : Header} {d : DposContext}

theorem finalize_eq {chain : ChainReader} {state : σ}
    {parent : Header} (hg : chain.getHeaderByNumber 0 = some genesis)
    (hp : chain.getHeaderByHash header.parentHash = some parent) :
    finalize chain first header state d =
      .of (firstBlockTime chain first) { header with root := (rewarded chain header state).1 }
        (rewarded chain header state).2
        (electAndCount (StateDB.getBalance (rewarded chain header state).2) (firstBlockTime chain first)
          genesis parent { header with root := (rewarded chain header state).1 } d) := by
  simp only [finalize, hg, hp]

/-- What a successful `Finalize` has done: the election, then the mint count. -/
theorem finalize_ok {chain : ChainReader} {state : σ}
    {parent : Header} (hg : chain.getHeaderByNumber 0 = some genesis)
    (hp : chain.getHeaderByHash header.parentHash = some parent)
    (h : (finalize chain first header state d).err = none) :
    ∃ balance d1 d2, tryElect balance (int64 header.time) (firstBlockTime chain first) genesis parent d =
        .ok () d1 ∧ updateMintCnt (int64 parent.time) (int64 header.time) header.validator d1 = .ok () d2 ∧
      (finalize chain first header state d).dposContext = d2 ∧
      (finalize chain first header state d).header.time = header.time ∧
      (finalize chain first header state d).header.validator = header.validator := by
  rw [finalize_eq hg hp, electAndCount_eq] at h ⊢
  split at h
  · cases h
  next d1 hel =>
    dsimp only
    cases hc : updateMintCnt (int64 parent.time) (int64 header.time) header.validator d1 with
    | error err d2 =>
      rw [hc] at h
      cases h
    | ok u2 d2 => exact ⟨_, d1, d2, hel, hc, rfl, rfl, rfl⟩

theorem Counted.block {blocks : List Header} {d1 d2 d3 : DposContext}
    {block : Header} {balance : Address → Int} (h : Counted genesis blocks d)
    (hcopy : SameMaps d d1) (ops : List (Poll.Op Address))
    (htime : int64 (tip genesis blocks).time < int64 header.time)
    (hel : tryElect balance (int64 header.time) first genesis (tip genesis blocks) (d1.run ops) = .ok () d2)
    (hc : updateMintCnt (int64 (tip genesis blocks).time) (int64 header.time) header.validator d2 =
      .ok () d3) (hbt : block.time = header.time) (hbv : block.validator = header.validator) :
    Counted genesis (block :: blocks) d3 := by
  obtain ⟨m, hm, hcount⟩ := h.holds
  -- the map of counts reaches `updateMintCnt` unchanged
  have h1 : d1.mintCntTrie.Holds m := by
    obtain ⟨m', hm', h1⟩ := hcopy.mintCnt
    rwa [hm.unique hm']
  have hrun : (d1.run ops).mintCntTrie.Holds m := by
    rw [(run_sameBooks d1 ops).mintCnt]
    exact h1
  have h2 : d2.mintCntTrie.Holds m :=
    ((mintCntHolds_invariant m).tryElect balance (int64 header.time) first genesis
      (tip genesis blocks)).ok hrun hel
  have hlen := h.length
  have hhi := int64_isInt64 header.time
  have hlo := int64_isInt64 genesis.time
  unfold IsInt64 at hhi hlo
  have hmlen : minted blocks (epochOf (int64 header.time)) header.validator ≤ blocks.length :=
    List.countP_le_length
  have hep := epochOf_isInt64 (int64_isInt64 header.time)
  obtain ⟨d', hupd, hd'⟩ := updateMintCnt_spec h2
    (int64 (tip genesis blocks).time) (int64 header.time) header.validator
    (minted blocks (epochOf (int64 header.time)) header.validator) (by omega) (fun _ => hcount _ _ hep) (fun hne => h.minted_eq_zero
      (lt_of_le_of_ne (epochOf_mono htime.le) hne) _)
  rw [hupd] at hc
  cases hc
  refine ⟨⟨_, hd', ?_⟩, ?_, ?_⟩
  · intro e v he
    rw [minted_cons, hbt, hbv]
    by_cases hk : epochOf (int64 header.time) = e ∧ header.validator = v
    · obtain ⟨rfl, rfl⟩ := hk
      simp [countEntry]
    · have hne : mintCntKey e v ≠ mintCntKey (epochOf (int64 header.time)) header.validator := by
        intro heq
        obtain ⟨h1, h2⟩ := mintCntKey_inj he hep heq
        exact hk ⟨h1.symm, h2.symm⟩
      rw [Function.update_of_ne hne, hcount e v he, if_neg hk, Nat.add_zero]
  · intro b hb
    show int64 b.time ≤ int64 block.time
    rw [hbt]
    rcases List.mem_cons.mp hb with rfl | hb
    · rw [hbt]
    · exact (h.before b hb).trans htime.le
  · show int64 genesis.time + (blocks.length + 1 : Nat) ≤ int64 block.time
    rw [hbt]
    omega

theorem Produced.counted {db : NodeDatabase} {validators : Option (List Address)}
    {blocks : List Header} (h : Produced σ db validators genesis blocks d) : Counted genesis blocks d := by
  induction h with
  | genesis =>
    refine ⟨⟨fun _ => none, ?_, fun e v _ => rfl⟩, by simp, ?_⟩
    · rw [genesis_mintCntTrie]
      exact Trie.holds_empty _ _
    · simp [tip]
  | block d1 ops chain first header state _ hcopy hg hp htime herr ih =>
    obtain ⟨balance, d2, d3, hel, hc, hd, hbt, hbv⟩ := finalize_ok hg hp herr
    rw [hd]
    exact ih.block hcopy ops htime hel hc hbt hbv

/-- **After every block the trie counts the blocks each validator has minted in
each epoch**, for every epoch, an `int64`, and every address; the genesis block
does not count. -/
theorem mintCnt_eq_minted {db : NodeDatabase} {validators : Option (List Address)} {genesis : Header}
    {blocks : List Header} {d : DposContext} (h : Produced σ db validators genesis blocks d)
    (epoch : Int) (v : Address) :
    (d.mintCntTrie.get (mintCntKey (int64 epoch) v)).1 = countEntry (minted blocks (int64 epoch) v) := by
  obtain ⟨m, hm, hcount⟩ := h.counted.holds
  rw [hm.get_fst, hcount (int64 epoch) v (int64_isInt64 epoch)]

end

open Sample in
/-- Two blocks of one validator in the epoch of the genesis block. -/
theorem mintCnt_eq_minted_two_blocks :
    ∃ blocks d, Produced (Address → Int) nodes none (header 0 0 (address 0) (.zero 32)) blocks d ∧
      minted blocks 0 (address 7) = 2 ∧
      (d.mintCntTrie.get (mintCntKey (int64 0) (address 7))).1 = countEntry 2 := by
  let genesis := header 0 0 (address 0) (.zero 32)
  let b1 := header 1 10 (address 7) (.zero 32)
  let b2 := header 2 20 (address 7) (.zero 32)
  let state : Address → Int := fun _ => 0
  let f1 := finalize (reader genesis genesis) 0 b1 state (new nodes)
  let f2 := finalize (reader genesis f1.header) 0 b2 state f1.dposContext
  have empty : ∀ pre, ∃ m, (Trie.empty nodes pre).Holds m ∧ (Trie.empty nodes pre).Holds m :=
    fun pre => ⟨_, Trie.holds_empty _ _, Trie.holds_empty _ _⟩
  have h1 : Produced (Address → Int) nodes none genesis [f1.header] f1.dposContext :=
    .block (new nodes) [] (reader genesis genesis) 0 b1 state .genesis
      ⟨empty _, empty _, empty _, empty _, empty _⟩ rfl rfl (by decide) rfl
  have h2 : Produced (Address → Int) nodes none genesis [f2.header, f1.header] f2.dposContext := by
    obtain ⟨m, hm, _⟩ := h1.counted.holds
    exact .block f1.dposContext [] (reader genesis f1.header) 0 b2 state h1
      ⟨empty _, empty _, empty _, empty _, m, hm, hm⟩ rfl rfl (by decide +kernel) (by decide +kernel)
  have hm : minted [f2.header, f1.header] 0 (address 7) = 2 := by decide +kernel
  refine ⟨_, _, h2, hm, ?_⟩
  have hc := mintCnt_eq_minted h2 0 (address 7)
  rwa [show minted [f2.header, f1.header] (int64 0) (address 7) = 2 from hm] at hc

end Bgmchain.Dpos
