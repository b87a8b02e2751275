import Bgmchain.Core.Linked

/-! # Forks and how the head moves between them

`reorg` walks down from the current block and from the new one until it finds the
block both descend from, makes the new blocks canonical from the top down and drops the
lookup entries of the old ones. What the walk finds is what lies above the fork, and
`WriteBlockAndState` is one of three equations: a side write, an extension, a
reorganisation. -/
namespace Bgmchain.Core
open Common List HeaderChain
open Dpos (predUint64)
open Lib.Hoare (bind_of_ok get_bind)
open Lib.Lineage (Branch)

namespace BlockChain

section
variable {σ : Type} [Execution σ] [Crypto]

/-! ## Walking down -/

/-- The way from a block down to an ancestor, with the blocks that are left behind. -/
inductive Walk (bc : BlockChain σ) : Block σ → List (Block σ) → Block σ → Prop
  | here {a : Block σ} : Walk bc a [] a
  | down {b parent a : Block σ} {passed : List (Block σ)} : bc.parentBlock b = some parent →
      b.number = parent.number + 1 → Walk bc parent passed a → Walk bc b (b :: passed) a

variable {bc : BlockChain σ} {a b old new block : Block σ}

section
omit [Crypto]

theorem Walk.number {passed : List (Block σ)} (h : Walk bc b passed a) :
    b.number = a.number + passed.length := by
  induction h with
  | here => rfl
  | down _ hnum _ ih =>
    rw [hnum, ih, length_cons]
    omega

/-- The way can be cut after any number of blocks. -/
theorem Walk.split {passed : List (Block σ)} (h : Walk bc b passed a) (k : Nat) :
    ∃ c, Walk bc b (passed.take k) c ∧ Walk bc c (passed.drop k) a := by
  induction h generalizing k with
  | @here a => exact ⟨a, by rw [take_nil]; exact .here, by rw [drop_nil]; exact .here⟩
  | @down b parent a passed hparent hnum hwalk ih =>
    cases k with
    | zero => exact ⟨b, .here, .down hparent hnum hwalk⟩
    | succ k =>
      obtain ⟨c, hupper, hlower⟩ := ih k
      exact ⟨c, .down hparent hnum hupper, hlower⟩

theorem descend_of_walk {left : List (Block σ)} (h : Walk bc b left a) {f : Nat}
    (hf : left.length < f) (passed : List (Block σ)) :
    bc.descend a.number f b passed = some (a, passed ++ left) := by
  induction h generalizing f passed with
  | here =>
    obtain _ | f := f
    · omega
    rw [descend, if_pos rfl, append_nil]
  | @down b parent a left hparent hnum hwalk ih =>
    obtain _ | f := f
    · omega
    have habove : b.number ≠ a.number := by
      rw [hnum, hwalk.number]
      omega
    rw [length_cons] at hf
    rw [descend, if_neg habove, hparent]
    simp only
    rw [ih (by omega), append_assoc, singleton_append]

end

/-- Two ways of one length to one block, on which no two blocks have one hash. -/
theorem findCommon_of_walk {olds news : List (Block σ)} (hold : Walk bc old olds a)
    (hnew : Walk bc new news a) (hne : List.Forall₂ (fun x y => x.hash ≠ y.hash) olds news) {f : Nat}
    (hf : olds.length < f) (oldChain newChain : List (Block σ)) :
    bc.findCommon f old new oldChain newChain = .ok (oldChain ++ olds, newChain ++ news) := by
  induction hne generalizing old new f oldChain newChain with
  | nil =>
    obtain _ | f := f
    · omega
    cases hold
    cases hnew
    rw [findCommon, if_pos rfl, append_nil, append_nil]
  | @cons x y olds news hxy _ ih =>
    obtain _ | f := f
    · omega
    rw [length_cons] at hf
    cases hold with
    | down hparent _ hold =>
      cases hnew with
      | down hparent' _ hnew =>
        rw [findCommon, if_neg hxy, hparent, hparent']
        simp only
        rw [ih hold hnew (by omega), append_assoc, append_assoc, singleton_append,
          singleton_append]

/-- **What `reorg` drops and adds is what lies above the fork**, from the top down. -/
theorem forkChains_of_walk {olds news : List (Block σ)}
    (hold : Walk bc old olds.reverse a) (hnew : Walk bc new news.reverse a)
    (hne : ∀ (i : Nat) x y, olds[i]? = some x → news[i]? = some y → x.hash ≠ y.hash) :
    bc.forkChains old new = .ok (olds.reverse, news.reverse) := by
  have hnumOld := hold.number
  have hnumNew := hnew.number
  rw [length_reverse] at hnumOld hnumNew
  have hdiffer : ∀ m, m ≤ olds.length → m ≤ news.length →
      List.Forall₂ (fun x y : Block σ => x.hash ≠ y.hash) (olds.take m).reverse (news.take m).reverse := by
    intro m hm hm'
    refine forall₂_reverse_iff.mpr (forall₂_iff_get.mpr ⟨?_, ?_⟩)
    · rw [length_take, length_take]
      omega
    · intro i hi hi'
      rw [length_take] at hi hi'
      refine hne i _ _ ?_ ?_
      · rw [get_eq_getElem, getElem_take, List.getElem?_eq_getElem]
      · rw [get_eq_getElem, getElem_take, List.getElem?_eq_getElem]
  unfold forkChains
  by_cases hlt : news.length < olds.length
  · obtain ⟨c, hupper, hlower⟩ := hold.split (olds.length - news.length)
    have hk : olds.length - (olds.length - news.length) = news.length := by omega
    rw [take_reverse, hk] at hupper
    rw [drop_reverse, hk] at hlower
    have hlen : (olds.take news.length).reverse.length = news.length := by
      rw [length_reverse, length_take]
      omega
    have hnum := hlower.number
    have hdescend := descend_of_walk hupper (f := old.number + 1) (by simp; omega) []
    rw [show c.number = new.number by omega, nil_append] at hdescend
    have hcommon := findCommon_of_walk hlower hnew
      (by simpa only [take_length] using hdiffer news.length (by omega) le_rfl)
      (f := c.number + 2) (by omega) (olds.drop news.length).reverse []
    rw [if_pos (by omega), hdescend]
    simp only
    rw [hcommon, ← reverse_append, take_append_drop, nil_append]
  · obtain ⟨c, hupper, hlower⟩ := hnew.split (news.length - olds.length)
    have hk : news.length - (news.length - olds.length) = olds.length := by omega
    rw [take_reverse, hk] at hupper
    rw [drop_reverse, hk] at hlower
    have hlen : (news.take olds.length).reverse.length = olds.length := by
      rw [length_reverse, length_take]
      omega
    have hnum := hlower.number
    have hdescend := descend_of_walk hupper (f := new.number + 1) (by simp; omega) []
    rw [show c.number = old.number by omega, nil_append] at hdescend
    have hcommon := findCommon_of_walk hold hlower
      (by simpa only [take_length] using hdiffer olds.length le_rfl (by omega))
      (f := old.number + 2) (by rw [length_reverse]; omega) [] (news.drop olds.length).reverse
    rw [if_neg (by omega), hdescend]
    simp only
    rw [hcommon, ← reverse_append, take_append_drop, nil_append]

/-- The walks read blocks and nothing else. -/
theorem forkChains_congr {bc bc' : BlockChain σ} (h : bc'.getBlock = bc.getBlock) (old new : Block σ) :
    bc'.forkChains old new = bc.forkChains old new := by
  have hparent : ∀ b, bc'.parentBlock b = bc.parentBlock b := fun b => by rw [parentBlock, parentBlock, h]
  have hdescend : ∀ number f b passed, bc'.descend number f b passed = bc.descend number f b passed := by
    intro number f
    induction f with
    | zero =>
      intro b passed
      rfl
    | succ f ih =>
      intro b passed
      simp only [descend, hparent, ih]
  have hcommon : ∀ f old new oldChain newChain,
      bc'.findCommon f old new oldChain newChain = bc.findCommon f old new oldChain newChain := by
    intro f
    induction f with
    | zero =>
      intro old new oldChain newChain
      rfl
    | succ f ih =>
      intro old new oldChain newChain
      simp only [findCommon, hparent, ih]
  simp only [forkChains, hdescend, hcommon]

/-! ## The walks of stored blocks -/

/-- The ancestors of a block, from the genesis up. -/
abbrev BlockBranch (bc : BlockChain σ) : Hash → Nat → List (Block σ) → Prop :=
  Branch bc.getBlock (fun b => b.header.parentHash)

variable {tds : Hash → Nat → Option Int}

omit [Crypto] in
/-- The parent of a block is stored one number below. -/
theorem parentBlock_eq {n : Nat} (hnum : b.number = n + 1) (hlt : n + 1 < 2 ^ 64) :
    bc.parentBlock b = bc.getBlock b.header.parentHash n := by
  have hpred : predUint64 b.number = n := by
    rw [predUint64, hnum]
    omega
  rw [parentBlock, hpred]

/-- From a block down to an ancestor, given the ways of its parent. -/
theorem walk_concat (h : Linked Block.header bc.getBlock tds) {n : Nat} {l common rest : List (Block σ)}
    (hnum : b.number = n + 1) (hb : bc.BlockBranch b.header.parentHash n l)
    (hbelow : ∀ {p}, bc.getBlock b.header.parentHash n = some p → ∀ {rest}, l = common ++ a :: rest → Walk bc p rest.reverse a)
    (hl : l ++ [b] = common ++ a :: rest) : Walk bc b rest.reverse a := by
  rcases eq_nil_or_concat' rest with rfl | ⟨rest, y, rfl⟩
  · obtain ⟨_, hxa⟩ := append_inj' hl rfl
    cases hxa
    exact .here
  · rw [← cons_append, ← append_assoc] at hl
    obtain ⟨hrest, hxy⟩ := append_inj' hl rfl
    cases hxy
    obtain ⟨_, p, hp⟩ := h.top hb
    rw [reverse_append]
    refine .down ?_ ?_ (hbelow hp hrest)
    · rw [parentBlock_eq hnum (by omega), hp]
    · exact hnum.trans (congrArg (· + 1) (h.keyed hp).2.symm)

/-- From a stored block down to any of its ancestors. -/
theorem walk_of_branch (h : Linked Block.header bc.getBlock tds) {k : Hash} {n : Nat} {l : List (Block σ)}
    (hb : bc.BlockBranch k n l) (hstored : bc.getBlock k n = some b)
    {common rest : List (Block σ)} (hl : l = common ++ a :: rest) : Walk bc b rest.reverse a := by
  induction hb generalizing b rest with
  | root hx =>
    obtain ⟨rfl, hnil⟩ := append_eq_singleton_iff.mp hl.symm |>.resolve_right (by simp)
    cases hnil
    rw [hx] at hstored
    cases hstored
    exact .here
  | @step k n x l hx hb ih =>
    rw [hx] at hstored
    cases hstored
    exact walk_concat h (h.keyed hx).2 hb ih hl

/-- **The fork of the current block and a new one**: the part that their branches share
and the parts above it. -/
structure Fork (bc : BlockChain σ) (block : Block σ) (common olds news : List (Block σ)) : Prop where
  old : bc.BlockBranch bc.currentBlock.hash bc.currentBlock.number (common ++ olds)
  new : Branch (put Block.header bc.getBlock block) (fun b => b.header.parentHash) block.hash block.number
    (common ++ news)
  apart : ∀ (i : Nat) x y, olds[i]? = some x → news[i]? = some y → x.hash ≠ y.hash

/-- There is a fork, and `reorg` finds it. -/
theorem exists_fork (h : Linked Block.header bc.getBlock tds) {l : List (Block σ)}
    (hstored : bc.getBlock bc.currentBlock.hash bc.currentBlock.number = some bc.currentBlock)
    (hold : bc.BlockBranch bc.currentBlock.hash bc.currentBlock.number l)
    (hw : Writable Block.header bc.getBlock block) : ∃ common olds news, bc.Fork block common olds news ∧
      bc.forkChains bc.currentBlock block = .ok (olds.reverse, news.reverse) := by
  obtain ⟨n, lp, hnum, _, hlp⟩ := hw.branch h
  have hput := h.put hw (Int.le_refl 0)
  have hold' := hold.mono hw.mono
  have hnew' := hw.put_branch hnum hlp
  obtain ⟨common, olds, news, hcommon, hl, hl', hne⟩ := hold'.fork hput.keys hnew' (hput.root_eq hold' hnew')
  refine ⟨common, olds, news, ⟨hl ▸ hold, hl' ▸ hnew', hne⟩, ?_⟩
  obtain ⟨below, a, rfl⟩ := (eq_nil_or_concat' common).resolve_left hcommon
  rw [append_assoc, singleton_append] at hl hl'
  exact forkChains_of_walk (walk_of_branch h hold hstored hl) (walk_concat h hnum hlp (fun hp _ => walk_of_branch h hlp hp) hl') hne

section
variable {block : Block σ} {common olds news : List (Block σ)}

theorem Fork.top (hf : bc.Fork block common olds news) : (common ++ news)[block.number]? = some block :=
  hf.new.getElem?_top.trans (put_self _ _)

section
variable (hf : bc.Fork block common olds news) (h : Linked Block.header bc.getBlock tds) (hw : Writable Block.header bc.getBlock block)
include hf h hw

theorem Fork.number {i : Nat} (hb : news[i]? = some b) : b.number = common.length + i := by
  refine (h.put hw (Int.le_refl 0)).number_of_branch hf.new (a := b) ?_
  rw [List.getElem?_append_right (by omega), Nat.add_sub_cancel_left, hb]

theorem Fork.hash_ne (hb : b ∈ news) : b.hash ≠ .zero 32 := by
  have hput := h.put hw (Int.le_refl 0)
  obtain ⟨i, hi⟩ := mem_iff_getElem?.mp (mem_append_right common hb)
  exact hput.hash_ne (hput.mem_branch hf.new hi)

end

end

/-! ## Adopting the blocks of the new chain -/

/-- The loop of `reorg` over the new chain. -/
def adopt (bc : BlockChain σ) (blocks : List (Block σ)) : BlockChain σ :=
  blocks.foldl (fun bc block => (bc.insert block).writeTxLookupEntries block) bc

section
variable (bc)

@[simp] theorem insert_canonical (block : Block σ) :
    (bc.insert block).hc.canonical = bc.hc.canonical.write block.hash block.number := by
  unfold insert
  dsimp only
  split <;> rfl

@[simp] theorem insert_currentBlock (block : Block σ) : (bc.insert block).currentBlock = block := by
  unfold insert
  dsimp only
  split <;> rfl

@[simp] theorem insert_getBlock (block : Block σ) : (bc.insert block).getBlock = bc.getBlock := by
  unfold insert
  dsimp only
  split <;> rfl

@[simp] theorem insert_txLookups (block : Block σ) : (bc.insert block).txLookups = bc.txLookups := by
  unfold insert
  dsimp only
  split <;> rfl

/-- The header and the fast block follow where the canonical hash was another. -/
theorem insert_heads_of_ne (h : bc.hc.canonical.get block.number ≠ block.hash) :
    (bc.insert block).hc.currentHeader = block.header ∧ (bc.insert block).currentFastBlock = block := by
  unfold insert
  rw [if_pos h]
  exact ⟨rfl, rfl⟩

theorem insert_heads_of_eq (h : bc.hc.canonical.get block.number = block.hash) :
    (bc.insert block).hc.currentHeader = bc.hc.currentHeader ∧
      (bc.insert block).currentFastBlock = bc.currentFastBlock := by
  unfold insert
  rw [if_neg (not_not.mpr h)]
  exact ⟨rfl, rfl⟩

theorem adopt_reverse_cons (block : Block σ) (blocks : List (Block σ)) : bc.adopt (block :: blocks).reverse =
      ((bc.adopt blocks.reverse).insert block).writeTxLookupEntries block := by
  rw [reverse_cons, adopt, foldl_concat]
  rfl

/-- The chains have the same headers, numbers, configuration, states and engine. -/
structure SameStore (bc bc' : BlockChain σ) : Prop where
  headers : bc'.hc.headers = bc.hc.headers
  numbers : bc'.hc.numbers = bc.hc.numbers
  config : bc'.hc.config = bc.hc.config
  states : bc'.states = bc.states
  engine : bc'.engine = bc.engine

omit [Crypto] in
theorem SameStore.trans {bc bc' bc'' : BlockChain σ} (h : SameStore bc bc') (h' : SameStore bc' bc'') :
    SameStore bc bc'' :=
  ⟨h'.headers.trans h.headers, h'.numbers.trans h.numbers, h'.config.trans h.config, h'.states.trans h.states,
    h'.engine.trans h.engine⟩

/-- `insert` moves the heads and nothing else. -/
theorem insert_sameStore (block : Block σ) : SameStore bc (bc.insert block) := by
  unfold insert
  dsimp only
  split
  · exact ⟨rfl, rfl, rfl, rfl, rfl⟩
  · exact ⟨rfl, rfl, rfl, rfl, rfl⟩

theorem adopt_sameStore (blocks : List (Block σ)) : SameStore bc (bc.adopt blocks) := by
  induction blocks generalizing bc with
  | nil => exact ⟨rfl, rfl, rfl, rfl, rfl⟩
  | cons block blocks ih =>
    have hinsert := bc.insert_sameStore block
    have hnext : SameStore bc ((bc.insert block).writeTxLookupEntries block) :=
      ⟨hinsert.headers, hinsert.numbers, hinsert.config, hinsert.states, hinsert.engine⟩
    exact hnext.trans (ih _)

theorem adopt_getBlock (blocks : List (Block σ)) : (bc.adopt blocks.reverse).getBlock = bc.getBlock := by
  induction blocks with
  | nil => rfl
  | cons block blocks ih =>
    rw [adopt_reverse_cons]
    exact (insert_getBlock _ block).trans ih

theorem adopt_tds (blocks : List (Block σ)) : (bc.adopt blocks.reverse).hc.tds = bc.hc.tds := by
  induction blocks with
  | nil => rfl
  | cons block blocks ih =>
    rw [adopt_reverse_cons]
    exact (insert_tds _ block).trans ih

/-- Blocks of consecutive numbers take their places among the canonical hashes. -/
theorem adopt_canonical {blocks : List (Block σ)} {m : Nat}
    (hnum : ∀ (i : Nat) b, blocks[i]? = some b → b.number = m + i) (j : Nat) :
    (bc.adopt blocks.reverse).hc.canonical.hash? j =
      if m ≤ j ∧ j < m + blocks.length then (blocks.map Block.hash)[j - m]? else bc.hc.canonical.hash? j := by
  induction blocks generalizing m with
  | nil => exact (if_neg (by simp)).symm
  | cons block blocks ih =>
    have hblock : block.number = m := hnum 0 block rfl
    have hstep : (bc.adopt (block :: blocks).reverse).hc.canonical =
        (bc.adopt blocks.reverse).hc.canonical.write block.hash block.number := by
      rw [adopt_reverse_cons]
      exact insert_canonical _ block
    have hrest := ih (m := m + 1) fun i b hb => by rw [hnum (i + 1) b hb]; omega
    rw [hstep, hblock]
    by_cases hj : j = m
    · subst hj
      rw [if_pos ⟨le_rfl, by simp⟩, Nat.sub_self]
      exact Function.update_self ..
    · refine (Function.update_of_ne hj ..).trans (hrest.trans ?_)
      by_cases hin : m + 1 ≤ j ∧ j < m + 1 + blocks.length
      · rw [if_pos hin, if_pos ⟨by omega, by rw [length_cons]; omega⟩,
          show j - m = j - (m + 1) + 1 by omega, map_cons, List.getElem?_cons_succ]
      · rw [if_neg hin, if_neg (by rw [length_cons]; omega)]

/-- The lowest of them is the last that moves the header and the fast block. -/
theorem adopt_heads {blocks : List (Block σ)} {m : Nat}
    (hnum : ∀ (i : Nat) b, (block :: blocks)[i]? = some b → b.number = m + i)
    (hne : bc.hc.canonical.get m ≠ block.hash) :
    (bc.adopt (block :: blocks).reverse).hc.currentHeader = block.header ∧
      (bc.adopt (block :: blocks).reverse).currentFastBlock = block := by
  have hblock : block.number = m := hnum 0 block rfl
  have hbelow := bc.adopt_canonical (m := m + 1)
    (fun i b (hb : blocks[i]? = some b) => by rw [hnum (i + 1) b hb]; omega) m
  rw [if_neg (by omega)] at hbelow
  rw [adopt_reverse_cons]
  refine insert_heads_of_ne _ ?_
  rw [hblock, Canonical.get, hbelow]
  exact hne

/-- The canonical hashes of a chain become those of another up to its top. -/
theorem adopt_line {common news : List (Block σ)} (hcovers : bc.hc.canonical.Covers (common.map Block.hash))
    (hnum : ∀ (i : Nat) b, news[i]? = some b → b.number = common.length + i) (j : Nat) :
    (bc.adopt news.reverse).hc.canonical.hash? j =
      if j < (common ++ news).length then ((common ++ news).map Block.hash)[j]? else bc.hc.canonical.hash? j := by
  rw [adopt_canonical bc hnum j, length_append]
  rcases Nat.lt_or_ge j common.length with hlt | hge
  · have hlt' : j < (common.map Block.hash).length := by rwa [length_map]
    rw [if_neg (by omega), if_pos (by omega), map_append, List.getElem?_append_left hlt', hcovers j hlt']
  · by_cases hj : j < common.length + news.length
    · rw [if_pos ⟨hge, hj⟩, if_pos hj, map_append,
        List.getElem?_append_right (by rw [length_map]; exact hge), length_map]
    · rw [if_neg (by omega), if_neg hj]

end

/-! ## What a write does -/

/-- The transactions that `reorg` finds in dropped blocks only. -/
def droppedTxs (oldChain newChain : List (Block σ)) : List Hash :=
  let added := newChain.flatMap fun b => b.transactions.map Execution.txHash
  (oldChain.flatMap fun b => b.transactions.map Execution.txHash).filter (· ∉ added)

/-- The chain after `reorg`. -/
def reorged (bc : BlockChain σ) (oldChain newChain : List (Block σ)) : BlockChain σ :=
  { bc.adopt newChain with
    txLookups := fun h =>
      if h ∈ droppedTxs oldChain newChain then none else (bc.adopt newChain).txLookups h }

theorem reorg_eq {bc : BlockChain σ} {oldChain newChain : List (Block σ)}
    (h : bc.forkChains old new = .ok (oldChain, newChain)) :
    reorg old new bc = .ok () (bc.reorged oldChain newChain) := by
  have hcheck : (check (bc.forkChains old new) : Import σ _) bc = .ok (oldChain, newChain) bc := by
    rw [h]
    rfl
  refine (get_bind bc).trans ?_
  exact (bind_of_ok hcheck).trans rfl

/-- The chain with a total difficulty for the block that is being written. -/
def enter (bc : BlockChain σ) (block : Block σ) (td : Int) : BlockChain σ :=
  { bc with hc := { bc.hc with tds := enterTd bc.hc.tds block.hash block.number td } }

/-- The end of a write that makes the block the current one. -/
def seat (bc : BlockChain σ) (block : Block σ) (d : DposContext) (state : σ) : BlockChain σ :=
  (((bc.writeTxLookupEntries block).storeBlock block d state).insert block).unqueue block

/-- The end of a write to the side. -/
def shelve (bc : BlockChain σ) (block : Block σ) (d : DposContext) (state : σ) : BlockChain σ :=
  (bc.storeBlock block d state).unqueue block

omit [Crypto] in
theorem check_encodable {header : Header} (henc : encodable header = .ok ()) (bc : BlockChain σ) :
    (check (encodable header) : Import σ Unit) bc = .ok () bc := by
  rw [henc]
  rfl

section
variable {bc : BlockChain σ} {coin : Bool} {block : Block σ} {d : DposContext} {state : σ} {ptd localTd : Int}
  (hptd : bc.hc.getTd block.header.parentHash (predUint64 block.number) = some ptd)
  (hlocal : bc.hc.getTd bc.currentBlock.hash bc.currentBlock.number = some localTd)
  (htd : 0 ≤ block.header.difficulty + ptd) (henc : encodable block.header = .ok ())
include hptd hlocal htd henc

omit henc in
/-- `WriteBlockAndState` on known total difficulties is its batch. -/
theorem writeBlockAndState_eq_writeBatch : writeBlockAndState coin block d state bc =
      writeBatch (prefers coin (block.header.difficulty + ptd) localTd block.number bc.currentBlock.number)
        block d state (bc.enter block (block.header.difficulty + ptd)) := by
  have hwrite : (check (bc.hc.writeTd block.hash block.number (block.header.difficulty + ptd)) : Import σ _) bc =
      .ok (bc.enter block (block.header.difficulty + ptd)).hc bc := by
    rw [writeTd_ok_iff.mpr ⟨htd, rfl⟩]
    rfl
  refine (get_bind bc).trans ?_
  simp only [hptd, hlocal]
  exact (bind_of_ok hwrite).trans rfl

theorem writeBlockAndState_side
    (hpref : prefers coin (block.header.difficulty + ptd) localTd block.number bc.currentBlock.number = false) :
    writeBlockAndState coin block d state bc =
      .ok .sideStatTy ((bc.enter block (block.header.difficulty + ptd)).shelve block d state) := by
  rw [writeBlockAndState_eq_writeBatch hptd hlocal htd, hpref, writeBatch]
  refine (bind_of_ok (check_encodable henc _)).trans ?_
  rfl

theorem writeBlockAndState_extend
    (hpref : prefers coin (block.header.difficulty + ptd) localTd block.number bc.currentBlock.number = true)
    (hparent : block.header.parentHash = bc.currentBlock.hash) : writeBlockAndState coin block d state bc =
      .ok .canonStatTy ((bc.enter block (block.header.difficulty + ptd)).seat block d state) := by
  rw [writeBlockAndState_eq_writeBatch hptd hlocal htd, hpref, writeBatch]
  refine (bind_of_ok (check_encodable henc _)).trans ?_
  refine (get_bind _).trans ?_
  have hsame : ¬ block.header.parentHash ≠ (bc.enter block (block.header.difficulty + ptd)).currentBlock.hash :=
    not_not.mpr hparent
  rw [if_pos rfl, if_neg hsame]
  rfl

theorem writeBlockAndState_reorg {oldChain newChain : List (Block σ)}
    (hpref : prefers coin (block.header.difficulty + ptd) localTd block.number bc.currentBlock.number = true)
    (hparent : block.header.parentHash ≠ bc.currentBlock.hash)
    (hfork : bc.forkChains bc.currentBlock block = .ok (oldChain, newChain)) :
    writeBlockAndState coin block d state bc =
      .ok .canonStatTy (((bc.enter block (block.header.difficulty + ptd)).reorged oldChain newChain).seat
        block d state) := by
  rw [writeBlockAndState_eq_writeBatch hptd hlocal htd, hpref, writeBatch]
  refine (bind_of_ok (check_encodable henc _)).trans ?_
  refine (get_bind _).trans ?_
  have hother : block.header.parentHash ≠ (bc.enter block (block.header.difficulty + ptd)).currentBlock.hash :=
    hparent
  rw [if_pos rfl, if_pos hother]
  have hget : (bc.enter block (block.header.difficulty + ptd)).getBlock = bc.getBlock := rfl
  have hentered := (forkChains_congr hget bc.currentBlock block).trans hfork
  exact (bind_of_ok (reorg_eq hentered)).trans rfl

end

end

end BlockChain

end Bgmchain.Core
