import Bgmchain.Core.Forks
import Bgmchain.Core.Sample

/-! # The heads of the chain

The canonical hashes, the current header, the current block and the fast block are to
name one chain, the heaviest. A side write and an extension keep it so. A
reorganisation inserts the new blocks from the top down and never deletes a canonical
hash, so it leaves the header at the lowest new block and, on a shorter chain, hashes
above the head: it keeps the heads together only where it replaces the current block by
one on the same parent. -/
namespace Bgmchain.Core
open Common Function List
open Dpos (isForked predUint64)
open Lib.Hoare (stateAfter)
open Lib.Lineage (Branch)

namespace BlockChain

section
variable {σ : Type} [Execution σ] [Crypto]

/-! ## What is stored -/

/-- The blocks and total difficulties of a database that only block writes have changed:
no two blocks have one hash, total difficulties are sums, and the current block is stored. -/
structure Kept (bc : BlockChain σ) : Prop where
  linked : Linked Block.header bc.getBlock bc.hc.tds
  separate : ∀ {h n n' b b'}, bc.getBlock h n = some b → bc.getBlock h n' = some b' → n = n'
  summed : ∀ {h n b}, bc.getBlock h (n + 1) = some b → ∃ ptd, bc.hc.tds b.header.parentHash n = some ptd ∧
    bc.hc.tds h (n + 1) = some (b.header.difficulty + ptd)
  current : bc.getBlock bc.currentBlock.hash bc.currentBlock.number = some bc.currentBlock

/-- A block that comes after its parent, and whose hash is its own. -/
structure Arriving (bc : BlockChain σ) (block : Block σ) : Prop where
  writable : Writable Block.header bc.getBlock block
  alone : ∀ n b, bc.getBlock block.hash n = some b → b = block

variable {bc bc' : BlockChain σ} {block b : Block σ} {ptd : Int} {k : Hash} {n : Nat}

theorem storeBlock_getBlock (bc : BlockChain σ) (block : Block σ) (d : DposContext) (state : σ) :
    (bc.storeBlock block d state).getBlock = put Block.header bc.getBlock block := by
  funext h n
  have hheader : (bc.storeBlock block d state).hc.headers h n =
      if h = block.hash ∧ n = block.number then some block.header else bc.hc.headers h n := rfl
  have hbody : (bc.storeBlock block d state).bodies h n =
      if h = block.hash ∧ n = block.number then some (block.transactions, block.uncles) else bc.bodies h n := rfl
  unfold getBlock HeaderChain.getHeader
  rw [hheader, hbody]
  by_cases hkey : h = block.hash ∧ n = block.number
  · rw [if_pos hkey, if_pos hkey]
    exact (if_pos hkey).symm
  · rw [if_neg hkey, if_neg hkey]
    exact (if_neg hkey).symm

section
variable (h : bc.Kept) (hw : bc.Arriving block) (hptd : bc.hc.tds block.header.parentHash (predUint64 block.number) = some ptd)
include h hw hptd

/-- Writing a stored block again enters the total difficulty that it has. -/
theorem Kept.enterTd_stored (hb : bc.getBlock k n = some b) :
    enterTd bc.hc.tds block.hash block.number (block.header.difficulty + ptd) k n = bc.hc.tds k n := by
  unfold enterTd
  split
  next hkey =>
    obtain ⟨rfl, rfl⟩ := hkey
    obtain ⟨m, _, hnum, hpred, _⟩ := hw.writable.branch h.linked
    have hnum : block.number = m + 1 := hnum
    have hpred : predUint64 block.number = m := hpred
    obtain rfl := hw.alone _ _ hb
    rw [hnum] at hb ⊢
    obtain ⟨ptd', hptd', htd⟩ := h.summed hb
    rw [hpred, hptd'] at hptd
    cases hptd
    exact htd.symm
  · rfl

/-- A bound on the total difficulties before a write and on the one it enters. -/
theorem Kept.td_le {bound : Int}
    (hbefore : ∀ k n b td, bc.getBlock k n = some b → bc.hc.tds k n = some td → td ≤ bound)
    (hnew : block.header.difficulty + ptd ≤ bound) {td : Int}
    (hb : put Block.header bc.getBlock block k n = some b)
    (htd : enterTd bc.hc.tds block.hash block.number (block.header.difficulty + ptd) k n = some td) :
    td ≤ bound := by
  rcases put_eq_some hb with ⟨rfl, rfl, _⟩ | hstored
  · have hself := (enterTd_self bc.hc.tds block.hash block.number (block.header.difficulty + ptd)).symm.trans htd
    cases hself
    exact hnew
  · rw [h.enterTd_stored hw hptd hstored] at htd
    exact hbefore k n b td hstored htd

/-- A database with one more block, which may be the current one. -/
theorem Kept.stored (hnonneg : 0 ≤ block.header.difficulty + ptd)
    (hget : bc'.getBlock = put Block.header bc.getBlock block)
    (htds : bc'.hc.tds = enterTd bc.hc.tds block.hash block.number (block.header.difficulty + ptd))
    (hcurrent : bc'.currentBlock = block ∨ bc'.currentBlock = bc.currentBlock) : bc'.Kept := by
  obtain ⟨m, lp, hnum, hpred, hlp⟩ := hw.writable.branch h.linked
  have hpred : predUint64 block.number = m := hpred
  obtain ⟨_, p, hp⟩ := h.linked.top hlp
  have hself : put Block.header bc.getBlock block block.hash block.number = some block := put_self _ _
  refine ⟨?_, ?_, ?_, ?_⟩
  · rw [hget, htds]
    exact h.linked.put hw.writable hnonneg
  · intro k n n' b b' hb hb'
    rw [hget] at hb hb'
    rcases put_eq_some hb with ⟨rfl, hn, _⟩ | hstored
    · rcases put_eq_some hb' with ⟨_, hn', _⟩ | hstored'
      · rw [hn, hn']
      · have hkey := (h.linked.keyed hstored').2
        rw [hw.alone _ _ hstored'] at hkey
        exact hn.trans hkey
    · rcases put_eq_some hb' with ⟨rfl, hn', _⟩ | hstored'
      · have hkey := (h.linked.keyed hstored).2
        rw [hw.alone _ _ hstored] at hkey
        exact hkey.symm.trans hn'.symm
      · exact h.separate hstored hstored'
  · intro k n b hb
    rw [hget] at hb
    rw [htds]
    rcases put_eq_some hb with ⟨hk, hn, rfl⟩ | hb
    · have hn : n + 1 = m + 1 := hn.trans hnum
      cases hn
      refine ⟨ptd, ?_, ?_⟩
      · rw [h.enterTd_stored hw hptd hp, ← hpred, hptd]
      · rw [hk, ← hnum]
        exact enterTd_self ..
    · obtain ⟨ptd', hptd', htd⟩ := h.summed hb
      obtain ⟨l, hl⟩ := h.linked.branch hb
      refine ⟨ptd', ?_, (h.enterTd_stored hw hptd hb).trans htd⟩
      cases hl with
      | step hx hl =>
        rw [hb] at hx
        cases hx
        obtain ⟨_, q, hq⟩ := h.linked.top hl
        exact (h.enterTd_stored hw hptd hq).trans hptd'
  · rw [hget]
    rcases hcurrent with hcur | hcur
    · rw [hcur]
      exact hself
    · rw [hcur]
      exact hw.writable.mono _ _ _ h.current

end

/-! ## What a write has done -/

section
variable (bc block) (d : DposContext) (state : σ)

@[simp] theorem seat_currentBlock :
    (bc.seat block d state).currentBlock = block := insert_currentBlock _ block

theorem seat_getBlock : (bc.seat block d state).getBlock = put Block.header bc.getBlock block :=
  (insert_getBlock _ block).trans (storeBlock_getBlock _ block d state)

theorem seat_tds :
    (bc.seat block d state).hc.tds = bc.hc.tds := insert_tds _ block

theorem seat_canonical : (bc.seat block d state).hc.canonical = bc.hc.canonical.write block.hash block.number :=
  insert_canonical _ block

variable {block} in
theorem seat_heads (h : bc.hc.canonical.get block.number ≠ block.hash) :
    (bc.seat block d state).hc.currentHeader = block.header ∧ (bc.seat block d state).currentFastBlock = block :=
  insert_heads_of_ne ((bc.writeTxLookupEntries block).storeBlock block d state) h

variable (td : Int) (olds news : List (Block σ))

theorem reorged_getBlock :
    (bc.reorged olds.reverse news.reverse).getBlock = bc.getBlock := adopt_getBlock bc news

theorem reorged_tds :
    (bc.reorged olds.reverse news.reverse).hc.tds = bc.hc.tds := adopt_tds bc news

/-- The chain after a write that reorganises. -/
abbrev switched (bc : BlockChain σ) (block : Block σ) (td : Int) (olds news : List (Block σ)) (d : DposContext)
    (state : σ) : BlockChain σ :=
  ((bc.enter block td).reorged olds.reverse news.reverse).seat block d state

theorem switched_getBlock :
    (bc.switched block td olds news d state).getBlock = put Block.header bc.getBlock block := by
  rw [switched, seat_getBlock, reorged_getBlock]
  rfl

theorem switched_tds :
    (bc.switched block td olds news d state).hc.tds = enterTd bc.hc.tds block.hash block.number td := by
  rw [switched, seat_tds, reorged_tds]
  rfl

end

/-- The three things that a successful write can have done. -/
inductive Written (bc : BlockChain σ) (coin : Bool) (block : Block σ) (d : DposContext) (state : σ) :
    BlockChain σ → Prop
  | side {ptd localTd : Int}
      (hptd : bc.hc.getTd block.header.parentHash (predUint64 block.number) = some ptd)
      (hlocal : bc.hc.getTd bc.currentBlock.hash bc.currentBlock.number = some localTd)
      (htd : 0 ≤ block.header.difficulty + ptd)
      (hpref : prefers coin (block.header.difficulty + ptd) localTd block.number bc.currentBlock.number = false) :
      Written bc coin block d state ((bc.enter block (block.header.difficulty + ptd)).shelve block d state)
  | extended {ptd localTd : Int}
      (hptd : bc.hc.getTd block.header.parentHash (predUint64 block.number) = some ptd)
      (hlocal : bc.hc.getTd bc.currentBlock.hash bc.currentBlock.number = some localTd)
      (htd : 0 ≤ block.header.difficulty + ptd)
      (hpref : prefers coin (block.header.difficulty + ptd) localTd block.number bc.currentBlock.number = true)
      (hparent : block.header.parentHash = bc.currentBlock.hash) :
      Written bc coin block d state ((bc.enter block (block.header.difficulty + ptd)).seat block d state)
  | switched {ptd localTd : Int} {common olds news : List (Block σ)}
      (hptd : bc.hc.getTd block.header.parentHash (predUint64 block.number) = some ptd)
      (hlocal : bc.hc.getTd bc.currentBlock.hash bc.currentBlock.number = some localTd)
      (htd : 0 ≤ block.header.difficulty + ptd)
      (hpref : prefers coin (block.header.difficulty + ptd) localTd block.number bc.currentBlock.number = true)
      (hparent : block.header.parentHash ≠ bc.currentBlock.hash) (hf : bc.Fork block common olds news)
      (hchains : bc.forkChains bc.currentBlock block = .ok (olds.reverse, news.reverse)) :
      Written bc coin block d state (bc.switched block (block.header.difficulty + ptd) olds news d state)

/-- A block whose parent is known is written. -/
theorem Kept.write (h : bc.Kept) (hw : bc.Arriving block) (coin : Bool) (d : DposContext) (state : σ) :
    ∃ status bc', writeBlockAndState coin block d state bc = .ok status bc' ∧
      bc.Written coin block d state bc' := by
  obtain ⟨ptd, hptd, _, htd, henc⟩ := hw.writable.td h.linked
  obtain ⟨localTd, hlocal, _⟩ := h.linked.td h.current
  cases hpref : prefers coin (block.header.difficulty + ptd) localTd block.number bc.currentBlock.number with
  | false => exact ⟨_, _, writeBlockAndState_side hptd hlocal htd henc hpref, .side hptd hlocal htd hpref⟩
  | true =>
    by_cases hparent : block.header.parentHash = bc.currentBlock.hash
    · exact ⟨_, _, writeBlockAndState_extend hptd hlocal htd henc hpref hparent,
        .extended hptd hlocal htd hpref hparent⟩
    · obtain ⟨l, hb⟩ := h.linked.branch h.current
      obtain ⟨common, olds, news, hf, hchains⟩ := exists_fork h.linked h.current hb hw.writable
      exact ⟨_, _, writeBlockAndState_reorg hptd hlocal htd henc hpref hparent hchains,
        .switched hptd hlocal htd hpref hparent hf hchains⟩

section
variable {coin : Bool} {d : DposContext} {state : σ}

section
variable (hwritten : bc.Written coin block d state bc')
include hwritten

theorem Written.getBlock_eq : bc'.getBlock = put Block.header bc.getBlock block := by
  cases hwritten with
  | side => exact storeBlock_getBlock _ block d state
  | extended => exact seat_getBlock _ block d state
  | switched => exact switched_getBlock ..

theorem Written.tds_eq : ∃ ptd, bc.hc.getTd block.header.parentHash (predUint64 block.number) = some ptd ∧
      0 ≤ block.header.difficulty + ptd ∧
      bc'.hc.tds = enterTd bc.hc.tds block.hash block.number (block.header.difficulty + ptd) := by
  cases hwritten with
  | side hptd _ htd _ => exact ⟨_, hptd, htd, rfl⟩
  | extended hptd _ htd _ _ => exact ⟨_, hptd, htd, seat_tds ..⟩
  | switched hptd _ htd _ _ _ _ => exact ⟨_, hptd, htd, switched_tds ..⟩

theorem Written.currentBlock_eq : bc'.currentBlock = block ∨ bc'.currentBlock = bc.currentBlock := by
  cases hwritten with
  | side => exact .inr rfl
  | extended | switched => exact .inl (seat_currentBlock ..)

/-- What a write leaves in the database, whatever becomes of the heads. -/
theorem Written.kept (h : bc.Kept) (hw : bc.Arriving block) : bc'.Kept := by
  obtain ⟨ptd, hptd, htd, htds⟩ := hwritten.tds_eq
  exact h.stored hw hptd htd hwritten.getBlock_eq htds hwritten.currentBlock_eq

/-- The number of the block and its state. -/
theorem Written.frame : bc'.hc.numbers = update bc.hc.numbers block.hash (some block.number) ∧
      bc'.states = update bc.states
        (Execution.commitTo state (isForked bc.hc.config.eip158Block block.header.number)).1
        (some (Execution.commitTo state (isForked bc.hc.config.eip158Block block.header.number)).2) := by
  have hseat : ∀ before : BlockChain σ, SameStore bc before →
      (before.seat block d state).hc.numbers = update bc.hc.numbers block.hash (some block.number) ∧
        (before.seat block d state).states = update bc.states
          (Execution.commitTo state (isForked bc.hc.config.eip158Block block.header.number)).1
          (some (Execution.commitTo state (isForked bc.hc.config.eip158Block block.header.number)).2) := by
    intro before hsame
    have hinsert := insert_sameStore ((before.writeTxLookupEntries block).storeBlock block d state) block
    rw [← hsame.numbers, ← hsame.config, ← hsame.states]
    exact ⟨hinsert.numbers, hinsert.states⟩
  cases hwritten with
  | side => exact ⟨rfl, rfl⟩
  | extended => exact hseat _ ⟨rfl, rfl, rfl, rfl, rfl⟩
  | @switched ptd _ _ _ news _ _ _ _ _ _ _ =>
    have hadopt := (bc.enter block (block.header.difficulty + ptd)).adopt_sameStore news.reverse
    exact hseat _ ⟨hadopt.headers, hadopt.numbers, hadopt.config, hadopt.states, hadopt.engine⟩

end

end

/-! ## The heads -/

/-- **The heads name one chain, the heaviest**: the canonical hashes are those of the
current block and its ancestors, with none above, no stored block has a greater total
difficulty, and the current header and the fast block are those of the current block. -/
structure Aligned (bc : BlockChain σ) : Prop where
  line : ∃ l, bc.BlockBranch bc.currentBlock.hash bc.currentBlock.number l ∧
    bc.hc.canonical.Follows (l.map Block.hash)
  heaviest : ∀ {h n b td localTd}, bc.getBlock h n = some b → bc.hc.getTd h n = some td →
    bc.hc.getTd bc.currentBlock.hash bc.currentBlock.number = some localTd → td ≤ localTd
  header : bc.hc.currentHeader = bc.currentBlock.header
  fast : bc.currentFastBlock = bc.currentBlock

/-- The fork choice takes the block. -/
def Preferred (bc : BlockChain σ) (coin : Bool) (block : Block σ) : Prop :=
  ∃ ptd localTd, bc.hc.getTd block.header.parentHash (predUint64 block.number) = some ptd ∧
    bc.hc.getTd bc.currentBlock.hash bc.currentBlock.number = some localTd ∧
    prefers coin (block.header.difficulty + ptd) localTd block.number bc.currentBlock.number = true

/-- A block that is taken extends the current one or stands in its place. -/
def KeepsHeads (bc : BlockChain σ) (coin : Bool) (block : Block σ) : Prop :=
  bc.Preferred coin block → block.header.parentHash = bc.currentBlock.hash ∨
    block.header.parentHash = bc.currentBlock.header.parentHash ∧ block.number = bc.currentBlock.number

section
variable {coin : Bool} {d : DposContext} {state : σ} {localTd : Int}
  (hptd : bc.hc.getTd block.header.parentHash (predUint64 block.number) = some ptd)
  (hlocal : bc.hc.getTd bc.currentBlock.hash bc.currentBlock.number = some localTd)
  (hpref : prefers coin (block.header.difficulty + ptd) localTd block.number bc.currentBlock.number = true)

section
variable (ha : bc.Aligned) (h : bc.Kept) (hw : bc.Arriving block)
include hptd hlocal ha h hw

include hpref in
/-- The block that is taken is the heaviest. -/
theorem Aligned.heaviest_taken (hget : bc'.getBlock = put Block.header bc.getBlock block)
    (htds : bc'.hc.tds = enterTd bc.hc.tds block.hash block.number (block.header.difficulty + ptd))
    (hcurrent : bc'.currentBlock = block) {td td' : Int}
    (hb : bc'.getBlock k n = some b) (htd : bc'.hc.getTd k n = some td)
    (htd' : bc'.hc.getTd bc'.currentBlock.hash bc'.currentBlock.number = some td') : td ≤ td' := by
  unfold HeaderChain.getTd at htd htd'
  have hle : localTd ≤ block.header.difficulty + ptd := by
    rcases prefers_eq_true.mp hpref with hlt | ⟨heq, _⟩
    · exact Int.le_of_lt hlt
    · exact Int.le_of_eq heq.symm
  rw [hcurrent, htds, enterTd_self] at htd'
  cases htd'
  rw [hget] at hb
  rw [htds] at htd
  exact h.td_le hw hptd (fun k n b td hb htd => Int.le_trans (ha.heaviest hb htd hlocal) hle) (Int.le_refl _) hb htd

/-- A side write leaves the heads where they are. -/
theorem Aligned.shelve (hpref : prefers coin (block.header.difficulty + ptd) localTd block.number bc.currentBlock.number = false) :
    ((bc.enter block (block.header.difficulty + ptd)).shelve block d state).Aligned := by
  have hget := storeBlock_getBlock (bc.enter block (block.header.difficulty + ptd)) block d state
  have hle : block.header.difficulty + ptd ≤ localTd := by
    by_contra hlt
    have := prefers_eq_true.mpr (.inl (not_le.mp hlt) :
      _ ∨ _ = localTd ∧ (block.number < bc.currentBlock.number ∨ block.number = bc.currentBlock.number ∧ coin = true))
    rw [hpref] at this
    cases this
  obtain ⟨l, hb, hfollows⟩ := ha.line
  refine ⟨⟨l, ?_, hfollows⟩, ?_, ha.header, ha.fast⟩
  · refine hb.mono ?_
    intro k n b hb
    show (storeBlock _ block d state).getBlock k n = some b
    rw [hget]
    exact hw.writable.mono k n b hb
  · intro k n b td td' hb htd htd'
    have hb : (storeBlock _ block d state).getBlock k n = some b := hb
    have htd' : enterTd bc.hc.tds block.hash block.number (block.header.difficulty + ptd) bc.currentBlock.hash
      bc.currentBlock.number = some td' := htd'
    rw [h.enterTd_stored hw hptd h.current, show bc.hc.tds _ _ = some localTd from hlocal] at htd'
    cases htd'
    rw [hget] at hb
    exact h.td_le hw hptd (fun k n b td hb htd => ha.heaviest hb htd hlocal) hle hb htd

include hpref in
/-- An extension moves all heads to the block. -/
theorem Aligned.extend (hparent : block.header.parentHash = bc.currentBlock.hash) :
    ((bc.enter block (block.header.difficulty + ptd)).seat block d state).Aligned := by
  obtain ⟨l, hb, hfollows⟩ := ha.line
  obtain ⟨n, lp, hnumber, _, hlp⟩ := hw.writable.branch h.linked
  obtain ⟨_, p, hp⟩ := h.linked.top hlp
  have hn : n = bc.currentBlock.number := h.separate hp (hparent ▸ h.current)
  subst hn
  have hnum : block.number = (l.map Block.hash).length := by
    rw [length_map, hb.length]
    exact hnumber
  have hnone : bc.hc.canonical.get block.number ≠ block.hash := by
    rw [hfollows.get, hnum, getElem?_eq_none le_rfl]
    exact fun hzero => hw.writable.hash_ne hzero.symm
  set entered := bc.enter block (block.header.difficulty + ptd)
  have hheads := seat_heads entered d state hnone
  refine ⟨⟨l ++ [block], ?_, ?_⟩, ?_, ?_, ?_⟩
  · rw [BlockBranch, seat_getBlock, seat_currentBlock]
    exact hw.writable.put_branch hnumber (hparent ▸ hb)
  · rw [seat_canonical, map_append, hnum]
    exact hfollows.write block.hash
  · intro k m b td td'
    exact ha.heaviest_taken hptd hlocal hpref h hw (seat_getBlock entered block d state)
      (seat_tds entered block d state) (seat_currentBlock ..)
  · rw [seat_currentBlock]
    exact hheads.1
  · rw [seat_currentBlock]
    exact hheads.2

end

/-! ## Reorganisations -/

section
variable {common olds news : List (Block σ)} {td : Int}

section
variable (hf : bc.Fork block common olds news) (h : bc.Kept) (hw : bc.Arriving block) (hcovers : bc.hc.canonical.Covers (common.map Block.hash))
include hf h hw hcovers

/-- The canonical hashes up to the new block are those of its branch; above it the old
ones stay. -/
theorem Fork.canonical_switched (j : Nat) : (bc.switched block td olds news d state).hc.canonical.hash? j =
      if j ≤ block.number then ((common ++ news).map Block.hash)[j]? else bc.hc.canonical.hash? j := by
  have hlen := hf.new.length
  have hadopt := adopt_line (bc.enter block td) hcovers (fun i b => hf.number h.linked hw.writable) j
  rw [switched, seat_canonical]
  by_cases hj : j = block.number
  · subst hj
    rw [if_pos le_rfl, getElem?_map, hf.top]
    exact update_self ..
  · refine (update_of_ne hj ..).trans (hadopt.trans ?_)
    by_cases hle : j ≤ block.number
    · rw [if_pos (by omega), if_pos hle]
    · rw [if_neg (by omega), if_neg hle]
      rfl

variable (d state td) in
/-- The last insertion moves nothing: the new block is canonical by then. -/
theorem Fork.heads_switched : (bc.switched block td olds news d state).hc.currentHeader =
        ((bc.enter block td).adopt news.reverse).hc.currentHeader ∧
      (bc.switched block td olds news d state).currentFastBlock =
        ((bc.enter block td).adopt news.reverse).currentFastBlock := by
  have hlen := hf.new.length
  have hadopt := adopt_line (bc.enter block td) hcovers (fun i b => hf.number h.linked hw.writable)
    block.number
  rw [if_pos (by omega), getElem?_map, hf.top] at hadopt
  have hget : ((bc.enter block td).adopt news.reverse).hc.canonical.get block.number = block.hash := by
    rw [Canonical.get, hadopt]
    rfl
  exact insert_heads_of_eq ((((bc.enter block td).reorged olds.reverse news.reverse).writeTxLookupEntries
    block).storeBlock block d state) hget

end

omit [Crypto] in
theorem covers_common {c : Canonical} {common olds : List (Block σ)} {hash : Block σ → Hash}
    (hfollows : c.Follows ((common ++ olds).map hash)) : c.Covers (common.map hash) := by
  rw [map_append] at hfollows
  exact hfollows.covers.of_append

variable (d state td) in
/-- Where there are new blocks, the header and the fast block end at the lowest. -/
theorem Fork.heads_switched_cons {low : Block σ} (hf : bc.Fork block common olds (low :: news)) (h : bc.Kept)
    (hw : bc.Arriving block) (hfollows : bc.hc.canonical.Follows ((common ++ olds).map Block.hash)) :
    (bc.switched block td olds (low :: news) d state).hc.currentHeader = low.header ∧
      (bc.switched block td olds (low :: news) d state).currentFastBlock = low := by
  have hne : bc.hc.canonical.get common.length ≠ low.hash := by
    rw [hfollows.get, getElem?_map, getElem?_append_right le_rfl, Nat.sub_self]
    cases holds : olds[0]? with
    | none => exact fun hzero => hf.hash_ne h.linked hw.writable mem_cons_self hzero.symm
    | some x => exact hf.apart 0 x low holds rfl
  obtain ⟨hheader, hfast⟩ := hf.heads_switched d state td h hw (covers_common hfollows)
  have hadopt := (bc.enter block td).adopt_heads (fun i b => hf.number h.linked hw.writable) hne
  exact ⟨hheader.trans hadopt.1, hfast.trans hadopt.2⟩

section
variable (hf : bc.Fork block common olds news) (h : bc.Kept)
include hf h

theorem Fork.top_old :
    (common ++ olds)[bc.currentBlock.number]? = some bc.currentBlock := hf.old.getElem?_top.trans h.current

theorem Fork.parent_old {m : Nat} {p x : Block σ}
    (hp : (common ++ olds)[m]? = some p) (hx : (common ++ olds)[m + 1]? = some x) :
    x.header.parentHash = p.hash := hf.old.parent_eq h.linked.keys hp hx

theorem Fork.parent_new (hw : bc.Arriving block) {m : Nat}
    {p x : Block σ} (hp : (common ++ news)[m]? = some p) (hx : (common ++ news)[m + 1]? = some x) :
    x.header.parentHash = p.hash :=
  hf.new.parent_eq (h.linked.put hw.writable (Int.le_refl 0)).keys hp hx

/-- If the heads are together after a reorganisation, the block has taken the place of
the current one. -/
theorem Fork.stands_of_aligned (hw : bc.Arriving block)
    (hfollows : bc.hc.canonical.Follows ((common ++ olds).map Block.hash))
    (hparent : block.header.parentHash ≠ bc.currentBlock.hash)
    (ha : (bc.switched block td olds news d state).Aligned) :
    block.header.parentHash = bc.currentBlock.header.parentHash ∧ block.number = bc.currentBlock.number := by
  have hlen := hf.old.length
  have hlen' := hf.new.length
  have htop := hf.top
  have htopOld := hf.top_old h
  -- no old hash is left above the block
  have hshort : (common ++ olds).length ≤ block.number + 1 := by
    obtain ⟨l, hb, hline⟩ := ha.line
    rw [BlockBranch, switched_getBlock, seat_currentBlock] at hb
    obtain rfl := hb.unique hf.new
    have hgone : ((common ++ news).map Block.hash)[block.number + 1]? = none :=
      getElem?_eq_none (by rw [length_map]; omega)
    have hnone := hline (block.number + 1)
    rw [hf.canonical_switched h hw (covers_common hfollows), if_neg (by omega), hfollows, hgone,
      getElem?_eq_none_iff, length_map] at hnone
    exact hnone
  rw [length_append] at hlen hlen' hshort
  cases news with
  | nil =>
    rw [length_nil] at hlen'
    have hnum : block.number = bc.currentBlock.number := by omega
    obtain rfl : olds = [] := length_eq_zero_iff.mp (by omega)
    rw [← hnum, htop] at htopOld
    exact ⟨by rw [Option.some.inj htopOld], hnum⟩
  | cons low news =>
    have hlow : low.header = block.header :=
      (hf.heads_switched_cons d state td h hw hfollows).1.symm.trans
        (ha.header.trans (congrArg Block.header (seat_currentBlock ..)))
    have hcommon : block.number = common.length :=
      (congrArg (fun header : Header => uint64 header.number) hlow).symm.trans
        (hf.number h.linked hw.writable (i := 0) rfl)
    obtain ⟨m, _, hm, _, _⟩ := hw.writable.branch h.linked
    have hm : block.number = m + 1 := hm
    have hbelow : ∀ rest : List (Block σ), (common ++ rest)[m]? = common[m]? := fun rest =>
      getElem?_append_left (by omega)
    have hp := getElem?_eq_getElem (show m < common.length by omega)
    have hnew := hf.parent_new h hw ((hbelow _).trans hp) (hm ▸ htop)
    rcases Nat.eq_zero_or_pos olds.length with hnil | hpos
    · obtain rfl : olds = [] := length_eq_zero_iff.mp hnil
      have hN : bc.currentBlock.number = m := by omega
      rw [hN, hbelow, hp] at htopOld
      exact absurd (hnew.trans (congrArg Block.hash (Option.some.inj htopOld))) hparent
    · have hN : bc.currentBlock.number = m + 1 := by omega
      have hold := hf.parent_old h ((hbelow _).trans hp) (hN ▸ htopOld)
      exact ⟨hnew.trans hold.symm, hm.trans hN.symm⟩

include hptd hlocal hpref in
/-- A block that takes the place of the current one keeps the heads together. -/
theorem Fork.aligned_of_stands (hw : bc.Arriving block) (ha : bc.Aligned)
    (hfollows : bc.hc.canonical.Follows ((common ++ olds).map Block.hash))
    (hparent : block.header.parentHash = bc.currentBlock.header.parentHash)
    (hnum : block.number = bc.currentBlock.number) :
    (bc.switched block (block.header.difficulty + ptd) olds news d state).Aligned := by
  have hlen := hf.old.length
  have hlen' := hf.new.length
  have htop := hf.top
  have htopOld := hf.top_old h
  obtain ⟨m, _, hm, _, _⟩ := hw.writable.branch h.linked
  have hm : block.number = m + 1 := hm
  -- the branches share the parent of both blocks
  have hcommon : m + 1 ≤ common.length := by
    by_contra hlt
    rw [not_le] at hlt
    have hp := getElem?_eq_getElem (show m < (common ++ olds).length by omega)
    have hp' := getElem?_eq_getElem (show m < (common ++ news).length by omega)
    have hold := hf.parent_old h hp ((hnum ▸ hm) ▸ htopOld)
    have hnew := hf.parent_new h hw hp' (hm ▸ htop)
    rw [← hparent, hnew] at hold
    rw [getElem?_append_right (by omega)] at hp hp'
    exact hf.apart _ _ _ hp hp' hold.symm
  rw [length_append] at hlen hlen'
  have hheads : (bc.switched block (block.header.difficulty + ptd) olds news d state).hc.currentHeader = block.header ∧
      (bc.switched block (block.header.difficulty + ptd) olds news d state).currentFastBlock = block := by
    cases news with
    | nil =>
      obtain rfl : olds = [] := length_eq_zero_iff.mp (by rw [length_nil] at hlen'; omega)
      rw [← hnum, htop] at htopOld
      obtain ⟨hheader, hfast⟩ := hf.heads_switched d state (block.header.difficulty + ptd)
        h hw (covers_common hfollows)
      rw [hheader, hfast, Option.some.inj htopOld]
      exact ⟨ha.header, ha.fast⟩
    | cons low news =>
      obtain rfl : news = [] := length_eq_zero_iff.mp (by rw [length_cons] at hlen'; omega)
      rw [length_singleton] at hlen'
      rw [show block.number = common.length by omega, getElem?_concat_length] at htop
      cases htop
      exact hf.heads_switched_cons d state _ h hw hfollows
  refine ⟨⟨common ++ news, ?_, ?_⟩, ?_, ?_, ?_⟩
  · rw [BlockBranch, switched_getBlock, seat_currentBlock]
    exact hf.new
  · intro j
    rw [hf.canonical_switched h hw (covers_common hfollows)]
    split
    · rfl
    · rw [hfollows, getElem?_eq_none (by rw [length_map, length_append]; omega),
        getElem?_eq_none (by rw [length_map, length_append]; omega)]
  · intro k n b td td'
    exact ha.heaviest_taken hptd hlocal hpref h hw (switched_getBlock ..) (switched_tds ..) (seat_currentBlock ..)
  · rw [seat_currentBlock]
    exact hheads.1
  · rw [seat_currentBlock]
    exact hheads.2

end

end

include hptd hlocal in
theorem preferred_iff : bc.Preferred coin block ↔
      prefers coin (block.header.difficulty + ptd) localTd block.number bc.currentBlock.number = true := by
  refine ⟨?_, fun hpref => ⟨ptd, localTd, hptd, hlocal, hpref⟩⟩
  intro ⟨ptd', localTd', hptd', hlocal', hpref⟩
  rw [hptd] at hptd'
  rw [hlocal] at hlocal'
  cases hptd'
  cases hlocal'
  exact hpref

/-- **One call of `WriteBlockAndState`** keeps the heads together exactly when a block
that is taken extends the current one or stands in its place. -/
theorem Written.aligned_iff (hwritten : bc.Written coin block d state bc') (h : bc.Kept) (hw : bc.Arriving block)
    (ha : bc.Aligned) : bc'.Aligned ↔ bc.KeepsHeads coin block := by
  cases hwritten with
  | side hptd hlocal _ hpref =>
    refine iff_of_true (ha.shelve hptd hlocal h hw hpref) fun htaken => ?_
    rw [preferred_iff hptd hlocal, hpref] at htaken
    cases htaken
  | extended hptd hlocal _ hpref hparent =>
    exact iff_of_true (ha.extend hptd hlocal hpref h hw hparent) fun _ => .inl hparent
  | switched hptd hlocal _ hpref hparent hf _ =>
    obtain ⟨l, hb, hfollows⟩ := ha.line
    obtain rfl := hb.unique hf.old
    constructor
    · intro ha' _
      exact .inr (hf.stands_of_aligned h hw hfollows hparent ha')
    · intro hkeeps
      obtain ⟨hsame, hnum⟩ := (hkeeps ((preferred_iff hptd hlocal).mpr hpref)).resolve_left hparent
      exact hf.aligned_of_stands hptd hlocal hpref h hw ha hfollows hsame hnum

end

end

end BlockChain

/-! ## Sequences of writes -/

/-- A call of `WriteBlockAndState`, with the coin of its fork choice. -/
structure Write (σ : Type) [Execution σ] where
  coin : Bool
  block : Block σ
  d : DposContext
  state : σ

section
variable {σ : Type} [Execution σ] [Crypto]

namespace BlockChain

/-- The chain after a call, also after one that fails. -/
def write (bc : BlockChain σ) (w : Write σ) : BlockChain σ :=
  stateAfter (writeBlockAndState w.coin w.block w.d w.state) bc

def writeAll (bc : BlockChain σ) (ws : List (Write σ)) : BlockChain σ := ws.foldl write bc

/-- Each block comes after its parent. -/
def AllArriving (bc : BlockChain σ) : List (Write σ) → Prop
  | [] => True
  | w :: ws => bc.Arriving w.block ∧ (bc.write w).AllArriving ws

/-- The call succeeds. -/
def Succeeds (bc : BlockChain σ) (w : Write σ) : Prop :=
  ∃ status bc', writeBlockAndState w.coin w.block w.d w.state bc = .ok status bc'

variable {bc : BlockChain σ} {w : Write σ} {ws : List (Write σ)}

theorem writeAll_take_succ {k : Nat} (hk : ws[k]? = some w) :
    bc.writeAll (ws.take (k + 1)) = (bc.writeAll (ws.take k)).write w := by
  rw [take_add_one, hk, Option.toList_some, BlockChain.writeAll, foldl_concat]
  rfl

theorem Kept.write_step (h : bc.Kept) (hw : bc.Arriving w.block) :
    bc.Succeeds w ∧ bc.Written w.coin w.block w.d w.state (bc.write w) := by
  obtain ⟨status, bc', hok, hwritten⟩ := h.write hw w.coin w.d w.state
  have hwrite : bc.write w = bc' := by rw [BlockChain.write, stateAfter, hok]
  rw [hwrite]
  exact ⟨⟨status, bc', hok⟩, hwritten⟩

theorem Kept.write_kept (h : bc.Kept) (hw : bc.Arriving w.block) : (bc.write w).Kept :=
  (h.write_step hw).2.kept h hw

/-- What is kept stays so in the course of the calls, all of which succeed. -/
theorem Kept.writeAll (h : bc.Kept) (hw : bc.AllArriving ws) (k : Nat) :
    (bc.writeAll (ws.take k)).Kept ∧ ∀ w, ws[k]? = some w → (bc.writeAll (ws.take k)).Arriving w.block := by
  induction ws generalizing bc k with
  | nil =>
    rw [take_nil]
    exact ⟨h, fun w hk => by cases hk⟩
  | cons w ws ih =>
    cases k with
    | zero =>
      refine ⟨h, fun v hv => ?_⟩
      cases hv
      exact hw.1
    | succ k => exact ih (h.write_kept hw.1) hw.2 k

/-- **The heads stay together exactly as long as every block that is taken extends the
current one or stands in its place.** Blocks that come after their parents are all
written; the heads name one chain, the heaviest, after each call, exactly when each
call meets that condition in the state before it. -/
theorem writeAll_aligned_iff (h : bc.Kept) (ha : bc.Aligned) (hw : bc.AllArriving ws) :
    (∀ k w, ws[k]? = some w → (bc.writeAll (ws.take k)).Succeeds w) ∧
      ((∀ k, (bc.writeAll (ws.take k)).Aligned) ↔
        ∀ k w, ws[k]? = some w → (bc.writeAll (ws.take k)).KeepsHeads w.coin w.block) := by
  have hstep : ∀ k w, ws[k]? = some w → (bc.writeAll (ws.take k)).Succeeds w ∧
      ((bc.writeAll (ws.take k)).Aligned → ((bc.writeAll (ws.take (k + 1))).Aligned ↔
        (bc.writeAll (ws.take k)).KeepsHeads w.coin w.block)) := by
    intro k w hk
    obtain ⟨hkept, harrive⟩ := h.writeAll hw k
    obtain ⟨hsucceeds, hwritten⟩ := hkept.write_step (harrive w hk)
    rw [writeAll_take_succ hk]
    exact ⟨hsucceeds, hwritten.aligned_iff hkept (harrive w hk)⟩
  refine ⟨fun k w hk => (hstep k w hk).1, ?_⟩
  constructor
  · intro haligned k w hk
    exact ((hstep k w hk).2 (haligned k)).mp (haligned (k + 1))
  · intro hkeeps k
    induction k with
    | zero => exact ha
    | succ k ih =>
      cases hk : ws[k]? with
      | some w => exact ((hstep k w hk).2 ih).mpr (hkeeps k w hk)
      | none =>
        rw [take_add_one, hk, Option.toList_none, append_nil]
        exact ih

/-! ## The start -/

/-- A chain that holds a genesis block only. -/
structure Booted (bc : BlockChain σ) (genesis : Block σ) : Prop where
  number : genesis.number = 0
  hash_ne : genesis.hash ≠ .zero 32
  stored : ∀ h n, bc.getBlock h n = if h = genesis.hash ∧ n = 0 then some genesis else none
  td : ∃ td, 0 ≤ td ∧ bc.hc.tds genesis.hash 0 = some td
  canonical : ∀ n, bc.hc.canonical.hash? n = [genesis.hash][n]?
  current : bc.currentBlock = genesis
  header : bc.hc.currentHeader = genesis.header
  fast : bc.currentFastBlock = genesis

variable {genesis : Block σ}

section
variable (h : bc.Booted genesis)
include h

theorem Booted.eq_genesis {k : Hash} {n : Nat} {b : Block σ}
    (hb : bc.getBlock k n = some b) : k = genesis.hash ∧ n = 0 ∧ b = genesis := by
  rw [h.stored] at hb
  split at hb
  next hkey =>
    cases hb
    exact ⟨hkey.1, hkey.2, rfl⟩
  · cases hb

theorem Booted.linked :
    Linked Block.header bc.getBlock bc.hc.tds ∧ bc.BlockBranch genesis.hash genesis.number [genesis] := by
  obtain ⟨td, htd, htds⟩ := h.td
  exact linked_root h.number h.hash_ne htd h.stored htds

theorem Booted.kept : bc.Kept := by
  refine ⟨h.linked.1, ?_, ?_, ?_⟩
  · intro k n n' b b' hb hb'
    rw [(h.eq_genesis hb).2.1, (h.eq_genesis hb').2.1]
  · intro k n b hb
    have := (h.eq_genesis hb).2.1
    omega
  · rw [h.current, h.stored, if_pos ⟨rfl, h.number⟩]

theorem Booted.aligned : bc.Aligned := by
  refine ⟨⟨[genesis], ?_, h.canonical⟩, ?_, ?_, ?_⟩
  · rw [h.current]
    exact h.linked.2
  · intro k n b td td' hb htd htd'
    obtain ⟨rfl, rfl, rfl⟩ := h.eq_genesis hb
    rw [h.current, h.number, htd] at htd'
    cases htd'
    exact Int.le_refl _
  · rw [h.current, h.header]
  · rw [h.current, h.fast]

end

end BlockChain

end

/-! ## Two forks of a genesis block -/

section
open Dpos.Sample Sample BlockChain

theorem chainOf_getBlock (genesis : Header) (db : NodeDatabase) (h : Hash) (n : Nat) :
    (chainOf genesis db).getBlock h n =
      if h = (empty genesis).hash ∧ n = 0 then some (empty genesis) else none := by
  have hheader : (chainOf genesis db).hc.getHeader h n =
      if h = (empty genesis).hash ∧ n = 0 then some genesis else none := rfl
  have hbody : (chainOf genesis db).bodies h n =
      if h = (empty genesis).hash ∧ n = 0 then some ([], []) else none := rfl
  unfold getBlock
  rw [hheader, hbody]
  split
  · rfl
  · rfl

theorem chainOf_booted (genesis : Header) (hnum : uint64 genesis.number = 0) (hne : genesis.hash ≠ .zero 32)
    (htd : 0 ≤ genesis.difficulty) (db : NodeDatabase) : (chainOf genesis db).Booted (empty genesis) := by
  refine ⟨hnum, hne, chainOf_getBlock genesis db, ⟨_, htd, if_pos ⟨rfl, rfl⟩⟩, ?_, rfl, rfl, rfl⟩
  intro n
  cases n with
  | zero | succ n => rfl

def leftHeader : Header := header 1 10 (address 1) plainGenesis.hash

def rightHeader : Header := header 1 20 (address 2) plainGenesis.hash

def rightChild : Header := header 2 30 (address 1) rightHeader.hash

/-- A block without transactions, against the coin. -/
def writeEmpty (header : Header) : Write (Address → Int) := ⟨false, empty header, DposContext.new nodes, fun _ => 0⟩

theorem plainChain_booted : plainChain.Booted (empty plainGenesis) :=
  chainOf_booted plainGenesis rfl (by decide +kernel) (by decide) nodes

/-- A first block on the genesis. -/
theorem Sample.arriving_first {first : Block (Address → Int)} (hnum : first.number = 1)
    (hparent : first.header.parentHash = plainGenesis.hash) (henc : first.header.encode.isSome)
    (hzero : first.hash ≠ .zero 32) (hne : first.hash ≠ plainGenesis.hash) : plainChain.Arriving first := by
  have hpred : predUint64 1 = 0 := by simp [predUint64]
  refine ⟨⟨⟨empty plainGenesis, ?_⟩, henc, ?_, hzero, ?_⟩, ?_⟩
  · show plainChain.getBlock first.header.parentHash (predUint64 first.number) = _
    rw [hnum, hpred, hparent, plainChain_booted.stored, if_pos ⟨rfl, rfl⟩]
  · show first.number < _
    rw [hnum]
    decide
  · intro b hb
    exact absurd (plainChain_booted.eq_genesis hb).1 hne
  · intro n b hb
    exact absurd (plainChain_booted.eq_genesis hb).1 hne

/-- The left block on the genesis. -/
theorem writeAll_aligned_iff_left : (∀ k, (plainChain.writeAll ([writeEmpty leftHeader].take k)).Aligned) ↔
      ∀ k w, [writeEmpty leftHeader][k]? = some w →
        (plainChain.writeAll ([writeEmpty leftHeader].take k)).KeepsHeads w.coin w.block := by
  have harrive : plainChain.Arriving (empty leftHeader) :=
    Sample.arriving_first rfl rfl rfl (by decide +kernel) (by decide +kernel)
  have hall : plainChain.AllArriving [writeEmpty leftHeader] := ⟨harrive, trivial⟩
  exact (writeAll_aligned_iff plainChain_booted.kept plainChain_booted.aligned hall).2

/-- The second fork overtakes the first, and the current header stays one block behind
the current block. -/
theorem header_behind_after_reorg :
    ¬ (plainChain.writeAll ([leftHeader, rightHeader, rightChild].map writeEmpty)).Aligned := by
  have hbehind : (plainChain.writeAll ([leftHeader, rightHeader, rightChild].map writeEmpty)).hc.currentHeader.number = 1 ∧
      (plainChain.writeAll ([leftHeader, rightHeader, rightChild].map writeEmpty)).currentBlock.header.number = 2 := by
    decide +kernel
  intro ha
  have := congrArg Header.number ha.header
  rw [hbehind.1, hbehind.2] at this
  cases this

end

end Bgmchain.Core
