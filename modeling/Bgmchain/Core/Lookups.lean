import Bgmchain.Core.Heads
import Bgmchain.Lib.Index

/-! # Transaction lookups

The lookup entries are written with each block that becomes canonical and erased with
those that a reorganisation drops. Along every sequence of block writes they are the
transactions of the current block and its ancestors, provided that no transaction
occurs twice on a branch. -/
namespace Bgmchain.Core
open Common List Lib
open Lib.Index (Lists)
open Lib.Lineage (Branch)

section
variable {σ : Type} [Execution σ] [Crypto]

/-- The hashes of the transactions of a block. -/
def Block.txHashes (b : Block σ) : List Hash := b.transactions.map Execution.txHash

/-- The lookup entries of a block. -/
def Block.entries (b : Block σ) : List (Hash × Hash × Nat × Nat) :=
  b.transactions.zipIdx.map fun e => (Execution.txHash e.1, b.hash, b.number, e.2)

theorem Block.entries_keys (b : Block σ) : b.entries.map Prod.fst = b.txHashes := by
  rw [entries, map_map, txHashes]
  conv_rhs => rw [← zipIdx_map_fst 0 b.transactions, map_map]
  rfl

theorem Block.mem_entries {b : Block σ} {h hash : Hash} {number index : Nat} :
    (h, hash, number, index) ∈ b.entries ↔ hash = b.hash ∧ number = b.number ∧ b.txHashes[index]? = some h := by
  unfold entries txHashes
  rw [mem_map, List.getElem?_map, Option.map_eq_some_iff]
  constructor
  · intro ⟨⟨tx, i⟩, hmem, heq⟩
    cases heq
    exact ⟨rfl, rfl, tx, mk_mem_zipIdx_iff_getElem?.mp hmem, rfl⟩
  · intro ⟨hhash, hnumber, tx, htx, hkey⟩
    subst hhash hnumber hkey
    exact ⟨(tx, index), mk_mem_zipIdx_iff_getElem?.mpr htx, rfl⟩

namespace BlockChain

/-- `GetTxLookupEntry`: block hash, number and index, all zero where there is none. -/
def getTxLookupEntry (bc : BlockChain σ) (hash : Hash) : Hash × Nat × Nat :=
  (bc.txLookups hash).getD (.zero 32, 0, 0)

/-- The block with this hash and number is canonical and has the transaction at this
index. -/
def HoldsTx (bc : BlockChain σ) (h hash : Hash) (number index : Nat) : Prop :=
  number ≤ bc.currentBlock.number ∧ bc.hc.canonical.hash? number = some hash ∧
    ∃ b, bc.getBlock hash number = some b ∧ b.txHashes[index]? = some h

/-- No transaction occurs twice on a branch. -/
def Unrepeated (bc : BlockChain σ) : Prop :=
  ∀ k n l, bc.BlockBranch k n l → (l.flatMap Block.txHashes).Nodup

/-- The canonical hashes up to the current block and the lookup entries are those of
the current block and its ancestors. -/
def Indexed (bc : BlockChain σ) : Prop :=
  ∃ l, bc.BlockBranch bc.currentBlock.hash bc.currentBlock.number l ∧
    bc.hc.canonical.Covers (l.map Block.hash) ∧ Lists bc.txLookups (l.flatMap Block.entries)

variable {bc bc' : BlockChain σ} {block : Block σ}

theorem flatMap_entries_keys (l : List (Block σ)) :
    (l.flatMap Block.entries).map Prod.fst = l.flatMap Block.txHashes := by
  rw [map_flatMap]
  exact congrArg (l.flatMap ·) (funext Block.entries_keys)

variable {l : List (Block σ)}

theorem Unrepeated.keys (h : bc.Unrepeated) {k : Hash} {n : Nat}
    (hb : bc.BlockBranch k n l) : ((l.flatMap Block.entries).map Prod.fst).Nodup := by
  rw [flatMap_entries_keys]
  exact h k n l hb

/-! ## What writes do to the entries -/

section
variable (bc : BlockChain σ) (block : Block σ)

theorem writeTxLookupEntries_txLookups :
    (bc.writeTxLookupEntries block).txLookups = Index.enter bc.txLookups block.entries := by
  rw [Index.enter, Block.entries, foldl_map]
  rfl

theorem seat_txLookups (d : DposContext) (state : σ) :
    (bc.seat block d state).txLookups = Index.enter bc.txLookups block.entries :=
  (insert_txLookups _ block).trans (writeTxLookupEntries_txLookups bc block)

theorem adopt_txLookups (blocks : List (Block σ)) :
    (bc.adopt blocks).txLookups = Index.enter bc.txLookups (blocks.flatMap Block.entries) := by
  induction blocks generalizing bc with
  | nil => rfl
  | cons block blocks ih =>
    rw [flatMap_cons, Index.enter_append, ← insert_txLookups bc block,
      ← writeTxLookupEntries_txLookups]
    exact ih _

theorem reorged_txLookups (oldChain newChain : List (Block σ)) : (bc.reorged oldChain newChain).txLookups =
      Index.erase (Index.enter bc.txLookups (newChain.flatMap Block.entries)) (droppedTxs oldChain newChain) := by
  rw [← adopt_txLookups]
  rfl

end

omit [Crypto] in
theorem mem_droppedTxs {oldChain newChain : List (Block σ)} {h : Hash} : h ∈ droppedTxs oldChain newChain ↔
      h ∈ oldChain.flatMap Block.txHashes ∧ h ∉ newChain.flatMap Block.txHashes := by
  unfold droppedTxs
  rw [mem_filter, decide_eq_true_eq]
  rfl

/-! ## Sequences of writes -/

/-- **One write keeps the entries those of the current block and its ancestors.** -/
theorem Written.indexed {coin : Bool} {d : DposContext} {state : σ}
    (hwritten : bc.Written coin block d state bc') (h : bc.Kept) (hw : bc.Arriving block) (hi : bc.Indexed)
    (hno : bc'.Unrepeated) : bc'.Indexed := by
  obtain ⟨l, hb, hcovers, hlists⟩ := hi
  cases hwritten with
  | side hptd _ _ _ =>
    refine ⟨l, hb.mono ?_, hcovers, hlists⟩
    intro k n b hstored
    exact (congrFun₂ (storeBlock_getBlock _ block d state) k n).trans (hw.writable.mono k n b hstored)
  | @extended ptd localTd hptd _ _ _ hparent =>
    obtain ⟨n, lp, hnum, _, hlp⟩ := hw.writable.branch h.linked
    obtain ⟨_, p, hp⟩ := h.linked.top hlp
    obtain rfl : n = bc.currentBlock.number := h.separate hp (hparent ▸ h.current)
    have hbranch : ((bc.enter block (block.header.difficulty + ptd)).seat block d state).BlockBranch block.hash
        block.number (l ++ [block]) := by
      rw [BlockBranch, seat_getBlock]
      exact hw.writable.put_branch hnum (hparent ▸ hb)
    have hnodup := hno.keys hbranch
    refine ⟨l ++ [block], ?_, ?_, ?_⟩
    · rw [seat_currentBlock]
      exact hbranch
    · have hlen : block.number = (l.map Block.hash).length := by
        rw [length_map, hb.length]
        exact hnum
      rw [seat_canonical, map_append, hlen]
      exact hcovers.write block.hash
    · rw [flatMap_append, flatMap_singleton] at hnodup ⊢
      rw [seat_txLookups]
      exact hlists.enter hnodup
  | @switched ptd localTd common olds news hptd _ _ _ hparent hf _ =>
    obtain rfl := hb.unique hf.old
    have hold : (bc.switched block (block.header.difficulty + ptd) olds news d state).BlockBranch
        bc.currentBlock.hash bc.currentBlock.number (common ++ olds) := by
      rw [BlockBranch, switched_getBlock]
      exact hf.old.mono hw.writable.mono
    have hnew : (bc.switched block (block.header.difficulty + ptd) olds news d state).BlockBranch
        block.hash block.number (common ++ news) := by
      rw [BlockBranch, switched_getBlock]
      exact hf.new
    have hkeys := hno.keys hold
    have hkeys' := hno.keys hnew
    refine ⟨common ++ news, ?_, ?_, ?_⟩
    · rw [seat_currentBlock]
      exact hnew
    · intro j hj
      rw [length_map, hf.new.length] at hj
      rw [hf.canonical_switched h hw (by rw [map_append] at hcovers; exact hcovers.of_append), if_pos (by omega)]
    · rw [flatMap_append] at hlists hkeys
      have hexchange : Lists ((bc.enter block (block.header.difficulty + ptd)).reorged olds.reverse news.reverse).txLookups
          ((common ++ news).flatMap Block.entries) := by
        rw [reorged_txLookups, flatMap_append]
        refine hlists.exchange hkeys (by rw [← flatMap_append]; exact hkeys')
          ((reverse_perm news).flatMap_right _) ?_
        intro k
        rw [mem_droppedTxs, flatMap_entries_keys, flatMap_entries_keys,
          ((reverse_perm olds).flatMap_right _).mem_iff, ((reverse_perm news).flatMap_right _).mem_iff]
      have hblock : block ∈ common ++ news := mem_of_getElem? hf.top
      rw [seat_txLookups]
      refine hexchange.reenter hkeys' ?_ fun e he => mem_flatMap.mpr ⟨block, hblock, he⟩
      rw [flatMap_entries_keys, nodup_flatMap] at hkeys'
      rw [Block.entries_keys]
      exact hkeys'.1 block hblock

/-- **`GetTxLookupEntry` finds the transactions of the canonical blocks**, which are the
current block and its ancestors, each at its place, and no others. -/
structure FindsTxs (bc : BlockChain σ) : Prop where
  line : ∃ l, bc.BlockBranch bc.currentBlock.hash bc.currentBlock.number l ∧
    bc.hc.canonical.Covers (l.map Block.hash)
  entry : ∀ h hash number index, bc.getTxLookupEntry h = (hash, number, index) ∧ hash ≠ .zero 32 ↔
    bc.HoldsTx h hash number index
  nothing : ∀ h, (∀ hash number index, ¬ bc.HoldsTx h hash number index) →
    bc.getTxLookupEntry h = (.zero 32, 0, 0)

/-- The entries of a branch are the transactions of the canonical blocks. -/
theorem Kept.mem_entries_iff (hkept : bc.Kept)
    (hb : bc.BlockBranch bc.currentBlock.hash bc.currentBlock.number l)
    (hcovers : bc.hc.canonical.Covers (l.map Block.hash)) {h hash : Hash} {number index : Nat} :
    (h, hash, number, index) ∈ l.flatMap Block.entries ↔ bc.HoldsTx h hash number index := by
  have hlen := hb.length
  rw [mem_flatMap]
  constructor
  · intro ⟨b, hmem, hentry⟩
    obtain ⟨rfl, rfl, htx⟩ := Block.mem_entries.mp hentry
    obtain ⟨m, hm⟩ := mem_iff_getElem?.mp hmem
    have hlt := (List.getElem?_eq_some_iff.mp hm).1
    have hnum : b.number = m := hkept.linked.number_of_branch hb hm
    rw [hnum]
    refine ⟨by omega, ?_, b, hkept.linked.mem_branch hb hm, htx⟩
    rw [hcovers m (by rw [length_map]; exact hlt), List.getElem?_map, hm]
    rfl
  · intro ⟨hle, hcanonical, b, hstored, htx⟩
    have hm := List.getElem?_eq_getElem (show number < l.length by omega)
    rw [hcovers number (by rw [length_map]; omega), List.getElem?_map, hm, Option.map_some] at hcanonical
    have hat := hkept.linked.mem_branch hb hm
    rw [show (Block.header _).hash = hash from Option.some.inj hcanonical, hstored] at hat
    cases hat
    exact ⟨_, getElem_mem _, Block.mem_entries.mpr ⟨(hkept.linked.keyed hstored).1.symm,
      (hkept.linked.keyed hstored).2.symm, htx⟩⟩

theorem Indexed.findsTxs (hi : bc.Indexed) (hkept : bc.Kept) : bc.FindsTxs := by
  obtain ⟨l, hb, hcovers, hlists⟩ := hi
  have hiff : ∀ {h hash number index}, bc.txLookups h = some (hash, number, index) ↔
      bc.HoldsTx h hash number index := (hlists _ _).trans (hkept.mem_entries_iff hb hcovers)
  refine ⟨⟨l, hb, hcovers⟩, ?_, ?_⟩
  · intro h hash number index
    constructor
    · intro ⟨hentry, hne⟩
      cases hlookup : bc.txLookups h with
      | none =>
        rw [getTxLookupEntry, hlookup] at hentry
        exact absurd (congrArg Prod.fst hentry).symm hne
      | some e =>
        rw [getTxLookupEntry, hlookup, Option.getD_some] at hentry
        rw [hentry] at hlookup
        exact hiff.mp hlookup
    · intro hholds
      have hlookup := hiff.mpr hholds
      obtain ⟨_, _, b, hstored, _⟩ := hholds
      refine ⟨?_, hkept.linked.hash_ne hstored⟩
      rw [getTxLookupEntry, hlookup]
      rfl
  · intro h hnone
    cases hlookup : bc.txLookups h with
    | none => rw [getTxLookupEntry, hlookup, Option.getD_none]
    | some e => exact absurd (hiff.mp hlookup) (hnone e.1 e.2.1 e.2.2)

/-- **The lookups follow the head.** In the course of any writes of blocks that come
after their parents, whatever forks they make, `GetTxLookupEntry` finds the
transactions of the canonical blocks and no others, provided that no transaction occurs
twice on a branch. -/
theorem writeAll_findsTxs {ws : List (Write σ)} (h : bc.Kept) (hi : bc.Indexed) (hw : bc.AllArriving ws)
    (hno : ∀ k, (bc.writeAll (ws.take k)).Unrepeated) (k : Nat) : (bc.writeAll (ws.take k)).FindsTxs := by
  have hindexed : ∀ k, (bc.writeAll (ws.take k)).Indexed := by
    intro k
    induction k with
    | zero => exact hi
    | succ k ih =>
      cases hk : ws[k]? with
      | none =>
        rw [take_add_one, hk, Option.toList_none, append_nil]
        exact ih
      | some w =>
        obtain ⟨hkept, harrive⟩ := h.writeAll hw k
        have hnext := hno (k + 1)
        rw [writeAll_take_succ hk] at hnext ⊢
        exact (hkept.write_step (harrive w hk)).2.indexed hkept (harrive w hk) ih hnext
  exact (hindexed k).findsTxs (h.writeAll hw k).1

/-! ## The start, and one block -/

/-- A block whose transactions are new to its branch repeats none. -/
theorem Written.unrepeated {coin : Bool} {d : DposContext} {state : σ}
    (hwritten : bc.Written coin block d state bc') (h : bc.Kept) (hw : bc.Arriving block) (hno : bc.Unrepeated)
    (hblock : ∀ n lp, bc.BlockBranch block.header.parentHash n lp →
      ((lp ++ [block]).flatMap Block.txHashes).Nodup) : bc'.Unrepeated := by
  intro k n l hb
  rw [BlockBranch, hwritten.getBlock_eq] at hb
  obtain ⟨_, x, hx⟩ := (h.linked.put hw.writable (Int.le_refl 0)).top hb
  rcases put_eq_some hx with ⟨rfl, rfl, _⟩ | hstored
  · obtain ⟨m, lp, hnum, _, hlp⟩ := hw.writable.branch h.linked
    rw [hb.unique (hw.writable.put_branch hnum hlp)]
    exact hblock m lp hlp
  · obtain ⟨l', hl'⟩ := h.linked.branch hstored
    rw [hb.unique (hl'.mono hw.writable.mono)]
    exact hno k n l' hl'

variable {genesis : Block σ}

theorem Booted.branch_eq (h : bc.Booted genesis) {k : Hash} {n : Nat}
    (hb : bc.BlockBranch k n l) : l = [genesis] := by
  obtain ⟨_, x, hx⟩ := h.linked.1.top hb
  obtain ⟨rfl, rfl, _⟩ := h.eq_genesis hx
  exact hb.unique (h.number ▸ h.linked.2)

theorem Booted.unrepeated (h : bc.Booted genesis) (htxs : genesis.transactions = []) : bc.Unrepeated := by
  intro k n l hb
  rw [h.branch_eq hb, flatMap_singleton, Block.txHashes, htxs]
  exact nodup_nil

theorem Booted.indexed (h : bc.Booted genesis) (htxs : genesis.transactions = [])
    (hnone : ∀ hash, bc.txLookups hash = none) : bc.Indexed := by
  refine ⟨[genesis], ?_, fun n _ => h.canonical n, ?_⟩
  · rw [h.current]
    exact h.linked.2
  · intro hash e
    rw [hnone, flatMap_singleton, Block.entries, htxs]
    exact iff_of_false (by simp) (by simp)

end BlockChain

end

section
open Dpos.Sample Sample BlockChain

/-- A block with a transaction on the genesis. -/
def payingBlock : Block (Address → Int) := ⟨leftHeader, [⟨address 1, some (address 2), .binary⟩], []⟩

def payingWrite : Write (Address → Int) := ⟨false, payingBlock, DposContext.new nodes, fun _ => 0⟩

theorem writeAll_findsTxs_payment : plainChain.Arriving payingBlock ∧
    ∀ k, (plainChain.writeAll ([payingWrite].take k)).FindsTxs := by
  have harrive : plainChain.Arriving payingBlock :=
    Sample.arriving_first rfl rfl rfl (by decide +kernel) (by decide +kernel)
  have hgenesis : plainChain.Unrepeated := plainChain_booted.unrepeated rfl
  have hpaid : (plainChain.write payingWrite).Unrepeated := by
    refine (plainChain_booted.kept.write_step (w := payingWrite) harrive).2.unrepeated plainChain_booted.kept harrive
      hgenesis ?_
    intro n lp hlp
    rw [plainChain_booted.branch_eq hlp]
    simp [Block.txHashes, payingWrite, payingBlock, empty]
  refine ⟨harrive, writeAll_findsTxs plainChain_booted.kept (plainChain_booted.indexed rfl fun _ => rfl)
    ⟨harrive, trivial⟩ ?_⟩
  intro k
  cases k with
  | zero => exact hgenesis
  | succ k =>
    rw [take_of_length_le (by simp), BlockChain.writeAll, foldl_cons, foldl_nil]
    exact hpaid

end

end Bgmchain.Core
