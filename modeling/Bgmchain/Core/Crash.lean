import Bgmchain.Core.Disk

/-! # Stopping in the middle of a write

The process may stop after any of the writes of a call. `loadLastState` then opens the
chain as long as the head pointer names a block that is stored. `reorg` moves it to the
new block before the batch with this block is written, so a call is safe exactly when
it does not reorganise the chain to a block that is not stored yet. -/
namespace Bgmchain.Core
open Common Function List Execution
open Dpos (isForked)

section
variable {σ : Type} [Execution σ] [Crypto]

namespace Disk

/-- **The chain opens**: the block that the head pointer names is the current block, and
its header, its body and its state are stored. -/
def Recovers (disk : Disk σ) : Prop :=
  ∃ block header fast, disk.loadLastState = .opened block header fast ∧ block.hash = disk.headBlockHash ∧
    disk.headers block.hash block.number = some block.header ∧
    disk.bodies block.hash block.number = some (block.transactions, block.uncles) ∧
    (disk.states block.header.root).isSome

/-- A block with its number and its state. -/
structure Holds (disk : Disk σ) (b : Block σ) : Prop where
  number : disk.numbers b.hash = some b.number
  header : disk.headers b.hash b.number = some b.header
  body : disk.bodies b.hash b.number = some (b.transactions, b.uncles)
  state : (disk.states b.header.root).isSome

variable {disk : Disk σ} {b : Block σ}

theorem Holds.getBlockByHash (h : disk.Holds b) : disk.getBlockByHash b.hash = some b := by
  rw [Disk.getBlockByHash, h.number, Option.getD_some, getBlock, h.header, h.body]
  rfl

theorem Holds.recovers (h : disk.Holds b) (hhead : b.hash = disk.headBlockHash) (hne : b.hash ≠ .zero 32) :
    disk.Recovers := by
  obtain ⟨state, hstate⟩ := Option.isSome_iff_exists.mp h.state
  have hload : ∃ header fast, disk.loadLastState = .opened b header fast := by
    rw [loadLastState, ← hhead, if_neg hne, h.getBlockByHash]
    simp only [hstate]
    exact ⟨_, _, rfl⟩
  obtain ⟨header, fast, hload⟩ := hload
  exact ⟨b, header, fast, hload, hhead, h.header, h.body, h.state⟩

omit [Crypto] in
theorem loadLastState_of_missing (hne : disk.headBlockHash ≠ .zero 32)
    (hmissing : disk.getBlockByHash disk.headBlockHash = none) :
    disk.loadLastState = .reset .headBlockMissing := by
  rw [loadLastState, if_neg hne, hmissing]

/-- What a write may do where these blocks are stored: the head pointer names one of
them, and the batch replaces none. -/
def Respects (stored : Block σ → Prop) : DbWrite σ → Prop
  | .headBlockHash hash => ∃ b, stored b ∧ b.hash = hash
  | .batch block _ _ _ _ => ∀ b, stored b → b.hash = block.hash → b = block
  | _ => True

/-- These blocks are stored, and the head pointer names one of them. -/
structure Standing (disk : Disk σ) (stored : Block σ → Prop) : Prop where
  holds : ∀ b, stored b → disk.Holds b
  head : ∃ b, stored b ∧ b.hash = disk.headBlockHash

variable {stored : Block σ → Prop} {w : DbWrite σ} {ws : List (DbWrite σ)}

omit [Execution σ] [Crypto] in
theorem isSome_update {states : Hash → Option σ} {root : Hash} {state : σ} {r : Hash}
    (h : r = root ∨ (states r).isSome) : (update states root (some state) r).isSome := by
  by_cases hr : r = root
  · subst hr
    rw [update_self]
    rfl
  · rw [update_of_ne hr]
    exact h.resolve_left hr

/-- The block of the batch is stored, with its state. -/
theorem holds_batch (disk : Disk σ) (block : Block σ) (d : DposContext) {root : Hash} (state : σ) (lookups : Bool)
    (hroot : block.header.root = root ∨ (disk.states block.header.root).isSome) :
    (disk.apply (.batch block d root state lookups)).Holds block :=
  ⟨update_self .., if_pos ⟨rfl, rfl⟩, if_pos ⟨rfl, rfl⟩, isSome_update hroot⟩

theorem Holds.apply (h : disk.Holds b) (hb : stored b) (hw : Respects stored w) : (disk.apply w).Holds b := by
  cases w with
  | batch block d root state lookups =>
    by_cases hkey : b.hash = block.hash
    · obtain rfl := hw b hb hkey
      exact holds_batch disk b d state lookups (.inr h.state)
    · have hother : ¬ (b.hash = block.hash ∧ b.number = block.number) := fun hboth => hkey hboth.1
      exact ⟨(update_of_ne hkey ..).trans h.number, (if_neg hother).trans h.header,
        (if_neg hother).trans h.body, isSome_update (.inr h.state)⟩
  | td | canonicalHash | headBlockHash | headHeaderHash | headFastBlockHash | txLookupEntry
  | deleteTxLookupEntry => exact ⟨h.number, h.header, h.body, h.state⟩

theorem Standing.apply (h : disk.Standing stored) (hw : Respects stored w) : (disk.apply w).Standing stored := by
  refine ⟨fun b hb => (h.holds b hb).apply hb hw, ?_⟩
  cases w with
  | headBlockHash hash => exact hw
  | batch | td | canonicalHash | headHeaderHash | headFastBlockHash | txLookupEntry
  | deleteTxLookupEntry => exact h.head

theorem Standing.applyAll (h : disk.Standing stored) (hws : ∀ w ∈ ws, Respects stored w) :
    (disk.applyAll ws).Standing stored := by
  induction ws generalizing disk with
  | nil => exact h
  | cons w ws ih =>
    exact ih (h.apply (hws w mem_cons_self)) fun v hv => hws v (mem_cons_of_mem w hv)

/-- A call that first writes where these blocks are stored, and goes on where one more
is, can stop anywhere. -/
theorem Standing.recovers {stored' : Block σ → Prop} {ws' : List (DbWrite σ)} (h : disk.Standing stored)
    (hws : ∀ w ∈ ws, Respects stored w) (h' : (disk.applyAll ws).Standing stored')
    (hws' : ∀ w ∈ ws', Respects stored' w) (hsub : ∀ b, stored b → stored' b)
    (hne : ∀ b, stored' b → b.hash ≠ .zero 32) (i : Nat) : (disk.applyAll ((ws ++ ws').take i)).Recovers := by
  have hopen : ∀ {disk : Disk σ} {stored : Block σ → Prop}, disk.Standing stored →
      (∀ b, stored b → b.hash ≠ .zero 32) → disk.Recovers := by
    intro disk stored h hne
    obtain ⟨b, hb, hhead⟩ := h.head
    exact (h.holds b hb).recovers hhead (hne b hb)
  rw [take_append]
  rcases Nat.le_total i ws.length with hle | hge
  · rw [Nat.sub_eq_zero_of_le hle, take_zero, append_nil]
    exact hopen (h.applyAll fun w hw => hws w (mem_of_mem_take hw)) fun b hb => hne b (hsub b hb)
  · rw [take_of_length_le hge, BlockChain.applyAll_append]
    exact hopen (h'.applyAll fun w hw => hws' w (mem_of_mem_take hw)) hne

end Disk

namespace BlockChain

/-- Every stored block can be found by its hash and has its state. -/
structure Durable (bc : BlockChain σ) : Prop where
  numbered : ∀ {h n b}, bc.getBlock h n = some b → bc.hc.numbers h = some n
  stated : ∀ {h n b}, bc.getBlock h n = some b → (bc.states b.header.root).isSome

/-- The blocks of the database. -/
def Stored (bc : BlockChain σ) (b : Block σ) : Prop := bc.getBlock b.hash b.number = some b

variable {bc bc' : BlockChain σ} {block : Block σ}

omit [Crypto] in
theorem getBlock_eq_some {h : Hash} {n : Nat} {b : Block σ} (hb : bc.getBlock h n = some b) :
    bc.hc.headers h n = some b.header ∧ bc.bodies h n = some (b.transactions, b.uncles) := by
  obtain ⟨header, hheader, hb⟩ := Option.bind_eq_some_iff.mp hb
  obtain ⟨body, hbody, hb⟩ := Option.bind_eq_some_iff.mp hb
  cases hb
  exact ⟨hheader, hbody⟩

/-- The database of a chain between two calls. -/
theorem Kept.standing (h : bc.Kept) (hd : bc.Durable) : bc.disk.Standing bc.Stored := by
  refine ⟨?_, bc.currentBlock, h.current, rfl⟩
  intro b hb
  obtain ⟨hheader, hbody⟩ := getBlock_eq_some hb
  exact ⟨hd.numbered hb, hheader, hbody, hd.stated hb⟩

/-- A block that is taken and does not extend the current one is stored already. -/
def AdoptsStored (bc : BlockChain σ) (coin : Bool) (block : Block σ) : Prop :=
  bc.Preferred coin block → block.header.parentHash = bc.currentBlock.hash ∨ bc.Stored block

section
variable {c : Canonical} {coin : Bool} {d : DposContext} {state : σ} {stored : Block σ → Prop}

theorem respects_insertWrites (hb : stored block) : ∀ w ∈ insertWrites c block, Disk.Respects stored w := by
  intro w hw
  rcases mem_append.mp hw with hw | hw
  · rcases mem_cons.mp hw with rfl | hw
    · trivial
    · obtain rfl := mem_singleton.mp hw
      exact ⟨block, hb, rfl⟩
  · split at hw
    · rcases mem_cons.mp hw with rfl | hw
      · trivial
      · obtain rfl := mem_singleton.mp hw
        trivial
    · cases hw

theorem respects_adoptWrites {blocks : List (Block σ)} (hb : ∀ b ∈ blocks, stored b) :
    ∀ w ∈ adoptWrites c blocks, Disk.Respects stored w := by
  induction blocks generalizing c with
  | nil =>
    intro w hw
    cases hw
  | cons block blocks ih =>
    intro w hw
    rw [adoptWrites, mem_append, mem_append] at hw
    rcases hw with (hw | hw) | hw
    · exact respects_insertWrites (hb block mem_cons_self) w hw
    · obtain ⟨e, _, rfl⟩ := mem_map.mp hw
      trivial
    · exact ih (fun b hmem => hb b (mem_cons_of_mem block hmem)) w hw

theorem respects_reorgWrites {oldChain newChain : List (Block σ)} (hb : ∀ b ∈ newChain, stored b) :
    ∀ w ∈ reorgWrites c oldChain newChain, Disk.Respects stored w := by
  intro w hw
  rcases mem_append.mp hw with hw | hw
  · exact respects_adoptWrites hb w hw
  · obtain ⟨h, _, rfl⟩ := mem_map.mp hw
    trivial

/-- A call whose writes before the batch leave the head pointer with stored blocks can
stop anywhere. -/
theorem Kept.recovers_of_respects (h : bc.Kept) (hd : bc.Durable) (hw : bc.Arriving block) {eip158Block : Option Int}
    (hroot : (commitTo state (isForked eip158Block block.header.number)).1 = block.header.root)
    {before : List (DbWrite σ)} (hbefore : ∀ w ∈ before, Disk.Respects bc.Stored w) (canonical : Bool) (i : Nat) :
    (bc.disk.applyAll ((before ++ batchWrites c eip158Block canonical block d state).take i)).Recovers := by
  rw [batchWrites, append_cons]
  generalize commitTo state (isForked eip158Block block.header.number) = committed at hroot ⊢
  have hstanding := h.standing hd
  have hbatch : ∀ w ∈ before ++ [.batch block d committed.1 committed.2 canonical], Disk.Respects bc.Stored w := by
    intro w hmem
    rcases mem_append.mp hmem with hmem | hmem
    · exact hbefore w hmem
    · obtain rfl := mem_singleton.mp hmem
      exact fun b hb hkey => hw.alone b.number b (by rw [← hkey]; exact hb)
  have hafter := hstanding.applyAll hbatch
  have hmore : (bc.disk.applyAll (before ++ [.batch block d committed.1 committed.2 canonical])).Standing
      fun b => bc.Stored b ∨ b = block := by
    constructor
    · intro b hb
      rcases hb with hb | rfl
      · exact hafter.holds b hb
      · rw [applyAll_append]
        exact Disk.holds_batch _ b d _ canonical (.inl hroot.symm)
    · obtain ⟨b, hb, hhead⟩ := hafter.head
      exact ⟨b, .inl hb, hhead⟩
  refine hstanding.recovers hbatch hmore ?_ (fun b => .inl) ?_ i
  · intro w hmem
    split at hmem
    · exact respects_insertWrites (.inr rfl) w hmem
    · cases hmem
  · intro b hb
    rcases hb with hb | rfl
    · exact h.linked.hash_ne hb
    · exact hw.writable.hash_ne

theorem Kept.getBlock_eq_none (h : bc.Kept) (hw : bc.Arriving block) (hnot : ¬ bc.Stored block) (n : Nat) :
    bc.getBlock block.hash n = none := by
  cases hb : bc.getBlock block.hash n with
  | none => rfl
  | some b =>
    obtain rfl := hw.alone n b hb
    have hnum : b.number = n := (h.linked.keyed hb).2
    exact absurd (by rw [Stored, hnum, hb]) hnot

/-- A block that is not stored is the top of the new chain. -/
theorem Fork.news_eq {common olds news : List (Block σ)} (hf : bc.Fork block common olds news) (h : bc.Kept)
    (hnot : ¬ bc.Stored block) : ∃ below, news = below ++ [block] := by
  have htop := hf.top
  have hlen := hf.new.length
  rcases eq_nil_or_concat' news with rfl | ⟨below, y, rfl⟩
  · rw [append_nil] at htop
    have hold : (common ++ olds)[block.number]? = some block := by
      rw [List.getElem?_append_left (List.getElem?_eq_some_iff.mp htop).1, htop]
    exact absurd (h.linked.mem_branch hf.old hold) hnot
  · rw [← append_assoc, length_append, length_singleton] at hlen
    rw [← append_assoc, ← show (common ++ below).length = block.number by omega,
      List.getElem?_concat_length] at htop
    cases htop
    exact ⟨below, rfl⟩

/-- The head pointer names the new block before the batch is written. -/
theorem not_recovers_reorg (h : bc.Kept) (hw : bc.Arriving block) (hnot : ¬ bc.Stored block) (td : Int) :
    ¬ (bc.disk.applyAll [.td block.hash block.number td, .canonicalHash block.hash block.number,
      .headBlockHash block.hash]).Recovers := by
  intro ⟨b, header, fast, hload, _⟩
  have hmissing : (bc.disk.applyAll [.td block.hash block.number td, .canonicalHash block.hash block.number,
      .headBlockHash block.hash]).getBlockByHash block.hash = none :=
    h.getBlock_eq_none hw hnot ((bc.hc.numbers block.hash).getD missingNumber)
  rw [Disk.loadLastState_of_missing hw.writable.hash_ne hmissing] at hload
  cases hload

/-- **A call can stop anywhere exactly when it does not reorganise the chain to a block
that is not stored yet.** -/
theorem crash_safe_iff (h : bc.Kept) (hd : bc.Durable) (hw : bc.Arriving block)
    (hroot : (commitTo state (isForked bc.hc.config.eip158Block block.header.number)).1 =
      block.header.root) : (∀ i, (bc.disk.applyAll ((bc.dbWrites coin block d state).take i)).Recovers) ↔
      bc.AdoptsStored coin block := by
  obtain ⟨_, _, _, _, henc⟩ := hw.writable.td h.linked
  obtain ⟨status, bc', _, hwritten⟩ := h.write hw coin d state
  have htdOnly : ∀ td, ∀ w ∈ [DbWrite.td block.hash block.number td], Disk.Respects bc.Stored w := by
    intro td w hmem
    obtain rfl := mem_singleton.mp hmem
    trivial
  cases hwritten with
  | side hptd hlocal htd hpref =>
    rw [dbWrites_straight hptd hlocal htd henc (by simp [hpref]), hpref]
    refine iff_of_true (h.recovers_of_respects hd hw hroot (htdOnly _) _) ?_
    intro htaken
    rw [preferred_iff hptd hlocal, hpref] at htaken
    cases htaken
  | extended hptd hlocal htd hpref hparent =>
    rw [dbWrites_straight hptd hlocal htd henc fun _ => hparent, hpref]
    exact iff_of_true (h.recovers_of_respects hd hw hroot (htdOnly _) _)
      fun _ => .inl hparent
  | @switched ptd _ common olds news hptd hlocal htd hpref hparent hf hchains =>
    rw [dbWrites_reorg hptd hlocal htd henc hpref hparent hchains]
    constructor
    · intro hall _
      by_contra hcond
      obtain ⟨below, rfl⟩ := hf.news_eq h fun hstored => hcond (.inr hstored)
      have hthree := hall 3
      rw [reverse_append] at hthree
      exact not_recovers_reorg h hw (fun hstored => hcond (.inr hstored)) _ hthree
    · intro hcond
      have hstored := (hcond ((preferred_iff hptd hlocal).mpr hpref)).resolve_left hparent
      have hnews : ∀ b ∈ news.reverse, bc.Stored b := by
        intro b hb
        obtain ⟨m, hm⟩ := mem_iff_getElem?.mp (mem_append_right common (mem_reverse.mp hb))
        have hput := h.linked.put hw.writable (Int.le_refl 0)
        have hmem := hput.mem_branch hf.new hm
        rcases put_eq_some hmem with ⟨_, _, rfl⟩ | hbefore
        · exact hstored
        · have hnum : b.number = m := (h.linked.keyed hbefore).2
          rw [Stored, hnum]
          exact hbefore
      intro i
      rw [← cons_append]
      refine h.recovers_of_respects hd hw hroot ?_ true i
      intro w hmem
      rcases mem_cons.mp hmem with rfl | hmem
      · trivial
      · exact respects_reorgWrites hnews w hmem

end

/-! ## The database stays what it was -/

/-- A call leaves a database that can be opened, like the one it found. -/
theorem Written.durable {coin : Bool} {d : DposContext} {state : σ} (hwritten : bc.Written coin block d state bc')
    (h : bc.Kept) (hd : bc.Durable) (hw : bc.Arriving block)
    (hroot : (commitTo state (isForked bc.hc.config.eip158Block block.header.number)).1 =
      block.header.root) : bc'.Durable := by
  obtain ⟨hnumbers, hstates⟩ := hwritten.frame
  constructor
  · intro k n b hb
    rw [hwritten.getBlock_eq] at hb
    rw [hnumbers]
    rcases put_eq_some hb with ⟨rfl, rfl, _⟩ | hstored
    · exact update_self ..
    · by_cases hkey : k = block.hash
      · subst hkey
        obtain rfl := hw.alone n b hstored
        rw [update_self]
        exact congrArg some (h.linked.keyed hstored).2
      · rw [update_of_ne hkey, hd.numbered hstored]
  · intro k n b hb
    rw [hwritten.getBlock_eq] at hb
    rw [hstates, hroot]
    rcases put_eq_some hb with ⟨_, _, rfl⟩ | hstored
    · exact Disk.isSome_update (.inl rfl)
    · exact Disk.isSome_update (.inr (hd.stated hstored))

end BlockChain

end

/-! ## A first fork -/

section
open Dpos.Sample Sample BlockChain

theorem chainOf_durable (genesis : Header) (db : NodeDatabase) : (chainOf genesis db).Durable := by
  have hgenesis : ∀ {h n b}, (chainOf genesis db).getBlock h n = some b →
      h = genesis.hash ∧ n = 0 ∧ b = empty genesis := by
    intro h n b hb
    rw [chainOf_getBlock] at hb
    split at hb
    next hkey =>
      cases hb
      exact ⟨hkey.1, hkey.2, rfl⟩
    · cases hb
  constructor
  · intro h n b hb
    obtain ⟨rfl, rfl, _⟩ := hgenesis hb
    exact if_pos rfl
  · intro h n b hb
    obtain ⟨_, _, rfl⟩ := hgenesis hb
    exact congrArg Option.isSome (if_pos rfl)

theorem crash_safe_iff_left :
    (∀ i, (plainChain.disk.applyAll ((plainChain.dbWrites false (empty leftHeader) (DposContext.new nodes)
      fun _ => 0).take i)).Recovers) ↔ plainChain.AdoptsStored false (empty leftHeader) :=
  crash_safe_iff plainChain_booted.kept (chainOf_durable plainGenesis nodes)
    (Sample.arriving_first rfl rfl rfl (by decide +kernel) (by decide +kernel)) rfl

/-- The chain with the left block on its genesis. -/
def leftChain : BlockChain (Address → Int) := plainChain.write (writeEmpty leftHeader)

/-- The right block takes the place of the left one, and the process stops before it is
stored. -/
theorem stopped_reorg_resets :
    ¬ ∀ i, (leftChain.disk.applyAll ((leftChain.dbWrites true (empty rightHeader) (DposContext.new nodes)
      fun _ => 0).take i)).Recovers := by
  have hwhy : (leftChain.disk.applyAll ((leftChain.dbWrites true (empty rightHeader) (DposContext.new nodes)
      fun _ => 0).take 3)).loadLastState.why = some .headBlockMissing := by decide +kernel
  intro hall
  obtain ⟨_, _, _, hload, _⟩ := hall 3
  rw [hload] at hwhy
  cases hwhy

end

end Bgmchain.Core
