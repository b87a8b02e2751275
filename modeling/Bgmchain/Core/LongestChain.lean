import Bgmchain.Consensus.Dpos.Verify
import Bgmchain.Core.Sample
import Bgmchain.Core.Writes

/-! # Total difficulty and the longest chain

A node accepts headers and writes some of them, in any order and on any fork.
When every difficulty is 1 and every number one more than its parent's, the total
difficulties that it stores are lengths of chains, and the fork choice is that of
the longest chain. `verifyHeader` looks at the low 64 bits of both only, so this
holds exactly for headers that keep within that range. -/
namespace Bgmchain.Core
open Common List BlockChain
open Dpos (AcceptedOn Follows tip predUint64 difficulty_eq_one_iff number_eq_succ_iff)

section
variable [Crypto]

/-- A header names its parent by hash and by number. -/
def Names (header parent : Header) : Prop :=
  parent.hash = header.parentHash ∧ uint64 parent.number = predUint64 (uint64 header.number)

/-- Chains on top of the genesis header, newest first, of headers among `accepted`. -/
inductive Chain (genesis : Header) (accepted : List Header) : List Header → Prop
  | nil : Chain genesis accepted []
  | cons {h hs} : Chain genesis accepted hs → h ∈ accepted → Names h (tip genesis hs) →
      Chain genesis accepted (h :: hs)

/-- The n-th header of every chain has the n-th number and difficulty 1. -/
def Exact (genesis : Header) (accepted : List Header) : Prop :=
  ∀ hs, Chain genesis accepted hs →
    (tip genesis hs).number = genesis.number + hs.length ∧ ∀ h ∈ hs, h.difficulty = 1

/-- Difficulties fit into 64 bits, and a number is above that of a parent by one
turn of 64 bits at most. -/
def InRange (genesis : Header) (accepted : List Header) : Prop :=
  ∀ h ∈ accepted, (0 ≤ h.difficulty ∧ h.difficulty < 2 ^ 64) ∧
    ∀ p ∈ genesis :: accepted, Names h p →
      0 ≤ p.number ∧ p.number < h.number ∧ h.number ≤ p.number + 2 ^ 64

variable {genesis : Header} {accepted accepted' : List Header} {hs : List Header}

theorem Chain.mono (h : Chain genesis accepted hs)
    (hsub : ∀ x ∈ accepted, x ∈ accepted') : Chain genesis accepted' hs := by
  induction h with
  | nil => exact .nil
  | cons _ hin hnames ih => exact .cons ih (hsub _ hin) hnames

theorem Chain.tip_mem (h : Chain genesis accepted hs) : tip genesis hs ∈ genesis :: accepted := by
  cases h with
  | nil => exact mem_cons_self
  | cons _ hin _ => exact mem_cons_of_mem _ hin

theorem InRange.mono (h : InRange genesis accepted') (hsub : ∀ x ∈ accepted, x ∈ accepted') :
    InRange genesis accepted := by
  intro x hx
  obtain ⟨hdiff, hnum⟩ := h x (hsub x hx)
  refine ⟨hdiff, fun p hp => hnum p ?_⟩
  rcases mem_cons.mp hp with rfl | hp
  · exact mem_cons_self
  · exact mem_cons_of_mem _ (hsub p hp)

/-- In range, the checks on the low bits are checks on the integers. -/
theorem InRange.exact (h : InRange genesis accepted)
    (hdiff : ∀ x ∈ accepted, uint64 x.difficulty = 1) : Exact genesis accepted := by
  intro hs hchain
  induction hchain with
  | nil => exact ⟨by simp [tip], by simp⟩
  | @cons x hs hchain hin hnames ih =>
    obtain ⟨hd, hn⟩ := h x hin
    have hsucc := (number_eq_succ_iff hnames.2).mpr (hn _ hchain.tip_mem hnames)
    constructor
    · show x.number = genesis.number + (hs.length + 1 : Nat)
      rw [hsucc, ih.1]
      omega
    · intro y hy
      rcases mem_cons.mp hy with rfl | hy
      · exact (difficulty_eq_one_iff (hdiff y hin)).mpr hd
      · exact ih.2 y hy

end

/-! ## Runs -/

section
variable {σ : Type} [Execution σ] [Crypto]

/-- The headers a node has accepted, and its state: it starts with the total
difficulty of the genesis header, accepts headers on top of those it has, and
writes accepted headers and blocks, with or without success. Whatever else it does
enters no total difficulty. -/
inductive Run (genesis : Header) : BlockChain σ → List Header → Prop
  | start {bc : BlockChain σ}
      (only : ∀ hash n td, bc.hc.tds hash n = some td →
        hash = genesis.hash ∧ n = uint64 genesis.number ∧ td = genesis.difficulty) :
      Run genesis bc []
  | accept {bc accepted p h} : Run genesis bc accepted → p ∈ genesis :: accepted → AcceptedOn p h →
      Run genesis bc (h :: accepted)
  | header {bc accepted h status hc'} (coin : Bool) : Run genesis bc accepted → h ∈ accepted →
      bc.hc.writeHeader coin h = .ok (status, hc') → Run genesis { bc with hc := hc' } accepted
  | block {bc bc' accepted block status} (coin : Bool) (d : DposContext) (state : σ) :
      Run genesis bc accepted → block.header ∈ accepted →
      writeBlockAndState coin block d state bc = .ok status bc' → Run genesis bc' accepted
  | failed {bc bc' accepted block e} (coin : Bool) (d : DposContext) (state : σ) :
      Run genesis bc accepted → block.header ∈ accepted →
      writeBlockAndState coin block d state bc = .error e bc' → Run genesis bc' accepted
  | other {bc bc' accepted} : Run genesis bc accepted →
      (∀ hash n td, bc'.hc.tds hash n = some td → bc.hc.tds hash n = some td) →
      Run genesis bc' accepted

/-- The total difficulties are those of chains: what the genesis header has, plus
the length. -/
def StoresLength (genesis : Header) (accepted : List Header) (bc : BlockChain σ) : Prop :=
  ∀ hash n td, bc.hc.tds hash n = some td →
    ∃ hs, Chain genesis accepted hs ∧ (tip genesis hs).hash = hash ∧
      uint64 (tip genesis hs).number = n ∧ td = genesis.difficulty + hs.length

/-- The longest-chain rule, for a chain on top of which a header or block is written
and the chain it is compared with: the longer one is canonical, and the coin
decides between equal ones. -/
def LongestWins (genesis : Header) (accepted : List Header) (header current : Header) (coin : Bool)
    (status : WriteStatus) : Prop :=
  ∃ new cur, Chain genesis accepted (header :: new) ∧ Chain genesis accepted cur ∧
    (tip genesis cur).hash = current.hash ∧ uint64 (tip genesis cur).number = uint64 current.number ∧
    (status = .canonStatTy ↔
      cur.length < (header :: new).length ∨ cur.length = (header :: new).length ∧ coin = true)

/-- Whatever accepted header or block is written next, the longest chain wins. -/
structure PrefersLongest (genesis : Header) (accepted : List Header) (bc : BlockChain σ) : Prop where
  header : ∀ coin h status hc', h ∈ accepted → bc.hc.writeHeader coin h = .ok (status, hc') →
    LongestWins genesis accepted h bc.hc.currentHeader coin status
  block : ∀ coin block d state status bc', block.header ∈ accepted →
    writeBlockAndState coin block d state bc = .ok status bc' →
    LongestWins genesis accepted block.header bc.currentBlock.header coin status

variable {genesis : Header} {accepted : List Header} {bc : BlockChain σ}

theorem exists_chain {p : Header} (h : ∀ h ∈ accepted, ∃ hs, Chain genesis accepted (h :: hs))
    (hp : p ∈ genesis :: accepted) : ∃ hs, Chain genesis accepted hs ∧ tip genesis hs = p := by
  rcases mem_cons.mp hp with rfl | hp
  · exact ⟨[], .nil, rfl⟩
  · obtain ⟨hs, hchain⟩ := h p hp
    exact ⟨p :: hs, hchain, rfl⟩

/-- Every accepted header ends a chain. -/
theorem Run.chain (hrun : Run genesis bc accepted) :
    ∀ h ∈ accepted, ∃ hs, Chain genesis accepted (h :: hs) := by
  induction hrun with
  | start _ => exact nofun
  | @accept bc accepted p h _ hp hacc ih =>
    intro x hx
    have hsub : ∀ y ∈ accepted, y ∈ h :: accepted := fun _ => mem_cons_of_mem _
    rcases mem_cons.mp hx with rfl | hx
    · obtain ⟨hs, hchain, rfl⟩ := exists_chain ih hp
      exact ⟨hs, .cons (hchain.mono hsub) mem_cons_self ⟨hacc.follows.hash, hacc.follows.number⟩⟩
    · obtain ⟨hs, hchain⟩ := ih x hx
      exact ⟨hs, hchain.mono hsub⟩
  | header _ _ _ _ ih | block _ _ _ _ _ _ ih | failed _ _ _ _ _ _ ih | other _ _ ih => exact ih

theorem Run.difficulty (hrun : Run genesis bc accepted) : ∀ h ∈ accepted, uint64 h.difficulty = 1 := by
  induction hrun with
  | start _ => exact nofun
  | accept _ _ hacc ih =>
    intro h hh
    rcases mem_cons.mp hh with rfl | hh
    · exact hacc.difficulty
    · exact ih h hh
  | header _ _ _ _ ih | block _ _ _ _ _ _ ih | failed _ _ _ _ _ _ ih | other _ _ ih => exact ih

/-- Numbers and difficulties that are exact are in range. -/
theorem Run.inRange (hrun : Run genesis bc accepted) (hexact : Exact genesis accepted) :
    InRange genesis accepted := by
  intro h hh
  constructor
  · obtain ⟨hs, hchain⟩ := hrun.chain h hh
    have hone := (hexact (h :: hs) hchain).2 h mem_cons_self
    exact (difficulty_eq_one_iff (hrun.difficulty h hh)).mp hone
  · intro p hp hnames
    obtain ⟨hs, hchain, rfl⟩ := exists_chain hrun.chain hp
    have hnext := (hexact (h :: hs) (.cons hchain hh hnames)).1
    have hlast := (hexact hs hchain).1
    refine (number_eq_succ_iff hnames.2).mp ?_
    have hnext : h.number = genesis.number + (hs.length + 1 : Nat) := hnext
    omega

/-- One entry keeps the total difficulties lengths of chains. -/
theorem StoresLength.enter (h : StoresLength genesis accepted bc) {header : Header}
    (hin : header ∈ accepted) (hone : header.difficulty = 1) {ptd : Int}
    (hptd : bc.hc.getTd header.parentHash (predUint64 (uint64 header.number)) = some ptd)
    {bc' : BlockChain σ} (htds : bc'.hc.tds = enterTd bc.hc.tds header.hash (uint64 header.number)
      (header.difficulty + ptd)) : StoresLength genesis accepted bc' := by
  intro hash n td htd
  rw [htds] at htd
  rcases enterTd_eq_some htd with ⟨rfl, rfl, rfl⟩ | htd
  · obtain ⟨hs, hchain, hhash, hnumber, rfl⟩ := h _ _ _ hptd
    refine ⟨header :: hs, .cons hchain hin ⟨hhash, hnumber⟩, rfl, rfl, ?_⟩
    rw [hone, length_cons]
    omega
  · exact h hash n td htd

/-- Along a run in range, the total difficulties are lengths of chains. -/
theorem Run.storesLength (hrun : Run genesis bc accepted) (hrange : InRange genesis accepted) :
    StoresLength genesis accepted bc := by
  induction hrun with
  | start only =>
    intro hash n td htd
    obtain ⟨rfl, rfl, rfl⟩ := only hash n td htd
    exact ⟨[], .nil, rfl, rfl, by simp⟩
  | @accept bc accepted p h _ _ _ ih =>
    have hsub : ∀ y ∈ accepted, y ∈ h :: accepted := fun _ => mem_cons_of_mem _
    intro hash n td htd
    obtain ⟨hs, hchain, hrest⟩ := ih (hrange.mono hsub) hash n td htd
    exact ⟨hs, hchain.mono hsub, hrest⟩
  | @header bc accepted h status hc' coin hrun hin hok ih =>
    have hone := (difficulty_eq_one_iff (hrun.difficulty h hin)).mpr (hrange h hin).1
    obtain ⟨ptd, _, hptd, _, htds, _⟩ := HeaderChain.writeHeader_ok hok
    exact (ih hrange).enter hin hone hptd htds
  | @block bc bc' accepted block status coin d state hrun hin hok ih =>
    have hone := (difficulty_eq_one_iff (hrun.difficulty _ hin)).mpr (hrange _ hin).1
    obtain ⟨ptd, _, hptd, _, htds, _⟩ :=
      (writeBlockAndState_spec coin block d state bc).ok rfl hok
    exact (ih hrange).enter hin hone hptd htds
  | @failed bc bc' accepted block e coin d state hrun hin herr ih =>
    have hone := (difficulty_eq_one_iff (hrun.difficulty _ hin)).mpr (hrange _ hin).1
    rcases (writeBlockAndState_spec coin block d state bc).error rfl herr with htds | ⟨ptd, hptd, htds⟩
    · intro hash n td htd
      rw [htds] at htd
      exact ih hrange hash n td htd
    · exact (ih hrange).enter hin hone hptd htds
  | other _ hsub ih =>
    intro hash n td htd
    exact ih hrange hash n td (hsub hash n td htd)

/-- Where total difficulties are lengths and numbers are exact, the longest chain
wins. -/
theorem StoresLength.longestWins (h : StoresLength genesis accepted bc) (hexact : Exact genesis accepted)
    {header current : Header} (hin : header ∈ accepted) {ptd localTd : Int}
    (hptd : bc.hc.getTd header.parentHash (predUint64 (uint64 header.number)) = some ptd)
    (hlocal : bc.hc.getTd current.hash (uint64 current.number) = some localTd) {coin : Bool}
    {status : WriteStatus}
    (hstatus : uint64 header.number = uint64 current.number ∨ header.difficulty + ptd ≠ localTd →
      (status = .canonStatTy ↔
        localTd < header.difficulty + ptd ∨ header.difficulty + ptd = localTd ∧ coin = true)) :
    LongestWins genesis accepted header current coin status := by
  obtain ⟨new, hnew, hhash, hnumber, rfl⟩ := h _ _ _ hptd
  obtain ⟨cur, hcur, hchash, hcnumber, rfl⟩ := h _ _ _ hlocal
  have hchain : Chain genesis accepted (header :: new) := .cons hnew hin ⟨hhash, hnumber⟩
  obtain ⟨hn, hd⟩ := hexact _ hchain
  have hone := hd header mem_cons_self
  have hn' := (hexact cur hcur).1
  refine ⟨new, cur, hchain, hcur, hchash, hcnumber, ?_⟩
  -- chains of one length end in headers of one number
  have hsame : uint64 header.number = uint64 current.number ∨
      header.difficulty + (genesis.difficulty + new.length) ≠ genesis.difficulty + cur.length := by
    by_cases hlen : cur.length = (header :: new).length
    · left
      have hn : header.number = genesis.number + ((header :: new).length : Nat) := hn
      rw [← hcnumber, hn, hn', hlen]
    · right
      rw [length_cons] at hlen
      omega
  rw [hstatus hsame, hone, length_cons]
  refine or_congr ?_ (and_congr_left fun _ => ?_)
  · omega
  · omega

/-- Along a run in range, the longest chain wins. -/
theorem Run.prefersLongest (hrun : Run genesis bc accepted) (hrange : InRange genesis accepted) :
    PrefersLongest genesis accepted bc := by
  have hstores := hrun.storesLength hrange
  have hexact := hrange.exact hrun.difficulty
  constructor
  · intro coin h status hc' hin hok
    obtain ⟨ptd, localTd, hptd, hlocal, _, hstatus⟩ := HeaderChain.writeHeader_ok hok
    exact hstores.longestWins hexact hin hptd hlocal fun _ => hstatus.trans HeaderChain.prefers_eq_true
  · intro coin block d state status bc' hin hok
    obtain ⟨ptd, localTd, hptd, hlocal, _, hstatus⟩ :=
      (writeBlockAndState_spec coin block d state bc).ok rfl hok
    refine hstores.longestWins hexact hin hptd hlocal fun hsame => hstatus.trans ?_
    rw [prefers_eq_true]
    refine or_congr_right (and_congr_right fun heq => ?_)
    have hnumber : block.number = bc.currentBlock.number := hsame.resolve_right (not_not.mpr heq)
    simp [hnumber]

/-- **Numbers and difficulties are exact, total difficulties are lengths and the
longest chain wins, exactly when the accepted headers are in range.** -/
theorem Run.exact_iff_inRange (hrun : Run genesis bc accepted) :
    (Exact genesis accepted ∧ StoresLength genesis accepted bc ∧ PrefersLongest genesis accepted bc) ↔
      InRange genesis accepted := by
  constructor
  · intro ⟨hexact, _, _⟩
    exact hrun.inRange hexact
  · intro hrange
    exact ⟨hrange.exact hrun.difficulty, hrun.storesLength hrange, hrun.prefersLongest hrange⟩

end

/-! ## A header out of range -/

section
open Dpos.Sample Sample

def firstHeader : Header := header 1 10 (address 1) plainGenesis.hash

def secondHeader : Header := header 2 20 (address 1) firstHeader.hash

/-- The low bits of the difficulty are 1. -/
def heavyHeader : Header := { firstHeader with difficulty := 2 ^ 64 + 1 }

/-- The low bits of the number are 1. -/
def farHeader : Header := { firstHeader with number := 2 ^ 64 + 1 }

theorem plainChain_only (hash : Hash) (n : Nat) (td : Int) (h : plainChain.hc.tds hash n = some td) :
    hash = plainGenesis.hash ∧ n = uint64 plainGenesis.number ∧ td = plainGenesis.difficulty := by
  have h : (if hash = plainGenesis.hash ∧ n = 0 then some plainGenesis.difficulty else none) = some td := h
  split at h
  next hkey =>
    exact ⟨hkey.1, hkey.2, (Option.some.inj h).symm⟩
  · cases h

theorem firstHeader_accepted : AcceptedOn plainGenesis firstHeader :=
  ⟨10, plainChain.hc.reader, [plainGenesis], rfl, by decide +kernel⟩

/-- A node that has accepted and written one header. -/
theorem exact_iff_inRange_first_header : ∃ bc : BlockChain (Address → Int), Run plainGenesis bc [firstHeader] ∧
      ((Exact plainGenesis [firstHeader] ∧ StoresLength plainGenesis [firstHeader] bc ∧
        PrefersLongest plainGenesis [firstHeader] bc) ↔ InRange plainGenesis [firstHeader]) := by
  have hrun : Run plainGenesis plainChain [firstHeader] :=
    (Run.start plainChain_only).accept mem_cons_self firstHeader_accepted
  have hsome : (plainChain.hc.writeHeader true firstHeader).toOption.isSome = true := by decide +kernel
  cases hw : plainChain.hc.writeHeader true firstHeader with
  | error e =>
    rw [hw] at hsome
    cases hsome
  | ok r =>
    have hrun' := hrun.header true mem_cons_self hw
    exact ⟨_, hrun', hrun'.exact_iff_inRange⟩

/-- Both headers out of range are accepted on top of the genesis header, and the
heavy one becomes the head of a chain of length 1 although there is one of length 2. -/
theorem heavyHeader_beats_longer_chain :
    Dpos.verifyHeader 10 plainChain.hc.reader farHeader [plainGenesis] = .ok () ∧
    Dpos.verifyHeader 10 plainChain.hc.reader heavyHeader [plainGenesis] = .ok () ∧
    Dpos.verifyHeader 20 plainChain.hc.reader secondHeader [plainGenesis, firstHeader] = .ok () ∧
    (do
      let (s1, hc) ← plainChain.hc.writeHeader true firstHeader
      let (s2, hc) ← hc.writeHeader true secondHeader
      let (s3, hc) ← hc.writeHeader true heavyHeader
      return ([s1, s2, s3], hc.currentHeader.number, hc.getTd heavyHeader.hash 1)) =
    .ok ([.canonStatTy, .canonStatTy, .canonStatTy], 1, some (plainGenesis.difficulty + 2 ^ 64 + 1)) := by
  decide +kernel

end

end Bgmchain.Core
