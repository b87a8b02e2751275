import Bgmchain.Consensus.Dpos.Confirming
import Bgmchain.Core.Heads

/-! # Finality

A node writes blocks, which extends and reorganises its chain, and looks for a
newly confirmed block at any time. Nothing in a reorganisation asks for the
confirmed block, so the next one found may lie on another fork. -/
namespace Bgmchain.Core
open Common
open Dpos (DescendsFrom confirmedHeader confirmedAfter confirmedAfter_descends_iff predUint64
  updateConfirmedBlockHeader)
open Lib.Hoare (stateAfter)

/-- What a node does to its chain and its confirmed block. -/
inductive Event (σ : Type) [Execution σ] where
  | write (coin : Bool) (block : Block σ) (d : DposContext) (state : σ)
  | confirm (putOk : Bool)

section
variable {σ : Type} [Execution σ] [Crypto]

namespace BlockChain

/-- The chain after an event, also after one that fails. -/
def apply (bc : BlockChain σ) : Event σ → BlockChain σ
  | .write coin block d state => stateAfter (writeBlockAndState coin block d state) bc
  | .confirm putOk => { bc with engine := stateAfter (updateConfirmedBlockHeader putOk bc.hc.reader) bc.engine }

def after (bc : BlockChain σ) (events : List (Event σ)) : BlockChain σ := events.foldl apply bc

/-- A call of `updateConfirmedBlockHeader` stores another header than there was. -/
def Confirms (bc : BlockChain σ) (putOk : Bool) (old new : Header) : Prop :=
  confirmedHeader bc.hc.reader bc.engine = some old ∧
    confirmedAfter putOk bc.hc.reader bc.engine = some new ∧ new ≠ old

/-- Whatever is confirmed anew in the course of the events descends from what was
confirmed before. -/
def Final (bc : BlockChain σ) (events : List (Event σ)) : Prop :=
  ∀ before putOk later old new, events = before ++ .confirm putOk :: later →
    (bc.after before).Confirms putOk old new → DescendsFrom (bc.after before).hc.reader new old

/-- Whenever a block is confirmed anew, the one confirmed before is still below the
current header. -/
def KeepsConfirmed (bc : BlockChain σ) (events : List (Event σ)) : Prop :=
  ∀ before putOk later old new, events = before ++ .confirm putOk :: later →
    (bc.after before).Confirms putOk old new →
    DescendsFrom (bc.after before).hc.reader (bc.after before).hc.currentHeader old

/-- **Confirmed blocks are final exactly when no confirmed block has been left by
the current chain by the time the next is confirmed.** -/
theorem final_iff_keepsConfirmed (bc : BlockChain σ) (events : List (Event σ)) :
    bc.Final events ↔ bc.KeepsConfirmed events := by
  constructor
  · intro hfinal before putOk later old new hevents hconf
    obtain ⟨hold, hnew, hne⟩ := hconf
    exact (confirmedAfter_descends_iff hold hnew hne).mp
      (hfinal before putOk later old new hevents ⟨hold, hnew, hne⟩)
  · intro hkeeps before putOk later old new hevents hconf
    obtain ⟨hold, hnew, hne⟩ := hconf
    exact (confirmedAfter_descends_iff hold hnew hne).mpr
      (hkeeps before putOk later old new hevents ⟨hold, hnew, hne⟩)

end BlockChain

end

/-! ## Two forks, both confirmed -/

section
open Dpos.Sample Sample BlockChain

/-- A block on top of another, at a time and by a validator. -/
def child (parent : Header) (time : Int) (validator : UInt8) : Header :=
  header (parent.number + 1) time (address validator) parent.hash

def a1 : Header := child plainGenesis 10 1
def a2 : Header := child a1 20 2
def a3 : Header := child a2 30 3
def b1 : Header := child plainGenesis 40 1
def b2 : Header := child b1 50 2
def b3 : Header := child b2 60 3
def b4 : Header := child b3 70 1
def b5 : Header := child b4 80 2

def writeOf (header : Header) : Event (Address → Int) :=
  .write false (empty header) (DposContext.new nodes) fun _ => 0

/-- The first fork grows, its first block is confirmed, and the second overtakes it. -/
def overtaking : List (Event (Address → Int)) :=
  [a1, a2, a3].map writeOf ++ .confirm true :: [b1, b2, b3, b4, b5].map writeOf

/-! The headers with the hashes of their parents evaluated. -/

/-- The hash with this number. -/
def hashOf (n : Nat) : Hash := ⟨Lib.BigEndian.encode 32 n, Lib.BigEndian.length_encode 32 n⟩

theorem hash_genesis : plainGenesis.hash =
    hashOf 51138878461874353353040338018347089818489917925609700346239478688667395422422 := by decide +kernel

theorem a1_eq : a1 = header 1 10 (address 1)
    (hashOf 51138878461874353353040338018347089818489917925609700346239478688667395422422) :=
  congrArg (header 1 10 (address 1)) hash_genesis

theorem a2_eq : a2 = header 2 20 (address 2)
    (hashOf 2451891272608293286028637723311713260259366488727338735939445728825147322299) := by
  rw [a2, a1_eq]
  exact congrArg (header 2 20 (address 2)) (by decide +kernel)

theorem a3_eq : a3 = header 3 30 (address 3)
    (hashOf 24059116010396814999951926129994725851951057619274766265172511948567005609749) := by
  rw [a3, a2_eq]
  exact congrArg (header 3 30 (address 3)) (by decide +kernel)

theorem b1_eq : b1 = header 1 40 (address 1)
    (hashOf 51138878461874353353040338018347089818489917925609700346239478688667395422422) :=
  congrArg (header 1 40 (address 1)) hash_genesis

theorem b2_eq : b2 = header 2 50 (address 2)
    (hashOf 24379753508096288596157498786205450162036503701138342164800155032669597431257) := by
  rw [b2, b1_eq]
  exact congrArg (header 2 50 (address 2)) (by decide +kernel)

theorem b3_eq : b3 = header 3 60 (address 3)
    (hashOf 30237154987529266551244165198337477929150363336600517278576545267176932164053) := by
  rw [b3, b2_eq]
  exact congrArg (header 3 60 (address 3)) (by decide +kernel)

theorem b4_eq : b4 = header 4 70 (address 1)
    (hashOf 49247367076020717848877418053150094168252584442718608718063695631655971064381) := by
  rw [b4, b3_eq]
  exact congrArg (header 4 70 (address 1)) (by decide +kernel)

theorem b5_eq : b5 = header 5 80 (address 2)
    (hashOf 20139374114874025010183207613341072045739067838846888852419378888857968601130) := by
  rw [b5, b4_eq]
  exact congrArg (header 5 80 (address 2)) (by decide +kernel)

/-- After the run the first block of the first fork is the confirmed one. The third block of the
second fork is confirmed next, and the first fork is not below it. -/
theorem confirms_overtaking : (plainChain.after overtaking).Confirms true a1 b3 ∧
    Lib.Ancestry.line (Dpos.parentIn (plainChain.after overtaking).hc.reader) 4 b3 = some [b3, b2, b1, plainGenesis] ∧
    ∀ x ∈ [b3, b2, b1, plainGenesis], x.hash ≠ a1.hash := by
  rw [overtaking, a1_eq, a2_eq, a3_eq, b1_eq, b2_eq, b3_eq, b4_eq, b5_eq]
  unfold Confirms
  decide +kernel

/-- The confirmed block is followed by one on the other fork. -/
theorem not_final_overtaking : ¬ plainChain.Final (overtaking ++ [.confirm true]) := by
  intro hfinal
  obtain ⟨hconfirms, hline, hother⟩ := confirms_overtaking
  obtain ⟨x, hx, hhash⟩ := (hfinal overtaking true [] a1 b3 rfl hconfirms).exists_mem_line hline
  exact hother x hx hhash

end

end Bgmchain.Core
