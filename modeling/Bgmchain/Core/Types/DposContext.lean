import Bgmchain.Lib.Rlp
import Bgmchain.Trie.Walk

/-! # The DPoS context

`core/types/dpos_context.go`: five tries that hold the candidates, who has
delegated to whom, under two keys, the validators of the current epoch and the
blocks minted so far. An operation returns its error, if any, and the context
it leaves behind: the source mutates the tries through pointers, so what was
written before an error stays written. -/
namespace Bgmchain
open Common

def epochPrefix : Bytes := ascii "epoch-"
def delegatePrefix : Bytes := ascii "delegate-"
def votePrefix : Bytes := ascii "vote-"
def candidatePrefix : Bytes := ascii "candidate-"
def mintCntPrefix : Bytes := ascii "mintCnt-"

structure DposContext where
  epochTrie : Trie
  delegateTrie : Trie
  voteTrie : Trie
  candidateTrie : Trie
  mintCntTrie : Trie
  db : NodeDatabase

inductive DposError where
  | trie (err : TrieError)
  | invalidCandidateToDelegate
  | invalidCandidateToUnDelegate
  | mismatchCandidateToUnDelegate
  | failedToDecodeValidators
  | panicked
deriving DecidableEq

/-- The text of an error. What the trie or the decoder adds to theirs is left out. -/
def DposError.message : DposError → String
  | .trie _ => "missing trie node"
  | .invalidCandidateToDelegate => "invalid candidate to delegate"
  | .invalidCandidateToUnDelegate => "invalid candidate to undelegate"
  | .mismatchCandidateToUnDelegate => "mismatch candidate to undelegate"
  | .failedToDecodeValidators => "failed to decode validators: "
  | .panicked => "not at leaf"

/-- `TryDelete` where a missing node is not an error. -/
def Trie.tryDeletePresent (t : Trie) (key : Bytes) : Except TrieError Trie :=
  match t.tryDelete key with
  | .error (.missingNode _ _) => .ok t
  | r => r

namespace DposContext

/-- `NewDposContext`, and `NewDposContextFromProto` with zero hashes. -/
def new (db : NodeDatabase) : DposContext where
  epochTrie := .empty db epochPrefix
  delegateTrie := .empty db delegatePrefix
  voteTrie := .empty db votePrefix
  candidateTrie := .empty db candidatePrefix
  mintCntTrie := .empty db mintCntPrefix
  db := db

/-! ## Candidates and delegations -/

/-- The loop body of `KickoutCandidate`, for a delegator that the iterator over
the candidate's delegations has yielded. -/
def kickoutDelegator (candidate delegator : Bytes) (d : DposContext) :
    Except (DposError × DposContext) DposContext :=
  match d.delegateTrie.tryDeletePresent (candidate ++ delegator) with
  | .error e => .error (.trie e, d)
  | .ok delegateTrie =>
    let d := { d with delegateTrie := delegateTrie }
    match d.voteTrie.tryGet delegator with
    | (.error (.missingNode _ _), voteTrie) => .ok { d with voteTrie := voteTrie }
    | (.error e, voteTrie) => .error (.trie e, { d with voteTrie := voteTrie })
    | (.ok v, voteTrie) =>
      let d := { d with voteTrie := voteTrie }
      if v.getD [] = candidate then
        match d.voteTrie.tryDeletePresent delegator with
        | .error e => .error (.trie e, d)
        | .ok voteTrie => .ok { d with voteTrie := voteTrie }
      else .ok d

/-- `KickoutCandidate`. The iterator walks the delegate trie as it was before
the loop, which deletes from it. -/
def kickoutCandidate (d : DposContext) (candidateAddr : Address) : Option DposError × DposContext :=
  let candidate := candidateAddr.bytes
  match d.candidateTrie.tryDeletePresent candidate with
  | .error e => (some (.trie e), d)
  | .ok candidateTrie =>
    let d := { d with candidateTrie := candidateTrie }
    let iter := LeafIterator.newPrefix d.delegateTrie candidate
    match iter.each (·.delegateTrie) (fun d => (.panicked, d)) (kickoutDelegator candidate)
        iter.nodeIt.fuel d with
    | .ok d => (none, d)
    | .error (e, d) => (some e, d)

/-- `BecomeCandidate` -/
def becomeCandidate (d : DposContext) (candidateAddr : Address) : Option DposError × DposContext :=
  let candidate := candidateAddr.bytes
  match d.candidateTrie.tryUpdate candidate candidate with
  | .error e => (some (.trie e), d)
  | .ok candidateTrie => (none, { d with candidateTrie := candidateTrie })

/-- The end of `Delegate`, once the candidate has been checked and the old one
looked up. -/
def moveDelegation (d : DposContext) (delegator candidate : Bytes) (oldCandidate : Option Bytes) :
    Option DposError × DposContext :=
  let d := match oldCandidate with
    | some old => { d with delegateTrie := d.delegateTrie.delete (old ++ delegator) }
    | none => d
  match d.delegateTrie.tryUpdate (candidate ++ delegator) delegator with
  | .error e => (some (.trie e), d)
  | .ok delegateTrie =>
    let d := { d with delegateTrie := delegateTrie }
    match d.voteTrie.tryUpdate delegator candidate with
    | .error e => (some (.trie e), d)
    | .ok voteTrie => (none, { d with voteTrie := voteTrie })

/-- `Delegate` -/
def delegate (d : DposContext) (delegatorAddr candidateAddr : Address) :
    Option DposError × DposContext :=
  let delegator := delegatorAddr.bytes
  let candidate := candidateAddr.bytes
  -- the candidate must be candidate
  match d.candidateTrie.tryGet candidate with
  | (.error e, candidateTrie) => (some (.trie e), { d with candidateTrie := candidateTrie })
  | (.ok none, candidateTrie) =>
    (some .invalidCandidateToDelegate, { d with candidateTrie := candidateTrie })
  | (.ok (some _), candidateTrie) =>
    let d := { d with candidateTrie := candidateTrie }
    -- delete old candidate if exists
    match d.voteTrie.tryGet delegator with
    | (.ok oldCandidate, voteTrie) =>
      moveDelegation { d with voteTrie := voteTrie } delegator candidate oldCandidate
    | (.error (.missingNode _ _), voteTrie) =>
      moveDelegation { d with voteTrie := voteTrie } delegator candidate none
    | (.error e, voteTrie) => (some (.trie e), { d with voteTrie := voteTrie })

/-- `UnDelegate` -/
def unDelegate (d : DposContext) (delegatorAddr candidateAddr : Address) :
    Option DposError × DposContext :=
  let delegator := delegatorAddr.bytes
  let candidate := candidateAddr.bytes
  -- the candidate must be candidate
  match d.candidateTrie.tryGet candidate with
  | (.error e, candidateTrie) => (some (.trie e), { d with candidateTrie := candidateTrie })
  | (.ok none, candidateTrie) =>
    (some .invalidCandidateToUnDelegate, { d with candidateTrie := candidateTrie })
  | (.ok (some _), candidateTrie) =>
    let d := { d with candidateTrie := candidateTrie }
    match d.voteTrie.tryGet delegator with
    | (.error e, voteTrie) => (some (.trie e), { d with voteTrie := voteTrie })
    | (.ok oldCandidate, voteTrie) =>
      let d := { d with voteTrie := voteTrie }
      if candidate ≠ oldCandidate.getD [] then (some .mismatchCandidateToUnDelegate, d)
      else
        match d.delegateTrie.tryDelete (candidate ++ delegator) with
        | .error e => (some (.trie e), d)
        | .ok delegateTrie =>
          let d := { d with delegateTrie := delegateTrie }
          match d.voteTrie.tryDelete delegator with
          | .error e => (some (.trie e), d)
          | .ok voteTrie => (none, { d with voteTrie := voteTrie })

/-! ## Validators -/

def validatorKey : Bytes := ascii "validator"

/-- `rlp.EncodeToBytes` of a list of addresses. -/
def encodeValidators (validators : List Address) : Bytes :=
  Lib.Rlp.encodeFixedList (validators.map FixedBytes.sized)

theorem encodeValidators_ne_nil (vs : List Address) : encodeValidators vs ≠ [] := by
  unfold encodeValidators Lib.Rlp.encodeFixedList Lib.Rlp.encodeList Lib.Rlp.sizeHeader
  split <;> simp

/-- `rlp.DecodeBytes` into a list of addresses. -/
def decodeValidators (bs : Bytes) : Option (List Address) :=
  (Lib.Rlp.decodeFixedList 20 bs).map fun items => items.map fun item => ⟨item.val, item.property⟩

/-- `GetValidators`; an absent entry is decoded as an empty input and fails. -/
def getValidators (d : DposContext) : Except DposError (List Address) × DposContext :=
  let (validatorsRLP, epochTrie) := d.epochTrie.get validatorKey
  match decodeValidators (validatorsRLP.getD []) with
  | none => (.error .failedToDecodeValidators, { d with epochTrie := epochTrie })
  | some validators => (.ok validators, { d with epochTrie := epochTrie })

/-- `SetValidators` -/
def setValidators (d : DposContext) (validators : List Address) : DposContext :=
  { d with epochTrie := d.epochTrie.update validatorKey (encodeValidators validators) }

end DposContext

/-! ## Genesis -/

/-- What `initGenesisDposContext` enters for one validator. It drops the errors
of `TryUpdate`, so each write is an `update`. -/
def genesisValidator (d : DposContext) (validator : Address) : DposContext :=
  { d with
    delegateTrie := d.delegateTrie.update (validator.bytes ++ validator.bytes) validator.bytes
    candidateTrie := d.candidateTrie.update validator.bytes validator.bytes }

/-- `initGenesisDposContext`; `none` when the configuration lists no validators. -/
def initGenesisDposContext (db : NodeDatabase) : Option (List Address) → DposContext
  | none => .new db
  | some validators => validators.foldl genesisValidator ((DposContext.new db).setValidators validators)

end Bgmchain
