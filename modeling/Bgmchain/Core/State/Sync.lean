import Bgmchain.Trie.SyncTree

/-! # State sync

`core/state/sync.go`: a trie download scheduler for the account trie. Its callback reads
every leaf as an account and asks for the account's storage trie and code. -/
namespace Bgmchain
open Common Lib Rlp

/-- `Account`: what a leaf of the account trie holds. -/
structure Account where
  nonce : Nat
  balance : Nat
  root : Hash
  codeHash : Bytes

/-- An integer, which is written without zeros in front. -/
def splitInt (bs : Bytes) : Option (Bytes × Bytes) := (splitString bs).filter fun item => item.1.head? ≠ some 0

/-- The fields of an `Account`. -/
def decodeFields (fields : Bytes) : Option Account :=
  match splitInt fields with
  | none => none
  | some (nonce, fields) =>
    if 8 < nonce.length then none
    else
      match splitInt fields with
      | none => none
      | some (balance, fields) =>
        match splitString fields with
        | none => none
        | some (root, fields) =>
          if h : root.length = 32 then
            match splitString fields with
            | some (codeHash, []) => some ⟨BigEndian.decode nonce, BigEndian.decode balance, ⟨root, h⟩, codeHash⟩
            | _ => none
          else none

/-- `rlp.Decode` into an `Account`. It does not look at what follows the list. -/
def decodeAccount (leaf : Bytes) : Option Account :=
  match split leaf with
  | some (.list, fields, _) => decodeFields fields
  | _ => none

/-- The callback of `NewStateSync`. -/
def accountLeaf : LeafCallback := fun leaf =>
  match decodeAccount leaf with
  | none => none
  | some obj => some [.subTrie obj.root 64, .rawEntry (bytesToHash obj.codeHash) 64]

section
variable [Crypto]

/-- `NewStateSync` -/
def newStateSync (root : Hash) (database : Hash → Option Bytes) : TrieSync :=
  newTrieSync root database (some accountLeaf)

end

/-! ## What is no account -/

variable {rest : Bytes}

theorem splitString_length {bs c : Bytes} (h : splitString bs = some (c, rest)) :
    rest.length < bs.length ∧ (1 < c.length → c.length + rest.length < bs.length) := by
  have hsplit : split bs = some (.string, c, rest) := by
    unfold splitString at h
    split at h
    next hs =>
      cases h
      exact hs
    · cases h
  rcases split_length hsplit with hlt | ⟨_, hone, hlen⟩
  · exact ⟨by omega, fun _ => hlt⟩
  · exact ⟨by omega, fun h => by omega⟩

theorem splitInt_length {bs c : Bytes} (h : splitInt bs = some (c, rest)) : rest.length < bs.length := by
  obtain ⟨hs, _⟩ := Option.filter_eq_some_iff.mp h
  exact (splitString_length hs).1

/-- The storage root alone takes 33 bytes. -/
theorem length_of_decodeFields {fields : Bytes} {obj : Account} (h : decodeFields fields = some obj) : 35 < fields.length := by
  unfold decodeFields at h
  split at h
  · cases h
  next _ nonce fields1 hnonce =>
    have := splitInt_length hnonce
    split at h
    · cases h
    · split at h
      · cases h
      next _ balance fields2 hbalance =>
        have := splitInt_length hbalance
        split at h
        · cases h
        next _ root fields3 hroot =>
          have := (splitString_length hroot).2
          split at h
          · split at h
            next hcode =>
              have := (splitString_length hcode).1
              omega
            · cases h
          · cases h

/-- An account takes more than 36 bytes. -/
theorem length_of_decodeAccount {leaf : Bytes} {obj : Account} (h : decodeAccount leaf = some obj) : 36 < leaf.length := by
  unfold decodeAccount at h
  split at h
  next fields rest hsplit =>
    have := length_of_decodeFields h
    rcases split_length hsplit with hlt | ⟨hkind, _⟩
    · omega
    · cases hkind
  · cases h

/-- A list that starts with a string of more than eight bytes is no account. -/
theorem decodeAccount_of_long {first : Bytes} (h8 : 8 < first.length) (hfirst : first.length < 256 ^ 8)
    (hlen : (encodeString first ++ rest).length < 256 ^ 8) :
    decodeAccount (encodeList (encodeString first ++ rest)) = none := by
  have hlist := split_encodeList hlen []
  rw [List.append_nil] at hlist
  unfold decodeAccount
  rw [hlist]
  dsimp only
  unfold decodeFields splitInt splitString
  rw [split_encodeString hfirst]
  split
  · rfl
  next hf =>
    obtain ⟨hs, _⟩ := Option.filter_eq_some_iff.mp hf
    cases hs
    exact if_pos h8

end Bgmchain
