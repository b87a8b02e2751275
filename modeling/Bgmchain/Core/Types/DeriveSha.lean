import Bgmchain.Core.Types.Receipt
import Bgmchain.Trie.Roundtrip

/-! # Roots of lists

`core/types/derive_sha.go`: the items of a list are put into a trie under their
encoded indexes, and the list is identified with the root hash. An item that cannot be
encoded leaves no entry. -/
namespace Bgmchain.Core
open Common Lib Rlp List

/-- The nil database of `new(trie.Trie)`. -/
def noNodes : NodeDatabase := ⟨fun _ _ => none, 0⟩

/-- The loop of `DeriveSha`; `list` is what `GetRlp` returns for each index. -/
def deriveTrie (list : List Bytes) : Trie :=
  list.zipIdx.foldl (fun trie e => trie.update (encodeNat e.2) e.1) (.empty noNodes [])

/-- `DeriveSha` -/
def deriveSha [Crypto] (list : List Bytes) : Hash := (deriveTrie list).hash

/-- `Transactions.GetRlp` for each index; the error of the encoder is dropped. -/
def transactionRlps (txs : List Transaction) : List Bytes := txs.map fun tx => tx.encode.getD []

/-- `Receipts.GetRlp` for each index, which panics on an error of the encoder. -/
def receiptRlps (receipts : List Receipt) : Option (List Bytes) := receipts.mapM Receipt.encode

/-- The entry that an index has in the trie. -/
def entry (list : List Bytes) (i : Nat) : Option Bytes := list[i]?.filter (· ≠ [])

/-! ## What a root commits to -/

theorem encodeNat_eq_iff {m n : Nat} (hm : m < 256 ^ 8) (hn : n < 256 ^ 8) :
    encodeNat m = encodeNat n ↔ m = n := by
  have hlen : ∀ {n : Nat}, n < 256 ^ 8 → (minimal n).length < 256 ^ 8 :=
    fun h => (length_minimal_le h).trans_lt (by decide)
  exact ⟨fun h => minimal_inj (encodeString_inj (hlen hm) (hlen hn) h), congrArg _⟩

section
variable (list : List Bytes) (item : Bytes)

theorem deriveTrie_concat :
    deriveTrie (list ++ [item]) = (deriveTrie list).update (encodeNat list.length) item := by
  simp [deriveTrie, zipIdx_append, foldl_append]

theorem deriveTrie_unprefixed : (deriveTrie list).prefix_ = [] := by
  induction list using reverseRecOn with
  | nil => rfl
  | append_singleton list item ih =>
    rw [deriveTrie_concat, (Trie.update_frame _ _ _).2, ih]

theorem deriveTrie_fresh : (deriveTrie list).root.Fresh := by
  induction list using reverseRecOn with
  | nil => trivial
  | append_singleton list item ih =>
    rw [deriveTrie_concat]
    exact Trie.update_fresh ih _ _

theorem entry_concat (i : Nat) :
    entry (list ++ [item]) i = if i = list.length then (some item).filter (· ≠ []) else entry list i := by
  unfold entry
  split
  next h =>
    rw [h, getElem?_concat_length]
  next h =>
    rcases Nat.lt_or_gt_of_ne h with h | h
    · rw [getElem?_append_left h]
    · rw [getElem?_eq_none (by simp; omega), getElem?_eq_none (by omega)]

end

/-- The trie has the entries of the list, and no two indexes share a key. -/
theorem deriveTrie_holds {list : List Bytes} (hlen : list.length ≤ 256 ^ 8) :
    ∃ m, (deriveTrie list).Holds m ∧ ∀ i < 256 ^ 8, m (encodeNat i) = entry list i := by
  induction list using reverseRecOn with
  | nil => exact ⟨_, Trie.holds_empty noNodes [], fun i _ => rfl⟩
  | append_singleton list item ih =>
    rw [length_append, length_singleton] at hlen
    obtain ⟨m, hm, hentry⟩ := ih (by omega)
    rw [deriveTrie_concat]
    refine ⟨_, hm.update_filter (encodeNat list.length) item, ?_⟩
    intro i hi
    have hkey := encodeNat_eq_iff hi (show list.length < 256 ^ 8 by omega)
    simp only [entry_concat, Function.update_apply, hkey, hentry i hi]

section
variable [Crypto]

/-- Strings that Keccak256 tells apart, with the one that the root of the empty trie
is the hash of. -/
structure Binding (P : Set Bytes) : Prop extends Distinct P where
  empty_mem : encodeString [] ∈ P
  empty_hash : Crypto.keccak256 (encodeString []) = emptyRoot

/-- A list whose root is made of these strings. -/
structure Rooted (P : Set Bytes) (list : List Bytes) : Prop where
  length_le : list.length ≤ 2 ^ 64
  size : ∀ bs ∈ list, bs.length < 2 ^ 64
  hashed : ∀ bs ∈ (deriveTrie list).preimages, bs ∈ P

/-- Lists with one root have the same entries. -/
theorem deriveSha_entry {P : Set Bytes} (hP : Binding P) {list list' : List Bytes} (h : Rooted P list)
    (h' : Rooted P list') (hsha : deriveSha list = deriveSha list') (i : Nat) :
    entry list i = entry list' i := by
  obtain ⟨m, hm, hentry⟩ := deriveTrie_holds h.length_le
  obtain ⟨m', hm', hentry'⟩ := deriveTrie_holds h'.length_le
  have hmap := Trie.hash_inj hm hm' ((deriveTrie_unprefixed _).trans (deriveTrie_unprefixed _).symm)
    (deriveTrie_fresh _) (deriveTrie_fresh _) hP.empty_hash hP.toDistinct hP.empty_mem h.hashed h'.hashed hsha
  by_cases hi : i < 256 ^ 8
  · rw [← hentry i hi, ← hentry' i hi, hmap]
  · have hlen := h.length_le
    have hlen' := h'.length_le
    unfold entry
    rw [getElem?_eq_none (by omega), getElem?_eq_none (by omega)]

/-- **Lists of items that can be encoded are determined by their root.** -/
theorem deriveSha_inj {P : Set Bytes} (hP : Binding P) {list list' : List Bytes} (h : Rooted P list)
    (h' : Rooted P list') (hne : [] ∉ list) (hne' : [] ∉ list') (hsha : deriveSha list = deriveSha list') :
    list = list' := by
  have hget : ∀ {list : List Bytes}, [] ∉ list → ∀ i, entry list i = list[i]? := by
    intro list hne i
    unfold entry
    cases hi : list[i]? with
    | none => rfl
    | some bs =>
      have : bs ≠ [] := fun hnil => hne (hnil ▸ mem_of_getElem? hi)
      simp [this]
  apply ext_getElem?
  intro i
  rw [← hget hne, ← hget hne', deriveSha_entry hP h h' hsha]

end

end Bgmchain.Core
