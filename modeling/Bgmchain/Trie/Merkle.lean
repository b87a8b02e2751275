import Bgmchain.Trie.Hasher
import Bgmchain.Trie.Hereditary
import Bgmchain.Trie.Map

/-! # What the root hash of a trie commits to

A trie that was built in memory holds no hash nodes and no cached hashes, so its
root hash is a function of the tree it stands for. The compact form of an edge says
whether a value follows, and a node written into its parent is shorter than a hash. -/
namespace Bgmchain
open Common Lib Patricia Hoare Rlp Crypto
open List hiding lookup insert

/-! ## The compact form of an edge -/

/-- `compactToHex`. The flags are the first nibble, which the empty string has not. -/
def compactToHex (compact : Bytes) : Option (List Nibble) :=
  match nibbles compact with
  | [] => none
  | flags :: rest =>
    let base := flags :: rest ++ if 2 ≤ flags.val then [Fin.last 16] else []
    some (base.drop (2 - flags.val % 2))

/-- The bytes of an edge without terminator, after its flags. -/
def packNibbles (terminator : Nat) (hex : List Nibble) : Bytes :=
  if hex.length % 2 = 1 then
    match hex with
    | i :: rest => UInt8.ofNat (terminator + 16 + i.val) :: decodeNibbles rest
    | [] => []
  else UInt8.ofNat terminator :: decodeNibbles hex

variable {k : List Nibble}

theorem hexToCompact_of_notMem (hk : Fin.last 16 ∉ k) : hexToCompact k = packNibbles 0 k := by
  have hterm : hasTerm k = false := by
    rw [hasTerm, beq_eq_false_iff_ne]
    intro h
    exact hk (mem_of_getLast? h)
  rw [hexToCompact, hterm]
  rfl

theorem hexToCompact_concat (k : List Nibble) : hexToCompact (k ++ [Fin.last 16]) = packNibbles 32 k := by
  have hterm : hasTerm (k ++ [Fin.last 16]) = true := by simp [hasTerm]
  rw [hexToCompact, hterm]
  simp only [if_true, dropLast_concat]
  rfl

theorem nibble_lt {i : Nibble} (h : i ≠ Fin.last 16) : i.val < 16 := by
  have := i.isLt
  have : i.val ≠ 16 := fun he => h (Fin.ext he)
  omega

/-- The byte of two nibbles. -/
theorem nibbles_pair {hi lo : Nibble} (hhi : hi.val < 16) (hlo : lo.val < 16) (bs : Bytes) :
    nibbles (UInt8.ofNat (hi.val * 16 + lo.val) :: bs) = hi :: lo :: nibbles bs := by
  have hbyte : (UInt8.ofNat (hi.val * 16 + lo.val)).toNat = hi.val * 16 + lo.val := by
    rw [UInt8.toNat_ofNat']
    omega
  have hhigh : highNibble (UInt8.ofNat (hi.val * 16 + lo.val)) = hi := by
    apply Fin.ext
    simp only [highNibble, hbyte]
    omega
  have hlow : lowNibble (UInt8.ofNat (hi.val * 16 + lo.val)) = lo := by
    apply Fin.ext
    simp only [lowNibble, hbyte]
    omega
  rw [nibbles, hhigh, hlow]

theorem nibbles_decodeNibbles {a : List Nibble} (ha : Fin.last 16 ∉ a) (heven : a.length % 2 = 0) :
    nibbles (decodeNibbles a) = a := by
  induction a using decodeNibbles.induct with
  | case1 hi lo rest ih =>
    simp only [mem_cons, not_or] at ha
    simp only [length_cons] at heven
    rw [decodeNibbles, nibbles_pair (nibble_lt (Ne.symm ha.1)) (nibble_lt (Ne.symm ha.2.1)),
      ih ha.2.2 (by omega)]
  | case2 a hnot =>
    match a with
    | [] => rfl
    | [_] => cases heven
    | hi :: lo :: rest => exact absurd rfl (hnot hi lo rest)

theorem compactToHex_packNibbles {t : Nat} (ht : t = 0 ∨ t = 32) {p : List Nibble} (hp : Fin.last 16 ∉ p) :
    compactToHex (packNibbles t p) = some (p ++ if t = 32 then [Fin.last 16] else []) := by
  unfold packNibbles
  rcases Nat.mod_two_eq_zero_or_one p.length with heven | hodd
  · rw [if_neg (by omega)]
    have hsplit : UInt8.ofNat t = UInt8.ofNat ((Fin.ofNat 17 (t / 16)).val * 16 + (Fin.ofNat 17 0).val) := by
      rcases ht with rfl | rfl <;> rfl
    rw [hsplit, compactToHex, nibbles_pair (by rcases ht with rfl | rfl <;> decide) (by decide),
      nibbles_decodeNibbles hp heven]
    rcases ht with rfl | rfl <;> simp [Fin.ofNat]
  · rw [if_pos hodd]
    obtain ⟨i, rest, rfl⟩ := exists_cons_of_ne_nil (show p ≠ [] by rintro rfl; cases hodd)
    have hi := nibble_lt (i := i) (by rintro rfl; exact hp mem_cons_self)
    have hsplit : UInt8.ofNat (t + 16 + i.val) = UInt8.ofNat ((Fin.ofNat 17 (t / 16 + 1)).val * 16 + i.val) := by
      rcases ht with rfl | rfl <;> rfl
    simp only [length_cons] at hodd
    dsimp only
    rw [hsplit, compactToHex, nibbles_pair (by rcases ht with rfl | rfl <;> decide) hi,
      nibbles_decodeNibbles (fun hm => hp (mem_cons_of_mem _ hm)) (by omega)]
    rcases ht with rfl | rfl <;> simp [Fin.ofNat]

/-- **An edge is read back.** -/
theorem compactToHex_hexToCompact {k : List Nibble} (hk : Terminated k ∨ Fin.last 16 ∉ k) :
    compactToHex (hexToCompact k) = some k := by
  rcases hk with hk | hk
  · obtain ⟨p, hp, rfl⟩ := hk.exists_concat
    rw [hexToCompact_concat, compactToHex_packNibbles (.inr rfl) hp]
    rfl
  · rw [hexToCompact_of_notMem hk, compactToHex_packNibbles (.inl rfl) hk]
    simp

/-! ## Encodings of trees -/

/-- The tree of a node that was built in memory. -/
def Node.tree : Node → TrieTree
  | .nil => .nil
  | .value v => .leaf v
  | .hash _ => .nil
  | .short k val _ => .short k val.tree
  | .full cs _ => .full fun i => (cs i).tree

section
variable [Crypto]

/-- What a parent writes for a child with this encoding. -/
def childRef : TrieTree → Bytes → Bytes
  | .nil, enc => enc
  | .leaf _, enc => enc
  | _, enc => storeRef false enc

/-- The encoding of a node after its children. -/
def treeEncoding : TrieTree → Bytes
  | .nil => encodeString []
  | .leaf v => encodeString v
  | .short k c => encodeList (encodeString (hexToCompact k) ++ childRef c (treeEncoding c))
  | .full cs => encodeList ((List.finRange 17).flatMap fun i => childRef (cs i) (treeEncoding (cs i)))

def treeRef (t : TrieTree) : Bytes := childRef t (treeEncoding t)

/-- What is hashed when a parent refers to a child with this encoding. -/
def childPreimages : TrieTree → Bytes → List Bytes
  | .nil, _ => []
  | .leaf _, _ => []
  | _, enc => if enc.length < 32 then [] else [enc]

/-- What is hashed below a node. -/
def treePreimages : TrieTree → List Bytes
  | .nil => []
  | .leaf _ => []
  | .short _ c => childPreimages c (treeEncoding c) ++ treePreimages c
  | .full cs => (List.finRange 17).flatMap fun i =>
      childPreimages (cs i) (treeEncoding (cs i)) ++ treePreimages (cs i)

/-- All that is hashed on the way to the root hash of a trie that was built in memory. -/
def Trie.preimages (t : Trie) : List Bytes :=
  match t.root.tree with
  | .nil => []
  | tree => treeEncoding tree :: treePreimages tree

/-- The items of a node's encoding. -/
def treeItems : TrieTree → List Bytes
  | .short k c => [encodeString (hexToCompact k), treeRef c]
  | .full cs => (List.finRange 17).map fun i => treeRef (cs i)
  | _ => []

/-- Edges and branches are encoded as lists. -/
def Inner : TrieTree → Prop
  | .short _ _ => True
  | .full _ => True
  | _ => False

variable {t : TrieTree}

section
omit [Crypto]

theorem Inner.ne_nil (h : Inner t) : t ≠ .nil := by
  rintro rfl
  exact h

theorem childPreimages_of_lt {enc : Bytes} (hlen : enc.length < 32) : childPreimages t enc = [] := by
  cases t <;> simp [childPreimages, hlen]

theorem Inner.childPreimages_eq (hi : Inner t) (enc : Bytes) :
    childPreimages t enc = if enc.length < 32 then [] else [enc] := by
  cases t with
  | nil | leaf v => exact hi.elim
  | short k c | full cs => rfl

end

theorem Inner.mem_childPreimages (hi : Inner t) (hlen : 32 ≤ (treeEncoding t).length) :
    treeEncoding t ∈ childPreimages t (treeEncoding t) := by
  rw [hi.childPreimages_eq, if_neg (by omega)]
  exact mem_singleton_self _

theorem Inner.treeEncoding_eq (h : Inner t) : treeEncoding t = encodeList (treeItems t).flatten := by
  cases t with
  | nil | leaf v => exact h.elim
  | short k c => simp [treeEncoding, treeItems, treeRef]
  | full cs => simp [treeEncoding, treeItems, treeRef, List.flatMap]

theorem Inner.treeRef_eq (h : Inner t) : treeRef t = storeRef false (treeEncoding t) := by
  cases t with
  | nil | leaf v => exact h.elim
  | short k c | full cs => rfl

theorem encoded_treeRef (t : TrieTree) : Encoded (treeRef t) := by
  have hinner : Inner t → Encoded (treeRef t) := by
    intro h
    rw [h.treeRef_eq, storeRef]
    split
    · rw [h.treeEncoding_eq]
      exact encoded_encodeList _
    · exact encoded_encodeString _
  cases t with
  | nil => exact encoded_encodeString []
  | leaf v => exact encoded_encodeString v
  | short k c | full cs => exact hinner trivial

theorem encoded_treeItems (t : TrieTree) : ∀ bs ∈ treeItems t, Encoded bs := by
  intro bs hbs
  cases t with
  | nil | leaf v => cases hbs
  | short k c =>
    simp only [treeItems, mem_cons, not_mem_nil, or_false] at hbs
    rcases hbs with rfl | rfl
    · exact encoded_encodeString _
    · exact encoded_treeRef c
  | full cs =>
    obtain ⟨i, _, rfl⟩ := mem_map.mp hbs
    exact encoded_treeRef (cs i)

theorem length_le_of_mem_treeItems (h : Inner t) {bs : Bytes} (hbs : bs ∈ treeItems t) :
    bs.length ≤ (treeEncoding t).length := by
  rw [h.treeEncoding_eq]
  exact (sublist_flatten_of_mem hbs).length_le.trans (length_le_encodeList _)

/-! ## Strings that are hashed -/

/-- Strings that Keccak256 tells apart and whose lengths can be written. -/
structure Distinct (P : Set Bytes) : Prop where
  free : NoCollision P
  size : ∀ bs ∈ P, bs.length < 256 ^ 8

omit [Crypto] in
theorem encodeString_hash (h : Hash) : encodeString h.bytes = 0xa0 :: h.bytes := by
  have hlen : h.bytes.length = 32 := h.length_eq
  obtain ⟨b, hb, -⟩ | ⟨-, henc⟩ := encodeString_cases h.bytes
  · simp [hb] at hlen
  · rw [henc, hlen]
    rfl

variable {P : Set Bytes}

/-- All that is hashed for a child and below it is among these strings. -/
def Covered (P : Set Bytes) (t : TrieTree) : Prop :=
  ∀ bs, bs ∈ childPreimages t (treeEncoding t) ∨ bs ∈ treePreimages t → bs ∈ P

theorem Covered.mem (h : Covered P t) (hi : Inner t)
    (hlen : ¬ (treeEncoding t).length < 32) : treeEncoding t ∈ P :=
  h _ (.inl (hi.mem_childPreimages (Nat.le_of_not_lt hlen)))

theorem Inner.treeEncoding_ne (h : Inner t) (hlen : (treeEncoding t).length < 256 ^ 8) :
    encodeString [] ≠ treeEncoding t := by
  rw [h.treeEncoding_eq] at hlen ⊢
  exact encodeString_ne_encodeList (by simp) ((length_le_encodeList _).trans_lt hlen)

omit [Crypto] in
theorem wf_nil_or_inner (h : WF t) : t = .nil ∨ Inner t := by
  cases h with
  | nil => exact .inl rfl
  | leaf _ | ext _ _ _ | full _ _ _ => exact .inr trivial

/-- No value is empty. -/
def Valued : TrieTree → Prop
  | .nil => True
  | .leaf v => v ≠ []
  | .short _ c => Valued c
  | .full cs => ∀ i, Valued (cs i)

theorem covered_short {k : List Nibble} {c : TrieTree}
    (h : ∀ bs ∈ treePreimages (.short k c), bs ∈ P) : Covered P c := by
  intro bs hbs
  exact h bs (mem_append.mpr hbs)

theorem covered_full {cs : Nibble → TrieTree}
    (h : ∀ bs ∈ treePreimages (.full cs), bs ∈ P) (i : Nibble) : Covered P (cs i) := by
  intro bs hbs
  exact h bs (mem_flatMap.mpr ⟨i, mem_finRange i, mem_append.mpr hbs⟩)

theorem Covered.below (h : Covered P t) : ∀ bs ∈ treePreimages t, bs ∈ P :=
  fun bs hbs => h bs (.inr hbs)

omit [Crypto] in
theorem wf_short_cases {k : List Nibble} {c : TrieTree} (h : WF (.short k c)) :
    (Terminated k ∧ ∃ v, c = .leaf v) ∨ (Fin.last 16 ∉ k ∧ Inner c ∧ WF c) := by
  cases h with
  | leaf ht => exact .inl ⟨ht, _, rfl⟩
  | ext _ hl hf => exact .inr ⟨hl, trivial, hf⟩

/-- The hash of a tree. -/
def treeHash : TrieTree → Hash
  | .nil => emptyRoot
  | t => keccak256 (treeEncoding t)

theorem Inner.treeHash_eq (h : Inner t) : treeHash t = keccak256 (treeEncoding t) := by
  cases t with
  | nil | leaf v => exact h.elim
  | short k c | full cs => rfl

/-- No tree but the empty one has the root of the empty trie. -/
theorem Inner.treeHash_ne_emptyRoot (h : Inner t) (hP : Distinct P)
    (hempty : keccak256 (encodeString []) = emptyRoot) (hnil : encodeString [] ∈ P)
    (hmem : treeEncoding t ∈ P) : treeHash t ≠ emptyRoot := by
  rw [h.treeHash_eq, ← hempty]
  intro heq
  exact h.treeEncoding_ne (hP.size _ hmem) (hP.free _ hmem _ hnil heq).symm

end

/-! ## Tries built in memory -/

/-- No hash nodes and no cached hashes. -/
def Node.Fresh : Node → Prop
  | .nil => True
  | .value _ => True
  | .hash _ => False
  | .short _ val flags => flags.hash = none ∧ val.Fresh
  | .full cs flags => flags.hash = none ∧ ∀ i, (cs i).Fresh

theorem Loads.eq_tree {db : NodeDatabase} {n : Node} {t : TrieTree} (h : Loads db n t) (hf : n.Fresh) :
    t = n.tree ∧ Valued t := by
  induction h with
  | nil => exact ⟨rfl, trivial⟩
  | value hv => exact ⟨rfl, hv⟩
  | short _ ih =>
    obtain ⟨rfl, hv⟩ := ih hf.2
    exact ⟨rfl, hv⟩
  | full _ ih =>
    refine ⟨?_, fun i => (ih i (hf.2 i)).2⟩
    exact congrArg Tree.full (funext fun i => (ih i (hf.2 i)).1)
  | hash _ _ _ _ _ _ => exact hf.elim

section
variable {db : NodeDatabase} {gen : UInt16}

theorem Node.hereditary_fresh : Hereditary db gen fun _ => Node.Fresh where
  nil _ := trivial
  short _ _ _ h := ⟨rfl, h⟩
  val h := h.2
  full _ _ h := ⟨rfl, h⟩
  child h := h.2
  load h := h.elim

/-- A trie built in memory stays one. -/
theorem Trie.update_fresh {t : Trie} (h : t.root.Fresh) (k v : Bytes) : (t.update k v).root.Fresh := by
  unfold Trie.update Trie.tryUpdate Trie.tryDelete
  split
  next t' ht =>
    split at ht
    · obtain ⟨⟨dirty, n⟩, hinsert, ht⟩ := except_bind_ok_iff.mp ht
      cases ht
      exact Node.hereditary_fresh.insert (b := true) (fun _ => trivial) hinsert h
    · obtain ⟨⟨dirty, n⟩, hdelete, ht⟩ := except_bind_ok_iff.mp ht
      cases ht
      exact Node.hereditary_fresh.delete (b := true) hdelete h
  · exact h

end

section
variable [Crypto]

/-- The tree of a node decides what its parent writes for it. -/
theorem Node.Fresh.hashRef_eq {n : Node} (hf : n.Fresh) (hw : WF n.tree) (hne : n.tree ≠ .nil) (force : Bool) :
    n.hashRef force = storeRef force (treeEncoding n.tree) := by
  induction n generalizing force with
  | nil => exact absurd rfl hne
  | value v => cases hw
  | hash h => exact hf.elim
  | short k val flags ih =>
    rcases wf_short_cases hw with ⟨_, v, hv⟩ | ⟨_, hi, hwc⟩
    · cases val with
      | value v' =>
        rw [Node.hashRef, hf.1]
        rfl
      | hash h => exact hf.2.elim
      | _ => cases hv
    · have href := ih hf.2 hwc hi.ne_nil false
      rw [← hi.treeRef_eq] at href
      cases val with
      | value v | nil | hash h => exact hi.elim
      | short k' val' flags' | full cs flags' =>
        rw [Node.hashRef, hf.1]
        · simp only [href]
          rfl
        · rintro _ ⟨⟩
  | full cs flags ih =>
    rw [Node.hashRef, hf.1]
    refine congrArg (storeRef force) (congrArg encodeList (flatMap_congr fun i _ => ?_))
    have hwc := (wf_full_iff.mp hw).1 i
    have hfc := hf.2 i
    change _ = treeRef (cs i).tree
    by_cases hlast : i = Fin.last 16
    · rw [if_pos hlast]
      have hwc : (cs i).tree = .nil ∨ ∃ v, (cs i).tree = .leaf v := wfAt_last.mp (hlast ▸ hwc)
      cases hn : cs i with
      | nil | value v => rfl
      | hash h => exact (hn ▸ hfc : (Node.hash h).Fresh).elim
      | short k val flags' | full cs' flags' => simp [hn, Node.tree] at hwc
    · rw [if_neg hlast]
      have hwc := (wfAt_of_ne hlast).mp hwc
      rcases wf_nil_or_inner hwc with hnil | hi
      · rw [hnil]
        cases hn : cs i with
        | nil => rfl
        | hash h => exact (hn ▸ hfc : (Node.hash h).Fresh).elim
        | _ => simp [hn, Node.tree] at hnil
      · rw [hi.treeRef_eq]
        exact ih i hfc hwc hi.ne_nil false

omit [Crypto] in
theorem bytesToHash_ref (h : Hash) : bytesToHash (encodeString h.bytes) = h := by
  apply FixedBytes.ext
  have hlen : h.bytes.length = 32 := h.length_eq
  rw [encodeString_hash, bytesToHash, FixedBytes.ofBytes]
  simp [hlen]

variable {t : Trie}

theorem Trie.hash_of_fresh (hf : t.root.Fresh) (hw : WF t.root.tree) (hne : t.root.tree ≠ .nil) :
    t.hash = keccak256 (treeEncoding t.root.tree) := by
  have href := hf.hashRef_eq hw hne true
  rw [storeRef] at href
  simp only [Bool.not_true, Bool.and_false, Bool.false_eq_true, if_false] at href
  unfold Trie.hash
  cases hroot : t.root with
  | nil => simp [hroot, Node.tree] at hne
  | _ =>
    rw [hroot] at href
    simp only [href, bytesToHash_ref]

theorem Trie.hash_of_nil (ht : t.root.tree = .nil) (hf : t.root.Fresh) : t.hash = emptyRoot := by
  unfold Trie.hash
  cases hr : t.root with
  | nil => rfl
  | hash h => exact (hr ▸ hf : (Node.hash h).Fresh).elim
  | _ => simp [hr, Node.tree] at ht

theorem Trie.hash_eq_treeHash (hf : t.root.Fresh) (hw : WF t.root.tree) : t.hash = treeHash t.root.tree := by
  rcases wf_nil_or_inner hw with hn | hi
  · rw [Trie.hash_of_nil hn hf, hn]
    rfl
  · rw [Trie.hash_of_fresh hf hw hi.ne_nil, hi.treeHash_eq]

end

end Bgmchain
