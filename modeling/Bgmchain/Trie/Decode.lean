import Bgmchain.Trie.Merkle

/-! # Reading nodes back

The reading half of `trie/node.go`: what `mustDecodeNode` makes of the bytes under a
hash. A node carries the hash that it was read under, and two stores whose keys are
the hashes of their entries read the same nodes, as long as no two entries have one
hash. -/
namespace Bgmchain
open Common Lib Rlp Crypto
open Lib.Hoare (except_bind_ok_iff)

/-! ## Decoding -/

/-- `rlp.SplitString` -/
def splitString (bs : Bytes) : Option (Bytes × Bytes) :=
  match split bs with
  | some (.string, contents, rest) => some (contents, rest)
  | _ => none

/-- `rlp.CountValues`, zero for an error. Each value takes a byte, so the length of
the input is fuel enough. -/
def countValues (bs : Bytes) : Nat :=
  let rec count : Nat → Bytes → Option Nat
    | _, [] => some 0
    | 0, _ :: _ => none
    | f + 1, b :: bs =>
      match split (b :: bs) with
      | some (_, _, rest) => (count f rest).map (· + 1)
      | none => none
  (count bs.length bs).getD 0

/-- `decodeRef`; `decode` is `decodeNode` for a node that is written into its parent. -/
def decodeRef (decode : Bytes → Option Node) (buf : Bytes) : Option (Node × Bytes) :=
  match split buf with
  | none => none
  | some (.list, _, rest) =>
    -- an embedded node is not longer than a hash
    if buf.length - rest.length > 32 then none else (decode buf).map (·, rest)
  | some (.string, val, rest) =>
    if val = [] then some (.nil, rest)
    else if h : val.length = 32 then some (.hash ⟨val, h⟩, rest)
    else none

/-- The loop of `decodeFull`. -/
def decodeRefs (decode : Bytes → Option Node) : Nat → Bytes → Option (List Node × Bytes)
  | 0, elems => some ([], elems)
  | n + 1, elems => do
    let (child, rest) ← decodeRef decode elems
    let (children, rest) ← decodeRefs decode n rest
    some (child :: children, rest)

/-- `decodeShort` -/
def decodeShort (decode : Bytes → Option Node) (flags : NodeFlag) (elems : Bytes) : Option Node := do
  let (kbuf, rest) ← splitString elems
  let key ← compactToHex kbuf
  if hasTerm key then
    let (val, _) ← splitString rest
    some (.short key (.value val) flags)
  else
    let (r, _) ← decodeRef decode rest
    some (.short key r flags)

/-- `decodeFull` -/
def decodeFull (decode : Bytes → Option Node) (flags : NodeFlag) (elems : Bytes) : Option Node := do
  let (children, rest) ← decodeRefs decode 16 elems
  let (val, _) ← splitString rest
  some (.full (fun i => (children ++ [if val = [] then Node.nil else .value val]).getD i.val .nil) flags)

/-- `decodeNode`. A node that is written into another is shorter than it. -/
def decodeNode : Nat → Option Hash → UInt16 → Bytes → Option Node
  | 0, _, _, _ => none
  | f + 1, hash, cachegen, buf =>
    match split buf with
    | some (.list, elems, _) =>
      match countValues elems with
      | 2 => decodeShort (decodeNode f none cachegen) ⟨hash, cachegen, false⟩ elems
      | 17 => decodeFull (decodeNode f none cachegen) ⟨hash, cachegen, false⟩ elems
      | _ => none
    | _ => none

/-- `mustDecodeNode`; it panics where there is nothing here. -/
def mustDecodeNode (hash : Hash) (cachegen : UInt16) (buf : Bytes) : Option Node :=
  decodeNode buf.length (some hash) cachegen buf

/-- A store of encoded nodes, as a trie reads it. -/
def NodeDatabase.ofStore (get : Hash → Option Bytes) (bound : Nat) : NodeDatabase where
  load h gen := (get h).bind (mustDecodeNode h gen)
  bound := bound

/-! ## What is read under a hash -/

section
variable [Crypto] {root : Hash} {pre key v : Bytes} {t : Trie} {get : Hash → Option Bytes}

/-- A node that carries a hash is referred to by it. -/
theorem hashRef_short (force : Bool) (k : List Nibble) (val : Node) (h : Hash) (gen : UInt16) (dirty : Bool) :
    (Node.short k val ⟨some h, gen, dirty⟩).hashRef force = encodeString h.bytes := by
  rfl

theorem hashRef_full (force : Bool) (cs : Nibble → Node) (h : Hash) (gen : UInt16) (dirty : Bool) :
    (Node.full cs ⟨some h, gen, dirty⟩).hashRef force = encodeString h.bytes := by
  rfl

/-- A decoded node has the flags that the decoder was given. -/
theorem decodeNode_hashRef {f : Nat} {h : Hash} {gen : UInt16} {buf : Bytes} {n : Node}
    (hn : decodeNode f (some h) gen buf = some n) (force : Bool) :
    n.hashRef force = encodeString h.bytes ∧ n ≠ .nil := by
  cases f with
  | zero => cases hn
  | succ f =>
    unfold decodeNode at hn
    split at hn
    · split at hn
      · unfold decodeShort at hn
        simp only [Option.bind_eq_bind, Option.bind_eq_some_iff] at hn
        obtain ⟨_, _, key, _, hn⟩ := hn
        split at hn
        · obtain ⟨_, _, hn⟩ := Option.bind_eq_some_iff.mp hn
          cases hn
          exact ⟨hashRef_short .., Node.noConfusion⟩
        · obtain ⟨_, _, hn⟩ := Option.bind_eq_some_iff.mp hn
          cases hn
          exact ⟨hashRef_short .., Node.noConfusion⟩
      · unfold decodeFull at hn
        simp only [Option.bind_eq_bind, Option.bind_eq_some_iff] at hn
        obtain ⟨_, _, _, _, hn⟩ := hn
        cases hn
        exact ⟨hashRef_full .., Node.noConfusion⟩
      · cases hn
    · cases hn

omit [Crypto] in
/-- The root of a trie that is opened at a hash is read from the database. -/
theorem Trie.new_read {db : NodeDatabase} (ht : Trie.new root pre db = .ok t)
    (hroot : root ≠ .zero 32 ∧ root ≠ emptyRoot) :
    ∃ n, db.load root 0 = some n ∧ t = { root := n, db := db, prefix_ := pre, cachegen := 0 } := by
  unfold Trie.new at ht
  rw [if_pos hroot] at ht
  split at ht
  · cases ht
  next n hn =>
    cases ht
    exact ⟨n, resolveHash_ok_iff.mp hn, rfl⟩

/-- A trie that is opened at a hash has this hash. -/
theorem Trie.new_hash {bound : Nat}
    (ht : Trie.new root pre (.ofStore get bound) = .ok t) (hroot : root ≠ .zero 32 ∧ root ≠ emptyRoot) :
    t.hash = root := by
  obtain ⟨n, hload, rfl⟩ := Trie.new_read ht hroot
  obtain ⟨bs, _, hn⟩ := Option.bind_eq_some_iff.mp hload
  obtain ⟨href, hne⟩ := decodeNode_hashRef hn true
  unfold Trie.hash
  dsimp only
  split
  · exact absurd rfl hne
  · rw [href, bytesToHash_ref]

/-- A store of strings of `P` under their hashes. -/
structure Keyed (P : Set Bytes) (get : Hash → Option Bytes) : Prop where
  hash : ∀ h bs, get h = some bs → keccak256 bs = h
  mem : ∀ h bs, get h = some bs → bs ∈ P

variable {P : Set Bytes}

open Classical in
/-- A database that knows every string of `P`. -/
noncomputable def ideal (P : Set Bytes) (h : Hash) : Option Bytes :=
  if hex : ∃ bs ∈ P, keccak256 bs = h then some hex.choose else none

theorem keyed_ideal : Keyed P (ideal P) := by
  have hspec : ∀ h bs, ideal P h = some bs → bs ∈ P ∧ keccak256 bs = h := by
    intro h bs hbs
    unfold ideal at hbs
    split at hbs
    next hex =>
      cases hbs
      exact hex.choose_spec
    · cases hbs
  exact ⟨fun h bs hbs => (hspec h bs hbs).2, fun h bs hbs => (hspec h bs hbs).1⟩

theorem ideal_of_mem (hP : NoCollision P) {bs : Bytes} (hbs : bs ∈ P) : ideal P (keccak256 bs) = some bs := by
  have hex : ∃ bs' ∈ P, keccak256 bs' = keccak256 bs := ⟨bs, hbs, rfl⟩
  unfold ideal
  rw [dif_pos hex]
  exact congrArg some (hP _ hex.choose_spec.1 _ hbs hex.choose_spec.2)

theorem Keyed.le_ideal (hP : NoCollision P) (h : Keyed P get) {hash : Hash} {bs : Bytes}
    (hbs : get hash = some bs) : ideal P hash = some bs := by
  rw [← h.hash hash bs hbs]
  exact ideal_of_mem hP (h.mem hash bs hbs)

/-- What a database loads, the ideal one loads. -/
theorem Keyed.load_ideal (hP : NoCollision P) (h : Keyed P get) (bound : Nat)
    {bound' : Nat} {gen : UInt16} (hash : Hash) (n : Node) (hn : (NodeDatabase.ofStore get bound').load hash gen = some n) :
    (NodeDatabase.ofStore (ideal P) bound).load hash gen = some n := by
  obtain ⟨bs, hbs, hdecode⟩ := Option.bind_eq_some_iff.mp hn
  exact Option.bind_eq_some_iff.mpr ⟨bs, h.le_ideal hP hbs, hdecode⟩

omit [Crypto] in
/-- Where `Get` finds a value, `TryGet` has walked to its end. -/
theorem Trie.get_eq_some (h : (t.get key).1 = some v) :
    ∃ n d, Node.tryGet t.db t.cachegen (t.root.fuel t.db) t.root [] (keybytesToHex (t.prefix_ ++ key)) =
      .ok (some v, n, d) := by
  unfold Trie.get Trie.tryGet at h
  cases hwalk : Node.tryGet t.db t.cachegen (t.root.fuel t.db) t.root [] (keybytesToHex (t.prefix_ ++ key)) with
  | error e =>
    rw [hwalk] at h
    cases h
  | ok r =>
    rw [hwalk] at h
    obtain ⟨value, n, d⟩ := r
    exact ⟨n, d, by rw [← h]⟩

omit [Crypto] in
/-- Nothing is found in a trie without a root. -/
theorem Trie.root_of_get {db : NodeDatabase}
    (ht : Trie.new root pre db = .ok t) (hv : (t.get key).1 = some v) : root ≠ .zero 32 ∧ root ≠ emptyRoot := by
  unfold Trie.new at ht
  split at ht
  · assumption
  · cases ht
    cases hv

/-- What a key holds in a trie depends on the root hash only. -/
theorem Keyed.get_eq (hP : NoCollision P) {get' : Hash → Option Bytes} (hget : Keyed P get) (hget' : Keyed P get')
    {bound bound' : Nat} {t' : Trie} (ht : Trie.new root pre (.ofStore get bound) = .ok t)
    (ht' : Trie.new root pre (.ofStore get' bound') = .ok t') {v' : Bytes} (hv : (t.get key).1 = some v)
    (hv' : (t'.get key).1 = some v') : v = v' := by
  obtain ⟨n, hn, rfl⟩ := Trie.new_read ht (Trie.root_of_get ht hv)
  obtain ⟨n', hn', rfl⟩ := Trie.new_read ht' (Trie.root_of_get ht' hv')
  obtain rfl : n = n' :=
    Option.some.inj ((hget.load_ideal hP 0 _ _ hn).symm.trans (hget'.load_ideal hP 0 _ _ hn'))
  obtain ⟨_, _, hwalk⟩ := Trie.get_eq_some hv
  obtain ⟨_, _, hwalk'⟩ := Trie.get_eq_some hv'
  -- both walks are walks over the ideal database
  have hend := (Node.tryGet_mono (hget.load_ideal hP 0) (Nat.le_max_left _ _) hwalk).symm.trans
    (Node.tryGet_mono (hget'.load_ideal hP 0) (Nat.le_max_right _ _) hwalk')
  exact Option.some.inj (congrArg Prod.fst (Except.ok.inj hend))

end

end Bgmchain
