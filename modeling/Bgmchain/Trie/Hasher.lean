import Bgmchain.Common.Crypto
import Bgmchain.Lib.Rlp
import Bgmchain.Trie.Trie

/-! # Trie hashes

`trie/hasher.go`: the root hash of a trie, and what `CommitTo` writes to the
database. A child whose encoding is shorter than a hash is written into its
parent, any other is replaced by its hash, and a hash that a node already carries
is used as it is. That `Hash` and `CommitTo` store the hashes they compute in the
nodes is left out: it changes what later calls have to compute, not what they
return. -/
namespace Bgmchain
open Common Lib Rlp

/-- The root hash of the empty trie. -/
def emptyRoot : Hash :=
  ⟨[0x56, 0xe8, 0x1f, 0x17, 0x1b, 0xcc, 0x55, 0xa6, 0xff, 0x83, 0x45, 0xe6, 0x92, 0xc0, 0xf8, 0x6e,
    0x5b, 0x48, 0xe0, 0x1b, 0x99, 0x6c, 0xad, 0xc0, 0x01, 0x62, 0x2f, 0xb5, 0xe3, 0x63, 0xb4, 0x21],
    by decide⟩

/-- `decodeNibbles`: two nibbles a byte. -/
def decodeNibbles : List Nibble → Bytes
  | hi :: lo :: rest => UInt8.ofNat (hi.val * 16 + lo.val) :: decodeNibbles rest
  | _ => []

/-- `hexToCompact`: flags for a terminator and an odd length, then the nibbles. -/
def hexToCompact (hex : List Nibble) : Bytes :=
  let terminator := if hasTerm hex then 32 else 0
  let hex := if hasTerm hex then hex.dropLast else hex
  if hex.length % 2 = 1 then
    match hex with
    | i :: rest => UInt8.ofNat (terminator + 16 + i.val) :: decodeNibbles rest
    | [] => []
  else UInt8.ofNat terminator :: decodeNibbles hex

section
variable [Crypto]

/-- `store` without a database: what the parent writes for a node with this
encoding. -/
def storeRef (force : Bool) (enc : Bytes) : Bytes :=
  if enc.length < 32 && !force then enc else encodeString (Crypto.keccak256 enc).bytes

/-- `hash` and `hashChildren`: what the parent writes for a node. -/
def Node.hashRef (force : Bool) : Node → Bytes
  | .nil => encodeString []
  | .value v => storeRef force (encodeString v)
  | .hash h => encodeString h.bytes
  | .short k val flags =>
    match flags.hash with
    | some h => encodeString h.bytes
    | none =>
      let ref := match val with
        | .value v => encodeString v
        | val => val.hashRef false
      storeRef force (encodeList (encodeString (hexToCompact k) ++ ref))
  | .full cs flags =>
    match flags.hash with
    | some h => encodeString h.bytes
    | none =>
      let refs := (List.finRange 17).flatMap fun i =>
        if i = Fin.last 16 then
          match cs i with
          | .value v => encodeString v
          | _ => encodeString []
        else (cs i).hashRef false
      storeRef force (encodeList refs)

/-- `Trie.Hash`: the hash the forced reference to the root holds. -/
def Trie.hash (t : Trie) : Hash :=
  match t.root with
  | .nil => emptyRoot
  | root => bytesToHash (root.hashRef true)

/-! ## Committing -/

/-- What `hash` with a database makes of a node: the reference that the parent
writes, the node that the reference is decoded to by a trie of some generation, and
the nodes that are stored, in the form they are read back in. -/
structure Committed where
  ref : Bytes
  decoded : UInt16 → Node
  writes : List (Hash × (UInt16 → Node))

/-- `store` with a database. `decoded` is given the hash that the node is stored
under, none when it is written into its parent. -/
def commitStore (force : Bool) (cached : Option Hash) (enc : Bytes)
    (decoded : Option Hash → UInt16 → Node) (writes : List (Hash × (UInt16 → Node))) : Committed :=
  if enc.length < 32 && !force then ⟨enc, decoded none, writes⟩
  else
    let h := cached.getD (Crypto.keccak256 enc)
    ⟨encodeString h.bytes, fun _ => .hash h, writes ++ [(h, decoded (some h))]⟩

/-- `hash` and `hashChildren` with a database: a node that is not dirty is there
already. -/
def Node.commit (force : Bool) : Node → Committed
  | .nil => ⟨encodeString [], fun _ => .nil, []⟩
  | .value v => commitStore force none (encodeString v) (fun _ _ => .value v) []
  | .hash h => ⟨encodeString h.bytes, fun _ => .hash h, []⟩
  | .short k val flags =>
    match flags.hash, flags.dirty with
    | some h, false => ⟨encodeString h.bytes, fun _ => .hash h, []⟩
    | cached, _ =>
      let child : Committed := match val with
        | .value v => ⟨encodeString v, fun _ => .value v, []⟩
        | val => val.commit false
      commitStore force cached (encodeList (encodeString (hexToCompact k) ++ child.ref))
        (fun h gen => .short k (child.decoded gen) ⟨h, gen, false⟩) child.writes
  | .full cs flags =>
    match flags.hash, flags.dirty with
    | some h, false => ⟨encodeString h.bytes, fun _ => .hash h, []⟩
    | cached, _ =>
      let child := fun i : Nibble =>
        if i = Fin.last 16 then
          match cs i with
          | .value v => ⟨encodeString v, fun _ => .value v, []⟩
          | _ => ⟨encodeString [], fun _ => .nil, []⟩
        else (cs i).commit false
      commitStore force cached (encodeList ((List.finRange 17).flatMap fun i => (child i).ref))
        (fun h gen => .full (fun i => (child i).decoded gen) ⟨h, gen, false⟩)
        ((List.finRange 17).flatMap fun i => (child i).writes)

/-- `CommitTo`: the database after the nodes of the trie have been written. -/
def Trie.commitTo (t : Trie) (db : NodeDatabase) : NodeDatabase :=
  match t.root with
  | .nil => db
  | root =>
    let writes := (root.commit true).writes
    { load := fun h gen =>
        match writes.find? fun w => w.1 = h with
        | some w => some (w.2 gen)
        | none => db.load h gen
      bound := max db.bound (root.weight db) }

end

/-- `New` and `NewTrieWithPrefix` -/
def Trie.new (root : Hash) (pre : Bytes) (db : NodeDatabase) : Except TrieError Trie :=
  if root ≠ .zero 32 ∧ root ≠ emptyRoot then
    match resolveHash db 0 root [] with
    | .error e => .error e
    | .ok rootnode => .ok { root := rootnode, db := db, prefix_ := pre, cachegen := 0 }
  else .ok (.empty db pre)

end Bgmchain
