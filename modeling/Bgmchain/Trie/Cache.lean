import Bgmchain.Lib.Growing
import Bgmchain.Trie.Roundtrip

/-! # Hashing with caches

`trie/hasher.go` and the rest of `trie/trie.go` as they are: `Hash` keeps the hashes it
computes in the nodes, and `CommitTo` writes the dirty nodes to a database, which may
refuse, marks them as clean and replaces old clean ones by their hashes. -/
namespace Bgmchain
open Common Lib Growing Rlp

/-- What a writer has stored, which writes it refuses and how many it was asked for. -/
structure Writer where
  get : Hash → Option Bytes
  fails : Nat → Bool
  puts : Nat

inductive PutError where
  | refused
deriving DecidableEq

/-- `Put` -/
def put (h : Hash) (enc : Bytes) : EStateM PutError Writer Unit := do
  let w ← get
  set { w with puts := w.puts + 1 }
  if w.fails w.puts then throw .refused
  modify fun w => { w with get := Function.update w.get h (some enc) }

structure Hasher where
  cachegen : UInt16
  cachelimit : UInt16

/-- `canUnload`; the difference of the generations wraps around. -/
def NodeFlag.canUnload (flags : NodeFlag) (cachegen cachelimit : UInt16) : Bool :=
  !flags.dirty && cachelimit ≤ cachegen - flags.gen

/-- The two nodes that `hash` returns. The first is a hash node or what the parent
writes in its place, here by its encoding. -/
structure Hashed where
  hash : Option Hash
  enc : Bytes
  cached : Node

def Hashed.ref (r : Hashed) : Bytes :=
  match r.hash with
  | some h => encodeString h.bytes
  | none => r.enc

/-- The start of `hash`: a node that carries its hash may be done with. -/
def NodeFlag.known (flags : NodeFlag) (h : Hasher) (db : Bool) (n : Node) : Option Hashed :=
  match flags.hash with
  | none => none
  | some hash =>
    if !db then some ⟨some hash, [], n⟩
    else if flags.canUnload h.cachegen h.cachelimit then some ⟨some hash, [], .hash hash⟩
    else if !flags.dirty then some ⟨some hash, [], n⟩
    else none

/-- A value where a parent holds it. -/
def Hashed.ofValue (v : Bytes) : Hashed := ⟨none, encodeString v, .value v⟩

/-- The child behind the terminator is written as it is. -/
def Hashed.ofLast : Node → Hashed
  | .value v => .ofValue v
  | n => ⟨none, encodeString [], n⟩

/-- The child of an edge: a value is left as it is, another node is hashed. -/
def Hashed.ofVal (val : Node) (hashed : EStateM PutError Writer Hashed) : EStateM PutError Writer Hashed :=
  match val with
  | .value v => pure (.ofValue v)
  | _ => hashed

section
variable [Crypto]

/-- `store`: the hash of a node, unless it is short enough for its parent. -/
def store (db force : Bool) (cached : Option Hash) (enc : Bytes) : EStateM PutError Writer (Option Hash) :=
  if enc.length < 32 && !force then pure none
  else do
    let hash := cached.getD (Crypto.keccak256 enc)
    if db then put hash enc
    pure (some hash)

/-- `hash` and `hashChildren`; `db` says whether there is a database to write to. -/
def Node.hashWith (h : Hasher) (db : Bool) : Bool → Node → EStateM PutError Writer Hashed
  | _, .nil => pure ⟨none, encodeString [], .nil⟩
  | force, .value v => do
    let ref ← store db force none (encodeString v)
    pure ⟨ref, encodeString v, .value v⟩
  | _, .hash ref => pure ⟨some ref, [], .hash ref⟩
  | force, .short k val flags =>
    match flags.known h db (.short k val flags) with
    | some r => pure r
    | none => do
      let child ← Hashed.ofVal val (Node.hashWith h db false val)
      let enc := encodeList (encodeString (hexToCompact k) ++ child.ref)
      let ref ← store db force flags.hash enc
      pure ⟨ref, enc, .short k child.cached { flags with hash := ref, dirty := flags.dirty && !db }⟩
  | force, .full cs flags =>
    match flags.known h db (.full cs flags) with
    | some r => pure r
    | none => do
      let children ← forFin fun i : Nibble =>
        if i = Fin.last 16 then pure (.ofLast (cs i)) else Node.hashWith h db false (cs i)
      let enc := encodeList ((List.finRange 17).flatMap fun i => (children i).ref)
      let ref ← store db force flags.hash enc
      pure ⟨ref, enc, .full (fun i => (children i).cached) { flags with hash := ref, dirty := flags.dirty && !db }⟩

/-- `hashRoot`; a forced reference is a hash. -/
def Trie.hashRoot (t : Trie) (cachelimit : UInt16) (db : Bool) : EStateM PutError Writer (Hash × Node) :=
  match t.root with
  | .nil => pure (emptyRoot, .nil)
  | root => do
    let r ← Node.hashWith ⟨t.cachegen, cachelimit⟩ db true root
    pure (r.hash.getD (.zero 32), r.cached)

/-- A writer that is not asked. -/
def Writer.idle : Writer := ⟨fun _ => none, fun _ => false, 0⟩

/-- `Hash`, with the trie that it leaves. -/
def Trie.hashNow (t : Trie) (cachelimit : UInt16) : Hash × Trie :=
  match t.hashRoot cachelimit false .idle with
  | .ok (hash, cached) _ => (hash, { t with root := cached })
  | .error _ _ => (.zero 32, t)

/-- `CommitTo` with a writer: the root or the error, the trie and what has been written. -/
def Trie.commitWith (t : Trie) (cachelimit : UInt16) (w : Writer) : Except PutError Hash × Trie × Writer :=
  match t.hashRoot cachelimit true w with
  | .ok (hash, cached) w' => (.ok hash, { t with root := cached, cachegen := t.cachegen + 1 }, w')
  | .error e w' => (.error e, t, w')

end

end Bgmchain
