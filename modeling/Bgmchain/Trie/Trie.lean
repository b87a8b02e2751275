import Bgmchain.Trie.Encoding

/-! # Trie nodes and the operations on them

`trie/node.go` and the reading and writing half of `trie/trie.go`: branch and
edge nodes with their cache flags, values, and hash nodes that stand for a node
still in the database. Reading puts the nodes it had to resolve into the trie,
so it returns a trie as well. -/
namespace Bgmchain
open Common

/-- `nodeFlag` -/
structure NodeFlag where
  hash : Option Hash
  gen : UInt16
  dirty : Bool

/-- The `node` interface: `nil`, `*shortNode`, `*fullNode`, `hashNode`, `valueNode`. -/
inductive Node where
  | nil
  | short (key : List Nibble) (val : Node) (flags : NodeFlag)
  | full (children : Nibble → Node) (flags : NodeFlag)
  | hash (h : Hash)
  | value (v : Bytes)

def Node.isNil : Node → Bool
  | .nil => true
  | _ => false

/-- Not a hash node: what the database can hold under a hash, or what has been
read from it. -/
def Node.Resolved : Node → Prop
  | .hash _ => False
  | _ => True

/-- What a trie reads its nodes from. `load h gen` is `db.Get` followed by
`mustDecodeNode` with the trie's cache generation. `bound` is not in the source:
it limits the number of nodes of any one stored trie and so gives the loops
that follow hash nodes their fuel. -/
structure NodeDatabase where
  load : Hash → UInt16 → Option Node
  bound : Nat

inductive TrieError where
  | missingNode (nodeHash : Hash) (path : List Nibble)
  | invalidNode
  | indexOutOfRange
  | exhausted
deriving DecidableEq

structure Trie where
  root : Node
  db : NodeDatabase
  prefix_ : Bytes
  cachegen : UInt16

/-- An upper bound on the number of nodes below a node. -/
def Node.weight (db : NodeDatabase) : Node → Nat
  | .nil => 1
  | .value _ => 1
  | .hash _ => db.bound
  | .short _ val _ => val.weight db + 1
  | .full cs _ => ((List.finRange 17).map fun i => (cs i).weight db).sum + 1

/-- Steps that suffice to follow any path from a node: each level takes one, a
hash node above it another. -/
def Node.fuel (db : NodeDatabase) (n : Node) : Nat := 2 * n.weight db + 1

section Operations
variable (db : NodeDatabase) (gen : UInt16)

def NodeFlag.new : NodeFlag := { hash := none, gen := gen, dirty := true }

def resolveHash (h : Hash) (path : List Nibble) : Except TrieError Node :=
  match db.load h gen with
  | none => .error (.missingNode h path)
  | some n => .ok n

def Node.resolve (n : Node) (path : List Nibble) : Except TrieError Node :=
  match n with
  | .hash h => resolveHash db gen h path
  | n => .ok n

/-- `tryGet`, with the key split at `pos` into what has been walked and what is
left: the value, the node to put in place and whether a node was resolved. -/
def Node.tryGet : Nat → Node → List Nibble → List Nibble →
    Except TrieError (Option Bytes × Node × Bool)
  | 0, _, _, _ => .error .exhausted
  | _ + 1, .nil, _, _ => .ok (none, .nil, false)
  | _ + 1, .value v, _, _ => .ok (some v, .value v, false)
  | f + 1, .short k val flags, path, key =>
    if k <+: key then do
      let (v, newnode, didResolve) ← Node.tryGet f val (path ++ k) (key.drop k.length)
      if didResolve then .ok (v, .short k newnode { flags with gen := gen }, true)
      else .ok (v, .short k val flags, false)
    else .ok (none, .short k val flags, false)
  | _ + 1, .full _ _, _, [] => .error .indexOutOfRange
  | f + 1, .full cs flags, path, i :: key => do
    let (v, newnode, didResolve) ← Node.tryGet f (cs i) (path ++ [i]) key
    if didResolve then
      .ok (v, .full (Function.update cs i newnode) { flags with gen := gen }, true)
    else .ok (v, .full cs flags, false)
  | f + 1, .hash h, path, key => do
    let child ← resolveHash db gen h path
    let (v, newnode, _) ← Node.tryGet f child path key
    .ok (v, newnode, true)

/-- `insert` into an empty place: the value itself once the key is used up. -/
def Node.insertNil (key : List Nibble) (value : Node) : Node :=
  if key = [] then value else .short key value (.new gen)

/-- `insert`: whether the node changed, and the node to put in place. -/
def Node.insert : Nat → Node → List Nibble → List Nibble → Bytes → Except TrieError (Bool × Node)
  | 0, _, _, _, _ => .error .exhausted
  | _ + 1, .value old, _, [], v => .ok (old != v, .value v)
  | _ + 1, _, _, [], v => .ok (true, .value v)
  | _ + 1, .nil, _, i :: key, v => .ok (true, .short (i :: key) (.value v) (.new gen))
  | f + 1, .short k val flags, path, i :: key, v => do
    let matchlen := Lib.Patricia.prefixLen (i :: key) k
    -- the whole edge matches: insert below it
    if matchlen = k.length then
      let (dirty, nn) ← Node.insert f val (path ++ (i :: key).take matchlen)
        ((i :: key).drop matchlen) v
      if dirty then .ok (true, .short k nn (.new gen)) else .ok (false, .short k val flags)
    else
      -- branch out at the digit where they differ
      match k.drop matchlen, (i :: key).drop matchlen with
      | b :: kb, a :: ka =>
        let branch := Node.full (Function.update
          (Function.update (fun _ => .nil) b (Node.insertNil gen kb val))
          a (Node.insertNil gen ka (.value v))) (.new gen)
        if matchlen = 0 then .ok (true, branch)
        else .ok (true, .short ((i :: key).take matchlen) branch (.new gen))
      | _, _ => .error .indexOutOfRange
  | f + 1, .full cs flags, path, i :: key, v => do
    let (dirty, nn) ← Node.insert f (cs i) (path ++ [i]) key v
    if dirty then .ok (true, .full (Function.update cs i nn) (.new gen))
    else .ok (false, .full cs flags)
  | f + 1, .hash h, path, i :: key, v => do
    let rn ← resolveHash db gen h path
    let (dirty, nn) ← Node.insert f rn path (i :: key) v
    if dirty then .ok (true, nn) else .ok (false, rn)
  | _ + 1, .value _, _, _ :: _, _ => .error .invalidNode

/-- The indices of the children that are not `nil`. -/
def Node.occupied (cs : Nibble → Node) : List Nibble :=
  (List.finRange 17).filter fun i => !(cs i).isNil

/-- The end of `delete` on a branch: with one child left, the branch becomes an
edge to it, merged with the child's own edge. -/
def Node.collapse (cs : Nibble → Node) (path : List Nibble) : Except TrieError (Bool × Node) :=
  match Node.occupied cs with
  | [pos] =>
    if pos ≠ Fin.last 16 then do
      match ← (cs pos).resolve db gen path with
      | .short ck cval _ => .ok (true, .short (pos :: ck) cval (.new gen))
      | _ => .ok (true, .short [pos] (cs pos) (.new gen))
    else .ok (true, .short [pos] (cs pos) (.new gen))
  | _ => .ok (true, .full cs (.new gen))

/-- `delete`: whether the node changed, and the node to put in place. -/
def Node.delete : Nat → Node → List Nibble → List Nibble → Except TrieError (Bool × Node)
  | 0, _, _, _ => .error .exhausted
  | _ + 1, .nil, _, _ => .ok (false, .nil)
  | _ + 1, .value _, _, _ => .ok (true, .nil)
  | f + 1, .short k val flags, path, key => do
    let matchlen := Lib.Patricia.prefixLen key k
    if matchlen < k.length then .ok (false, .short k val flags)
    else if matchlen = key.length then .ok (true, .nil)
    else
      let (dirty, child) ← Node.delete f val (path ++ key.take k.length) (key.drop k.length)
      if dirty then
        match child with
        | .short ck cval _ => .ok (true, .short (k ++ ck) cval (.new gen))
        | child => .ok (true, .short k child (.new gen))
      else .ok (false, .short k val flags)
  | _ + 1, .full _ _, _, [] => .error .indexOutOfRange
  | f + 1, .full cs flags, path, i :: key => do
    let (dirty, nn) ← Node.delete f (cs i) (path ++ [i]) key
    if dirty then Node.collapse db gen (Function.update cs i nn) path
    else .ok (false, .full cs flags)
  | f + 1, .hash h, path, key => do
    let rn ← resolveHash db gen h path
    let (dirty, nn) ← Node.delete f rn path key
    if dirty then .ok (true, nn) else .ok (false, rn)

end Operations

/-! ## The exported operations -/

/-- `NewTrieWithPrefix` at the zero root. -/
def Trie.empty (db : NodeDatabase) (pre : Bytes) : Trie :=
  { root := .nil, db := db, prefix_ := pre, cachegen := 0 }

/-- `TryGet` -/
def Trie.tryGet (t : Trie) (key : Bytes) : Except TrieError (Option Bytes) × Trie :=
  match Node.tryGet t.db t.cachegen (t.root.fuel t.db) t.root []
      (keybytesToHex (t.prefix_ ++ key)) with
  | .error e => (.error e, t)
  | .ok (value, newroot, didResolve) =>
    (.ok value, if didResolve then { t with root := newroot } else t)

/-- `Get`: a missing node is logged and reads as no value. -/
def Trie.get (t : Trie) (key : Bytes) : Option Bytes × Trie :=
  match t.tryGet key with
  | (.ok value, t') => (value, t')
  | (.error _, t') => (none, t')

/-- `TryDelete` -/
def Trie.tryDelete (t : Trie) (key : Bytes) : Except TrieError Trie := do
  let (_, n) ← Node.delete t.db t.cachegen (t.root.fuel t.db) t.root []
    (keybytesToHex (t.prefix_ ++ key))
  .ok { t with root := n }

/-- `TryUpdate`: an empty value deletes. -/
def Trie.tryUpdate (t : Trie) (key value : Bytes) : Except TrieError Trie :=
  if value.length ≠ 0 then do
    let (_, n) ← Node.insert t.db t.cachegen (t.root.fuel t.db) t.root []
      (keybytesToHex (t.prefix_ ++ key)) value
    .ok { t with root := n }
  else t.tryDelete key

/-- `Update`: an error is logged and leaves the trie as it was. -/
def Trie.update (t : Trie) (key value : Bytes) : Trie :=
  match t.tryUpdate key value with
  | .ok t' => t'
  | .error _ => t

/-- `Delete` -/
def Trie.delete (t : Trie) (key : Bytes) : Trie :=
  match t.tryDelete key with
  | .ok t' => t'
  | .error _ => t

end Bgmchain
