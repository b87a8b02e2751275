import Bgmchain.Trie.Map

/-! # Trie iterators

`trie/iterator.go`: the node iterator with its stack of half-visited nodes, the
prefix iterator over it and the leaf iterator over either. An iterator keeps
the nodes it has pushed; the trie it was made for is passed at every step, as
the source holds a pointer to it, and is read again only while the stack is
empty. So writing to the trie between two steps does not change what the walk
still has to visit, which the loop of `KickoutCandidate` depends on.

The first test of both constructors, against the hash of the empty byte string,
is left out: no trie hashes to it, the empty one has `emptyRoot`. -/
namespace Bgmchain
open Common Lib.Patricia

/-- `nodeIteratorState`; `next` is the source's `index + 1`. The hashes it
carries for other users of the iterator are left out. -/
structure IteratorState where
  node : Node
  next : Nat
  pathlen : Nat

inductive IteratorError where
  | iteratorEnd
  | seekError (key : Bytes) (err : TrieError)
  | nodeError (err : TrieError)

/-- `nodeIterator`, the top of the stack first. `fuel` bounds its loops: a walk
meets every node of the trie at most once. -/
structure NodeIterator where
  stack : List IteratorState
  path : List Nibble
  err : Option IteratorError
  fuel : Nat

namespace NodeIterator

/-- `nextChild`: the state and path of the next child, and the parent with its
index moved there. -/
def nextChild (parent : IteratorState) (path : List Nibble) :
    Option (IteratorState × List Nibble × IteratorState) :=
  match parent.node with
  | .full cs _ =>
    match ((List.finRange 17).drop parent.next).find? fun i => !(cs i).isNil with
    | some i => some (⟨cs i, 0, path.length⟩, path ++ [i], { parent with next := i.val })
    | none => none
  | .short k val _ =>
    if parent.next = 0 then some (⟨val, 0, path.length⟩, path ++ k, parent) else none
  | _ => none

/-- The loop of `peek`: pop finished nodes until one has a child left. -/
def peekLoop (t : Trie) : List IteratorState → List Nibble →
    Except IteratorError (IteratorState × List Nibble) × List IteratorState × List Nibble
  | [], path => (.error .iteratorEnd, [], path)
  | parent :: rest, path =>
    match nextChild parent path with
    | some (state, cpath, parent') =>
      match state.node.resolve t.db t.cachegen cpath with
      | .ok n => (.ok ({ state with node := n }, cpath), parent' :: rest, path)
      | .error e => (.error (.nodeError e), parent' :: rest, path)
    | none => peekLoop t rest (path.take parent.pathlen)

/-- `peek`: the next node of the walk, not yet pushed. -/
def peek (t : Trie) (it : NodeIterator) (descend : Bool) :
    Except IteratorError (IteratorState × List Nibble) × NodeIterator :=
  match it.stack with
  | [] =>
    match t.root.resolve t.db t.cachegen [] with
    | .ok n => (.ok (⟨n, 0, 0⟩, []), it)
    | .error e => (.error (.nodeError e), it)
  | top :: rest =>
    let (stack, path) := if descend then (top :: rest, it.path)
      else (rest, it.path.take top.pathlen)
    let (res, stack', path') := peekLoop t stack path
    (res, { it with stack := stack', path := path' })

/-- Move the index of the top node past the child that is being pushed. -/
def bump : List IteratorState → List IteratorState
  | [] => []
  | parent :: rest => { parent with next := parent.next + 1 } :: rest

def push (it : NodeIterator) (state : IteratorState) (path : List Nibble) : NodeIterator :=
  { it with stack := state :: bump it.stack, path := path }

/-- `seek`: move to just before the first node whose path is not smaller than
the key's. Subtrees whose path is not a prefix of it are skipped. -/
def seek (t : Trie) (pre : Bytes) : Nat → NodeIterator → NodeIterator × Option IteratorError
  | 0, it => (it, some (.seekError pre .exhausted))
  | f + 1, it =>
    match peek t it (it.path <+: nibbles pre) with
    | (.error .iteratorEnd, it') => (it', some .iteratorEnd)
    | (.error (.nodeError e), it') => (it', some (.seekError pre e))
    | (.error e, it') => (it', some e)
    | (.ok (state, path), it') =>
      if path < nibbles pre then seek t pre f (it'.push state path) else (it', none)

/-- `newNodeIterator` -/
def new (t : Trie) (start : Bytes) : NodeIterator :=
  let fuel := t.root.weight t.db + 2
  let (it, err) := seek t start fuel { stack := [], path := [], err := none, fuel := fuel }
  { it with err := err }

/-- The part of `Next` after a pending seek has been made up for. -/
def advance (t : Trie) (it : NodeIterator) (descend : Bool) : Bool × NodeIterator :=
  match peek t it descend with
  | (.error e, it') => (false, { it' with err := some e })
  | (.ok (state, path), it') => (true, { it'.push state path with err := none })

/-- `Next` -/
def next (t : Trie) (it : NodeIterator) (descend : Bool) : Bool × NodeIterator :=
  match it.err with
  | some .iteratorEnd => (false, it)
  | some (.seekError key _) =>
    match seek t key it.fuel it with
    | (it', none) => advance t { it' with err := none } descend
    | (it', some e) => (false, { it' with err := some e })
  | _ => advance t it descend

/-- `LeafBlob`, which panics when the iterator is not at a value. -/
def leafBlob (it : NodeIterator) : Option Bytes :=
  match it.stack with
  | ⟨.value v, _, _⟩ :: _ => some v
  | _ => none

end NodeIterator

/-- `Iterator` over a node iterator, restricted to a prefix when it is a
`prefixIterator`. Of `Key` and `Value` only the value is used. -/
structure LeafIterator where
  nodeIt : NodeIterator
  within : List Nibble

/-- What one call of `Iterator.Next` yields. -/
inductive IteratorStep where
  | item (value : Bytes)
  | done
  | panicked
deriving DecidableEq

namespace LeafIterator

/-- `NewIterator(t.NodeIterator(start))` -/
def new (t : Trie) (start : Bytes) : LeafIterator :=
  { nodeIt := .new t (t.prefix_ ++ start), within := [] }

/-- `NewIterator(t.PrefixIterator(prefix))` -/
def newPrefix (t : Trie) (pre : Bytes) : LeafIterator :=
  { nodeIt := .new t (t.prefix_ ++ pre), within := nibbles (t.prefix_ ++ pre) }

/-- `Next` of the node iterator, which a prefix iterator ends at the first path
outside its prefix. -/
def nodeNext (t : Trie) (it : LeafIterator) : Bool × LeafIterator :=
  let (more, nodeIt) := it.nodeIt.next t true
  (more && it.within <+: nodeIt.path, { it with nodeIt := nodeIt })

def nextLoop (t : Trie) : Nat → LeafIterator → IteratorStep × LeafIterator
  | 0, it => (.panicked, it)
  | f + 1, it =>
    match nodeNext t it with
    | (false, it') => (.done, it')
    | (true, it') =>
      if hasTerm it'.nodeIt.path then
        match it'.nodeIt.leafBlob with
        | some v => (.item v, it')
        | none => (.panicked, it')
      else nextLoop t f it'

/-- `Next` of the leaf iterator. -/
def next (t : Trie) (it : LeafIterator) : IteratorStep × LeafIterator :=
  nextLoop t it.nodeIt.fuel it

/-- `for iter.Next() { body }` where the body may change the trie the iterator
was made for and may leave the enclosing function. -/
def each {σ ε : Type} (trieOf : σ → Trie) (panicked : σ → ε) (body : Bytes → σ → Except ε σ) :
    Nat → LeafIterator → σ → Except ε σ
  | 0, _, s => .error (panicked s)
  | f + 1, it, s =>
    match next (trieOf s) it with
    | (.item v, it') =>
      match body v s with
      | .ok s' => each trieOf panicked body f it' s'
      | .error e => .error e
    | (.done, _) => .ok s
    | (.panicked, _) => .error (panicked s)

/-- The values an iterator yields to its end. -/
def toList (t : Trie) (it : LeafIterator) : List Bytes :=
  match it.each (fun _ => t) id (fun v vs => Except.ok (vs ++ [v])) it.nodeIt.fuel [] with
  | .ok vs => vs
  | .error vs => vs

end LeafIterator

end Bgmchain
