import Bgmchain.Trie.Iterator
import Bgmchain.Trie.Session

/-! # What iterators tell of the node they are at

The accessors of `trie/iterator.go`, of the node iterator and of the prefix iterator around
it. The hash and the parent of a state are set when it is pushed. They follow from the
states below it, and are computed from them here. -/
namespace Bgmchain
open Common

/-- What the accessors return. A leaf key or blob that is missing is a panic. -/
structure NodeView where
  hash : Hash
  parent : Hash
  path : List Nibble
  leaf : Bool
  leafKey : Option Bytes
  leafBlob : Option Bytes
deriving DecidableEq

/-- The hash of a state for this node: `cache`, or what `resolve` replaces it by. -/
def Node.mark : Node → Hash
  | .hash h => h
  | .short _ _ flags | .full _ flags => flags.hash.getD (.zero 32)
  | _ => .zero 32

/-- The child that was pushed last. -/
def IteratorState.child (s : IteratorState) : Node :=
  match s.node with
  | .full cs _ => (List.finRange 17)[s.next - 1]?.elim .nil cs
  | .short _ val _ => val
  | _ => .nil

def hexToKeybytes (hex : List Nibble) : Option Bytes :=
  let hex := if hasTerm hex then hex.dropLast else hex
  if hex.length % 2 = 1 then none else some (decodeNibbles hex)

section
variable [Crypto]

namespace NodeIterator

/-- `hash` and `parent` of the state at the top. -/
def marks (t : Trie) : List IteratorState → Hash × Hash
  | [] => (.zero 32, .zero 32)
  | [_] => (if t.hash = emptyRoot then .zero 32 else t.hash, .zero 32)
  | _ :: parent :: rest =>
    let (hash, ancestor) := marks t (parent :: rest)
    (parent.child.mark, if hash = .zero 32 then ancestor else hash)

def view (t : Trie) (it : NodeIterator) : NodeView where
  hash := (marks t it.stack).1
  parent := (marks t it.stack).2
  path := it.path
  leaf := hasTerm it.path
  leafKey := it.leafBlob.bind fun _ => hexToKeybytes it.path
  leafBlob := it.leafBlob

def run (t : Trie) : NodeIterator → List Bool → NodeIterator := List.foldl fun it descend => (it.next t descend).2

end NodeIterator

structure PrefixIterator where
  prefix_ : List Nibble
  nodeIterator : NodeIterator

namespace PrefixIterator

def hasPrefix (it : PrefixIterator) : Bool := it.prefix_ <+: it.nodeIterator.path

/-- The accessors. `Parent` does not return what it asks for. -/
def view (t : Trie) (it : PrefixIterator) : NodeView :=
  if it.hasPrefix then { it.nodeIterator.view t with parent := .zero 32 }
  else ⟨.zero 32, .zero 32, [], false, some [], some []⟩

def next (t : Trie) (it : PrefixIterator) (descend : Bool) : Bool × PrefixIterator :=
  let (more, nodeIterator) := it.nodeIterator.next t descend
  let it := { it with nodeIterator }
  (more && it.hasPrefix, it)

/-- `newPrefixIterator` -/
def new (t : Trie) (pre : Bytes) : PrefixIterator := ⟨nibbles pre, .new t pre⟩

def run (t : Trie) : PrefixIterator → List Bool → PrefixIterator := List.foldl fun it descend => (it.next t descend).2

omit [Crypto] in
/-- The steps of a prefix iterator are those of its node iterator. -/
theorem run_eq (t : Trie) (it : PrefixIterator) (steps : List Bool) :
    it.run t steps = ⟨it.prefix_, it.nodeIterator.run t steps⟩ := by
  induction steps generalizing it with
  | nil => rfl
  | cons descend steps ih => exact ih _

end PrefixIterator
end

end Bgmchain
