import Bgmchain.Common.Types
import Bgmchain.P2p.Table

/-! # The buckets of the discovery table

`p2p/discover/table.go`: the buckets change under the lock of the table. `add` lets go of it
while it pings the oldest entry of a full bucket, so it is two sections here, and the table
is a state that goroutines change section by section, in any order. -/
namespace Bgmchain.P2p
open Common Function List

abbrev NodeID := FixedBytes 64

/-- A pointer to a node, with the fields that do not change. -/
structure Node where
  ref : Nat
  id : NodeID
  sha : Hash
deriving DecidableEq

def bucketSize : Nat := 16
def hashBits : Nat := 256
def nBuckets : Nat := hashBits + 1

/-- The table `lzcount` of the leading zeros of a byte. -/
def lzcount (x : UInt8) : Nat := 8 - x.toNat.size

/-- The loop of `logdist`. -/
def leadingZeros : Bytes → Bytes → Nat
  | x :: a, y :: b => if x ^^^ y = 0 then 8 + leadingZeros a b else lzcount (x ^^^ y)
  | _, _ => 0

def logdist (a b : Hash) : Nat := hashBits - leadingZeros a.bytes b.bytes

/-! ## The entries of a bucket -/

/-- The entry with the id of a node goes. `none`, here and below, where there is nothing to
do. -/
def remove (n : Node) (entries : List Node) : Option (List Node) :=
  (entries.findIdx? fun e => e.id = n.id).map entries.eraseIdx

def bump (n : Node) (entries : List Node) : Option (List Node) := (remove n entries).map (n :: ·)

def replace (n : Node) (last : Option Node) (entries : List Node) : Option (List Node) :=
  if (remove n entries).isSome then none
  else if entries.length = bucketSize ∧ last.all fun l => entries[bucketSize - 1]?.map (·.id) ≠ some l.id then none
  else some (n :: if entries.length < bucketSize then entries else entries.dropLast)

/-- One turn of the loop of `stuff`, for a node other than `me`. -/
def stuffEntry (n : Node) (entries : List Node) : Option (List Node) :=
  if (remove n entries).isSome then none
  else if entries.length < bucketSize then some (entries ++ [n]) else none

/-! ## The table -/

/-- The index of a node's bucket in the table of `me`. -/
def place (me n : Node) : Fin nBuckets := ⟨logdist me.sha n.sha, Nat.lt_succ_of_le (Nat.sub_le _ _)⟩

/-- What the lock protects, and the calls of `add` that wait for a pong: the new node and the
oldest of its bucket. -/
structure Kademlia (me : Node) where
  buckets : Fin nBuckets → List Node
  contested : Node → Bool
  pinging : List (Node × Node)

variable {me : Node}

namespace Kademlia

def new (me : Node) : Kademlia me := ⟨fun _ => [], fun _ => false, []⟩

/-- The bucket of a node is changed. -/
def change (tab : Kademlia me) (n : Node) (f : List Node → Option (List Node)) : Kademlia me :=
  match f (tab.buckets (place me n)) with
  | none => tab
  | some entries => { tab with buckets := update tab.buckets (place me n) entries }

/-- `add` until it returns or pings. -/
def add (tab : Kademlia me) (n : Node) : Kademlia me :=
  let entries := tab.buckets (place me n)
  if (bump n entries).isSome then tab.change n (bump n)
  else if entries.length = bucketSize then
    match entries[bucketSize - 1]? with
    | none => tab
    | some oldest =>
      if tab.contested oldest then tab
      else { tab with contested := update tab.contested oldest true, pinging := (n, oldest) :: tab.pinging }
  else tab.change n (replace n none)

/-- The rest of `add` for one of the calls that wait, after the ping. -/
def pong (tab : Kademlia me) (k : Nat) (err : Bool) : Kademlia me :=
  match tab.pinging[k]? with
  | none => tab
  | some (n, oldest) =>
    let tab : Kademlia me :=
      ⟨tab.buckets, update tab.contested oldest false, tab.pinging.eraseIdx k⟩
    if err then tab.change n (replace n (some oldest)) else tab

def stuff (tab : Kademlia me) (nodes : List Node) : Kademlia me :=
  nodes.foldl (fun tab n => if n.id = me.id then tab else tab.change n (stuffEntry n)) tab

def delete (tab : Kademlia me) (n : Node) : Kademlia me := tab.change n (remove n)

end Kademlia

/-- The node that `bond` adds. `known` is the one in the database, with its failures and
whether its last pong is too old, and `w` the one that a successful exchange of pings makes. -/
def bond (me : Node) (id : NodeID) (known : Option {n : Node // n.id = id}) (fails : Nat) (old : Bool)
    (w : Option {n : Node // n.id = id}) : Option Node :=
  if id = me.id then none
  else (if known.isNone ∨ fails > 0 ∨ old then w.or known else known).map (·.val)

/-- What a goroutine does while it holds the lock. -/
inductive Section where
  | bond (id : NodeID) (known : Option {n : Node // n.id = id}) (fails : Nat) (old : Bool)
    (w : Option {n : Node // n.id = id})
  | pong (k : Nat) (err : Bool)
  | stuff (nodes : List Node)
  | delete (n : Node)

def Kademlia.step (tab : Kademlia me) : Section → Kademlia me
  | .bond id known fails old w => (bond me id known fails old w).elim tab tab.add
  | .pong k err => tab.pong k err
  | .stuff nodes => tab.stuff nodes
  | .delete n => tab.delete n

/-! ## What holds whenever the lock is free -/

/-- The entries that the bucket with an index may have. -/
structure Bucketed (me : Node) (i : Fin nBuckets) (entries : List Node) : Prop where
  size : entries.length ≤ bucketSize
  distinct : (entries.map (·.id)).Nodup
  near : ∀ n ∈ entries, place me n = i ∧ n.id ≠ me.id

variable {i : Fin nBuckets} {entries entries' : List Node} {n : Node} {k : Nat}

theorem remove_none (h : ¬ (remove n entries).isSome) : n.id ∉ entries.map (·.id) := by
  rw [remove, Option.isSome_map, findIdx?_isSome, any_eq_true] at h
  intro hm
  obtain ⟨e, he, heq⟩ := mem_map.1 hm
  exact h ⟨e, he, decide_eq_true heq⟩

namespace Bucketed

theorem sublist (h : Bucketed me i entries) (hs : entries' <+ entries) : Bucketed me i entries' :=
  ⟨Nat.le_trans hs.length_le h.size, h.distinct.sublist (hs.map _), fun n hn => h.near n (hs.subset hn)⟩

/-- A node of the bucket enters it, at some place. -/
theorem enter (h : Bucketed me (place me n) entries) (hn : n.id ≠ me.id) (hnew : n.id ∉ entries.map (·.id))
    (hlen : entries.length < bucketSize) (hp : entries' ~ n :: entries) : Bucketed me (place me n) entries' := by
  refine ⟨hp.length_eq ▸ hlen, (hp.map _).nodup_iff.2 (nodup_cons.2 ⟨hnew, h.distinct⟩), fun m hm => ?_⟩
  rcases mem_cons.1 (hp.subset hm) with rfl | hm
  · exact ⟨rfl, hn⟩
  · exact h.near m hm

theorem remove (h : Bucketed me i entries) (hr : remove n entries = some entries') :
    Bucketed me i entries' ∧ n.id ∉ entries'.map (·.id) ∧ entries'.length < bucketSize := by
  obtain ⟨k, hk, rfl⟩ := Option.map_eq_some_iff.1 hr
  obtain ⟨hlt, hid, -⟩ := findIdx?_eq_some_iff_getElem.1 hk
  have hperm := (getElem_cons_eraseIdx_perm hlt).map (·.id)
  rw [map_cons, of_decide_eq_true hid] at hperm
  refine ⟨h.sublist (eraseIdx_sublist _ _), (nodup_cons.1 (hperm.nodup_iff.2 h.distinct)).1, ?_⟩
  have := h.size
  rw [length_eraseIdx_of_lt hlt]
  omega

section
variable (h : Bucketed me (place me n) entries) (hn : n.id ≠ me.id)
include h hn

theorem bump (hb : bump n entries = some entries') : Bucketed me (place me n) entries' := by
  obtain ⟨rest, hr, rfl⟩ := Option.map_eq_some_iff.1 hb
  obtain ⟨hrest, hnew, hlen⟩ := h.remove hr
  exact hrest.enter hn hnew hlen (.refl _)

theorem replace {last : Option Node} (hr : replace n last entries = some entries') :
    Bucketed me (place me n) entries' := by
  unfold P2p.replace at hr
  split at hr
  · cases hr
  next hnew =>
    split at hr
    · cases hr
    · cases hr
      split
      next hlen => exact h.enter hn (remove_none hnew) hlen (.refl _)
      next hlen =>
        have hsub := dropLast_sublist entries
        refine (h.sublist hsub).enter hn (fun hm => remove_none hnew ((hsub.map _).subset hm)) ?_ (.refl _)
        have := h.size
        rw [length_dropLast]
        unfold bucketSize at *
        omega

theorem stuffEntry (hs : stuffEntry n entries = some entries') : Bucketed me (place me n) entries' := by
  unfold P2p.stuffEntry at hs
  split at hs
  · cases hs
  next hnew =>
    split at hs
    next hlen =>
      cases hs
      exact h.enter hn (remove_none hnew) hlen (perm_append_singleton _ _)
    · cases hs

end

end Bucketed

/-- The invariant of the table between two sections. -/
structure Kademlia.Sound (tab : Kademlia me) : Prop where
  bucketed : ∀ i, Bucketed me i (tab.buckets i)
  pinging : ∀ p ∈ tab.pinging, p.1.id ≠ me.id

namespace Kademlia.Sound

variable {tab : Kademlia me} (h : tab.Sound)
include h

theorem change {f : List Node → Option (List Node)}
    (hf : ∀ {entries entries'}, Bucketed me (place me n) entries → f entries = some entries' →
      Bucketed me (place me n) entries') : (tab.change n f).Sound := by
  unfold Kademlia.change
  split
  · exact h
  next entries he =>
    refine ⟨fun j => ?_, h.pinging⟩
    by_cases hj : j = place me n
    · subst hj
      simpa using hf (h.bucketed _) he
    · simpa [hj] using h.bucketed j

theorem add (hn : n.id ≠ me.id) : (tab.add n).Sound := by
  unfold Kademlia.add
  dsimp only
  split
  · exact h.change fun hb => hb.bump hn
  · split
    · split
      · exact h
      · split
        · exact h
        · exact ⟨h.bucketed, forall_mem_cons.2 ⟨hn, h.pinging⟩⟩
    · exact h.change fun hb => hb.replace hn

theorem pong (err : Bool) : (tab.pong k err).Sound := by
  unfold Kademlia.pong
  split
  · exact h
  next n oldest hk =>
    -- whatever the others have made of the bucket in the meantime
    have hwait : Sound (⟨tab.buckets, update tab.contested oldest false, tab.pinging.eraseIdx k⟩ : Kademlia me) :=
      ⟨h.bucketed, fun p hp => h.pinging p (mem_of_mem_eraseIdx hp)⟩
    dsimp only
    split
    · exact hwait.change fun hb => hb.replace (h.pinging _ (mem_of_getElem? hk))
    · exact hwait

theorem stuff (nodes : List Node) : (tab.stuff nodes).Sound := by
  refine foldlRecOn nodes _ h fun tab h n _ => ?_
  split
  · exact h
  next hn => exact h.change fun hb => hb.stuffEntry hn

theorem step (s : Section) : (tab.step s).Sound := by
  cases s with
  | bond id known fails old w =>
    show Sound ((bond me id known fails old w).elim tab tab.add)
    cases hb : bond me id known fails old w with
    | none => exact h
    | some n =>
      unfold bond at hb
      split at hb
      · cases hb
      next hid =>
        obtain ⟨m, -, rfl⟩ := Option.map_eq_some_iff.1 hb
        exact h.add fun hm => hid (m.property.symm.trans hm)
  | pong k err => exact h.pong err
  | stuff nodes => exact h.stuff nodes
  | delete n => exact h.change fun hb hr => (hb.remove hr).1

/-- The table that `ReadRandomNodes` reads. -/
def table : Table fun n => (place me n).val where
  buckets := ofFn tab.buckets
  bucket_eq := by
    intro i hi n hn
    rw [List.getElem_ofFn] at hn
    exact congrArg Fin.val ((h.bucketed _).near n hn).1
  nodup := by
    intro entries he
    obtain ⟨i, rfl⟩ := mem_ofFn.1 he
    exact (h.bucketed i).distinct.of_map

end Kademlia.Sound

/-- **The buckets are in order whenever the lock is free**, after any sections of any
goroutines. -/
theorem bucketed_run (me : Node) (run : List Section) (i : Fin nBuckets) :
    Bucketed me i ((run.foldl Kademlia.step (.new me)).buckets i) := by
  have hnew : (Kademlia.new me).Sound := ⟨fun _ => ⟨Nat.zero_le _, nodup_nil, nofun⟩, nofun⟩
  have hrun : (run.foldl Kademlia.step (.new me)).Sound := foldlRecOn run Kademlia.step hnew fun _ h s _ => h.step s
  exact hrun.bucketed i

end Bgmchain.P2p
