import Bgmchain.Trie.Session

/-! # The root hash stands for the entries

Two tries that were reached from the empty trie, in whatever way, have one hash exactly
if they hold the same entries. The databases that the tries read from and are committed
to may hold any nodes, or none: a walk that misses one fails and changes nothing. The
proof follows each trie over an ideal database, which knows every string that is hashed. -/
namespace Bgmchain
open Common Lib Patricia Growing

section
variable [Crypto]

/-- Everything that can happen to a trie, with the map from whole keys of what was
written. Steps that fail change nothing and are left out. -/
inductive Reaches (P : Set Bytes) : Trie → (Bytes → Option Bytes) → Prop
  | empty {disk : Disk} (pre : Bytes) : Keyed P disk.get → Reaches P (.empty disk.nodes pre) fun _ => none
  | database {t M} {disk : Disk} : Reaches P t M → Keyed P disk.get → Reaches P { t with db := disk.nodes } M
  | update {t t' M} (k v) : Reaches P t M → v ≠ [] → Involved P (Function.update M (t.prefix_ ++ k) (some v)) →
      t.tryUpdate k v = .ok t' → Reaches P t' (Function.update M (t.prefix_ ++ k) (some v))
  | updateEmpty {t t' M} (k) : Reaches P t M → Involved P (Function.update M (t.prefix_ ++ k) none) →
      t.tryUpdate k [] = .ok t' → Reaches P t' (Function.update M (t.prefix_ ++ k) none)
  | delete {t t' M} (k) : Reaches P t M → Involved P (Function.update M (t.prefix_ ++ k) none) →
      t.tryDelete k = .ok t' → Reaches P t' (Function.update M (t.prefix_ ++ k) none)
  | get {t M} (k) : Reaches P t M → Reaches P (t.tryGet k).2 M
  | hash {t M} (limit) : Reaches P t M → Reaches P (t.hashNow limit).2 M
  | commit {t M} (limit w) : Reaches P t M → Reaches P (t.commitWith limit w).2.1 M

variable {P : Set Bytes} {t : Trie} {M : Bytes → Option Bytes}

/-! ## The invariant -/

/-- Over the ideal database the trie stands for the tree of its map. -/
structure Trie.Stems (P : Set Bytes) (t : Trie) (M : Bytes → Option Bytes) : Prop where
  db : ∃ disk : Disk, t.db = disk.nodes ∧ Keyed P disk.get
  shape : ∃ bound tree, Shape P (ideal P) bound t.root M tree

namespace Trie.Stems

theorem setRoot (h : t.Stems P M) {root : Node} {M' : Bytes → Option Bytes} {bound : Nat} {tree : TrieTree}
    (hs : Shape P (ideal P) bound root M' tree) (gen : UInt16) : Stems P { t with root := root, cachegen := gen } M' :=
  ⟨h.db, bound, tree, hs⟩

section
variable (hP : NoCollision P) (h : t.Stems P M)
include hP h

theorem tryGet (k : Bytes) : (t.tryGet k).2.Stems P M := by
  obtain ⟨disk, hdb, hkeyed⟩ := h.db
  obtain ⟨bound, tree, hs⟩ := h.shape
  unfold Trie.tryGet
  cases hget : Node.tryGet t.db t.cachegen (t.root.fuel t.db) t.root [] (keybytesToHex (t.prefix_ ++ k)) with
  | error e => exact h
  | ok r =>
    obtain ⟨value, root, resolved⟩ := r
    have hsame : Shape P (ideal P) bound root M tree := by
      obtain ⟨root', r', hideal, hs'⟩ := hs.tryGet t.cachegen (t.prefix_ ++ k)
        (Nat.le_max_left (t.root.fuel (.ofStore (ideal P) bound)) (t.root.fuel t.db))
      rw [Node.tryGet_mono (hdb ▸ hkeyed.load_ideal hP bound) (Nat.le_max_right _ _) hget] at hideal
      cases hideal
      exact hs'
    cases resolved with
    | true => exact h.setRoot hsame t.cachegen
    | false => exact h

theorem put {k : Bytes} {o : Option Bytes} {d : Bool} {root : Node} (ho : o ≠ some [])
    (hM : Involved P (Function.update M (t.prefix_ ++ k) o))
    (hput : Node.put t.db t.cachegen (t.root.fuel t.db) t.root (keybytesToHex (t.prefix_ ++ k)) o = .ok (d, root)) :
    Stems P { t with root := root } (Function.update M (t.prefix_ ++ k) o) := by
  obtain ⟨disk, hdb, hkeyed⟩ := h.db
  obtain ⟨bound, tree, hs⟩ := h.shape
  obtain ⟨d', root', tree', hideal, hs'⟩ := hs.put t.cachegen (t.prefix_ ++ k) ho hM
    (Nat.le_max_left (t.root.fuel (.ofStore (ideal P) bound)) (t.root.fuel t.db))
  rw [Node.put_mono (hdb ▸ hkeyed.load_ideal hP bound) (Nat.le_max_right _ _) o hput] at hideal
  cases hideal
  exact h.setRoot hs' t.cachegen

end

/-- A commit to any database leaves a root that stands for the tree. -/
theorem commitWith (hP : Distinct P) (h : t.Stems P M) (limit : UInt16) (w : Writer) :
    (t.commitWith limit w).2.1.Stems P M := by
  obtain ⟨bound, tree, hs⟩ := h.shape
  have hblind : Blind (t.hashRoot limit true) := by
    unfold Trie.hashRoot
    split
    · exact .pure _
    · exact .bind (Node.blind_hashWith _ _ _ true) fun _ => .pure _
  unfold Trie.commitWith
  cases hr : t.hashRoot limit true w with
  | error e w' => exact h
  | ok r w' =>
    -- the same writes, over the ideal database
    obtain ⟨get', hover⟩ := hblind w (ideal P)
    rw [hr] at hover
    have hgrows := Shape.hashRoot_grows hP (w.over (ideal P)) true limit
      (hs.mono (fun _ _ hbs => hbs) (Nat.le_max_left bound (size tree))) fun _ => Nat.le_max_right _ _
    obtain ⟨_, ⟨hkeyed, _⟩, _, hs', _⟩ := hgrows.ok ⟨keyed_ideal, le_rfl⟩ hover
    exact h.setRoot (hs'.mono (fun _ _ hbs => hkeyed.le_ideal hP.free hbs) le_rfl) (t.cachegen + 1)

theorem hashNow (hP : Distinct P) (h : t.Stems P M) (limit : UInt16) : (t.hashNow limit).2.Stems P M ∧
      ∃ bound tree, (t.hashNow limit).1 = treeHash tree ∧ Shape P (ideal P) bound t.root M tree := by
  obtain ⟨bound, tree, hs⟩ := h.shape
  obtain ⟨root, hr, hs'⟩ := hs.hashNow hP keyed_ideal limit
  rw [hr]
  exact ⟨h.setRoot hs' t.cachegen, bound, tree, rfl, hs⟩

end Trie.Stems

theorem Reaches.stems (hP : Distinct P) (h : Reaches P t M) : t.Stems P M := by
  induction h with
  | empty pre hdisk => exact ⟨⟨_, rfl, hdisk⟩, 0, .nil, .nil, .nil, represents_nil, .inl rfl⟩
  | database _ hdisk ih => exact ⟨⟨_, rfl, hdisk⟩, ih.shape⟩
  | update k v _ hv hM ht ih =>
    unfold Trie.tryUpdate at ht
    rw [if_pos (by simpa using hv)] at ht
    obtain ⟨⟨d, root⟩, hinsert, hret⟩ := Lib.Hoare.except_bind_ok_iff.mp ht
    cases hret
    exact ih.put hP.free (by simpa using hv) hM hinsert
  | updateEmpty k _ hM ht ih | delete k _ hM ht ih =>
    obtain ⟨⟨d, root⟩, hdelete, hret⟩ := Lib.Hoare.except_bind_ok_iff.mp ht
    cases hret
    exact ih.put hP.free nofun hM hdelete
  | get k _ ih => exact ih.tryGet hP.free k
  | hash limit _ ih => exact (ih.hashNow hP limit).1
  | commit limit w _ ih => exact ih.commitWith hP limit w

/-- **The root hash is authentic.** Two tries have one hash exactly if they hold the same
entries under whole keys. Neither the order of the writes, nor keys that were deleted,
nor hashing and committing in between play a part. -/
theorem Reaches.hash_eq_iff (hP : Distinct P) (hempty : Crypto.keccak256 (Rlp.encodeString []) = emptyRoot)
    (hnil : Rlp.encodeString [] ∈ P) {t' : Trie} {M' : Bytes → Option Bytes} (h : Reaches P t M) (h' : Reaches P t' M')
    (limit limit' : UInt16) : (t.hashNow limit).1 = (t'.hashNow limit').1 ↔ M = M' := by
  obtain ⟨_, bound, tree, hhash, hs⟩ := (h.stems hP).hashNow hP limit
  obtain ⟨_, bound', tree', hhash', hs'⟩ := (h'.stems hP).hashNow hP limit'
  rw [hhash, hhash']
  constructor
  · intro heq
    have hknown : ∀ {s : TrieTree}, s = .nil ∨ Known P true s → Inner s →
        treeEncoding s ∈ P ∧ ∀ bs ∈ treePreimages s, bs ∈ P := by
      intro s hk hi
      have hk := hk.resolve_left hi.ne_nil
      exact ⟨hk.2 (.inl rfl), hk.1⟩
    have htree := treeHash_inj hP hempty hnil hs.wf hs'.wf hs.stands.valued hs'.stands.valued (hknown hs.known)
      (hknown hs'.known) heq
    funext k
    rw [← hs.represents.values, ← hs'.represents.values, htree]
  · intro hM
    subst hM
    rw [hs.represents.unique hs'.represents hs.wf hs'.wf]

end

namespace OneEntry

/-- A trie with one entry, with and without a commit, beside the empty trie. -/
theorem committed_entry_hash :
    let t := Trie.empty disk.nodes []
    ((((t.update [1] [2]).commitWith 0 .idle).2.1.hashNow 0).1 = ((t.update [1] [2]).hashNow 3).1 ↔
      (Function.update (fun _ => none) [1] (some [2]) : Bytes → Option Bytes) =
        Function.update (fun _ => none) [1] (some [2])) ∧
    (((t.update [1] [2]).hashNow 0).1 = (t.hashNow 0).1 ↔
      (Function.update (fun _ => none) [1] (some [2]) : Bytes → Option Bytes) = fun _ => none) := by
  have hstart : Reaches {bs | bs ∈ strings} (.empty disk.nodes []) fun _ => none := .empty [] keyed_disk
  have hone : Reaches {bs | bs ∈ strings} ((Trie.empty disk.nodes []).update [1] [2])
      (Function.update (fun _ => none) [1] (some [2])) :=
    .update [1] [2] hstart (List.cons_ne_nil _ _) (involved_short known) rfl
  have hP := addressed.toDistinct
  exact ⟨Reaches.hash_eq_iff hP rfl addressed.empty (.commit 0 .idle hone) hone 0 3,
    Reaches.hash_eq_iff hP rfl addressed.empty hone hstart 0 0⟩

end OneEntry

end Bgmchain
