import Bgmchain.Trie.Commit

/-! # A trie in use over its database

A session is a trie with the database that it reads from and commits to. Writes, reads,
hashing, commits with any cache limit, commits that the database breaks off, and
opening the trie again at a root that was committed follow each other in any order.
Throughout, the trie reads what was written last, and every committed root can be opened. -/
namespace Bgmchain
open Common Lib Patricia Growing Crypto

/-! ## Maps and their trees -/

/-- A tree holds a map from whole keys, with the prefix of the trie. -/
structure Represents (tree : TrieTree) (M : Bytes → Option Bytes) : Prop where
  keys : ∀ path v, lookup tree path = some v → ∃ k, path = keybytesToHex k
  values : ∀ k, lookup tree (keybytesToHex k) = M k

/-- A map has one tree. -/
theorem Represents.unique {t t' : TrieTree} {M : Bytes → Option Bytes} (h : Represents t M) (h' : Represents t' M)
    (hw : WF t) (hw' : WF t') : t = t' := by
  refine hw.ext_lookup hw' fun key _ => ?_
  by_cases hkey : ∃ k, key = keybytesToHex k
  · obtain ⟨k, rfl⟩ := hkey
    rw [h.values, h'.values]
  · have hnone : ∀ {s : TrieTree}, Represents s M → lookup s key = none := by
      intro s hs
      cases hl : lookup s key with
      | none => rfl
      | some v => exact absurd (hs.keys key v hl) hkey
    rw [hnone h, hnone h']

theorem represents_nil : Represents .nil fun _ => none :=
  ⟨nofun, fun _ => rfl⟩

/-- The tree of a map with one entry. -/
theorem represents_short (k v : Bytes) :
    Represents (.short (keybytesToHex k) (.leaf v)) (Function.update (fun _ => none) k (some v)) := by
  have hlookup : ∀ path, lookup (.short (keybytesToHex k) (.leaf v) : TrieTree) path =
      if keybytesToHex k = path then some v else none := by
    intro path
    rw [lookup]
    by_cases hpre : keybytesToHex k <+: path
    · obtain ⟨rest, rfl⟩ := hpre
      rw [if_pos (List.prefix_append _ _), List.drop_left, lookup]
      cases rest with
      | nil | cons i rest => simp
    · rw [if_neg hpre, if_neg fun h => hpre (by rw [h])]
  constructor
  · intro path w hw
    rw [hlookup] at hw
    split at hw
    next heq =>
      exact ⟨k, heq.symm⟩
    · cases hw
  · intro k'
    rw [hlookup]
    by_cases hk : k = k'
    · rw [hk, if_pos rfl, Function.update_self]
    · rw [if_neg fun heq => hk (keybytesToHex_inj.mp heq), Function.update_of_ne fun heq => hk heq.symm]

section
variable [Crypto]

/-- All that is hashed for a map is in `P`. -/
def Involved (P : Set Bytes) (M : Bytes → Option Bytes) : Prop :=
  ∀ tree, WF tree → Represents tree M → tree = .nil ∨ Known P true tree

theorem involved_short {P : Set Bytes} {k v : Bytes} (h : Known P true (.short (keybytesToHex k) (.leaf v))) :
    Involved P (Function.update (fun _ => none) k (some v)) := by
  intro tree hw hrep
  rw [hrep.unique (represents_short k v) hw (.leaf (terminated_keybytesToHex k))]
  exact .inr h

/-- `Hash` never fails. -/
theorem Trie.exists_pure_hashRoot (t : Trie) (limit : UInt16) : ∃ r, t.hashRoot limit false = pure r := by
  unfold Trie.hashRoot
  split
  · exact ⟨_, rfl⟩
  · obtain ⟨r, hr⟩ := Node.exists_pure_hashWith ⟨t.cachegen, limit⟩ t.root true
    exact ⟨_, by rw [hr, pure_bind]⟩

variable {P : Set Bytes} {get : Hash → Option Bytes} {bound : Nat} {n : Node} {M : Bytes → Option Bytes}
  {tree : TrieTree}

theorem Stands.valued {b : Bool} {t : TrieTree} (h : Stands get bound b n t) : Valued t := by
  induction h with
  | nil => trivial
  | value hv => exact hv
  | short _ _ ih | full _ _ ih => exact ih
  | hash _ hs _ => exact hs.valued

/-- A root node that stands for the tree of a map. -/
structure Shape (P : Set Bytes) (get : Hash → Option Bytes) (bound : Nat) (n : Node) (M : Bytes → Option Bytes)
    (tree : TrieTree) : Prop where
  stands : Stands get bound true n tree
  wf : WF tree
  represents : Represents tree M
  known : tree = .nil ∨ Known P true tree

namespace Shape

theorem good (hP : Distinct P) (h : Shape P get bound n M tree) (hi : Inner tree) : Good tree :=
  ⟨h.wf, hi, h.stands.valued, (h.known.resolve_left hi.ne_nil).sized hP⟩

theorem mono {get' : Hash → Option Bytes} {bound' : Nat} (h : Shape P get bound n M tree)
    (hle : ∀ h bs, get h = some bs → get' h = some bs) (hb : bound ≤ bound') : Shape P get' bound' n M tree :=
  { h with stands := h.stands.mono hle hb }

section
variable (h : Shape P get bound n M tree) (gen : UInt16)
include h gen

theorem holds : (Trie.mk n (.ofStore get bound) [] gen).Holds M :=
  ⟨tree, h.stands.loads, h.wf, h.represents.keys, h.represents.values⟩

/-- Reading finds what the map holds. -/
theorem tryGet (key : Bytes) {f : Nat} (hf : n.fuel (.ofStore get bound) ≤ f) :
    ∃ n' r, Node.tryGet (.ofStore get bound) gen f n [] (keybytesToHex key) = .ok (M key, n', r) ∧
      Shape P get bound n' M tree := by
  obtain ⟨n', r, hget, _⟩ := h.stands.loads.tryGet gen (h.wf.fits (terminated_keybytesToHex key)) f []
    (h.stands.loads.need_le_fuel.trans hf)
  rw [h.represents.values] at hget
  exact ⟨n', r, hget, { h with stands := h.stands.tryGet hget }⟩

/-- Writing updates the map. -/
theorem put (key : Bytes) {o : Option Bytes} (ho : o ≠ some [])
    (hM : Involved P (Function.update M key o)) {f : Nat} (hf : n.fuel (.ofStore get bound) ≤ f) :
    ∃ d n' tree', Node.put (.ofStore get bound) gen f n (keybytesToHex key) o = .ok (d, n') ∧
      Shape P get bound n' (Function.update M key o) tree' := by
  have hshape {n' tree'} (hs : Stands get bound true n' tree') (hw : WF tree')
      (hrep : Represents tree' (Function.update M key o)) : Shape P get bound n' (Function.update M key o) tree' :=
    ⟨hs, hw, hrep, hM tree' hw hrep⟩
  cases o with
  | some v =>
    have hv : v ≠ [] := fun hv => ho (congrArg some hv)
    obtain ⟨t', hupdate, tree', hl, hw, hkeys, hvalues⟩ := (h.holds gen).tryUpdate key hv
    unfold Trie.tryUpdate at hupdate
    rw [if_pos (by simpa using hv)] at hupdate
    obtain ⟨⟨d, n'⟩, hinsert, hret⟩ := Lib.Hoare.except_bind_ok_iff.mp hupdate
    cases hret
    exact ⟨d, n', tree', Node.put_mono (fun _ _ hn => hn) hf (some v) hinsert,
      hshape (h.stands.insert hv hinsert hl) hw ⟨hkeys, hvalues⟩⟩
  | none =>
    obtain ⟨t', hdelete, tree', hl, hw, hkeys, hvalues⟩ := (h.holds gen).tryDelete key
    obtain ⟨⟨d, n'⟩, hnode, hret⟩ := Lib.Hoare.except_bind_ok_iff.mp hdelete
    cases hret
    exact ⟨d, n', tree', Node.put_mono (fun _ _ hn => hn) hf none hnode,
      hshape (h.stands.delete hnode hl) hw ⟨hkeys, hvalues⟩⟩

end

/-- What `hashRoot` returns, and what it leaves if it returns. -/
theorem hashRoot_grows (hP : Distinct P) {t : Trie} (w : Writer) (db : Bool) (limit : UInt16)
    (h : Shape P w.get bound t.root M tree) (hsize : db = true → size tree ≤ bound) :
    Grows (Intact P w) (t.hashRoot limit db) (fun r w' => r.1 = treeHash tree ∧
      Shape P w'.get bound r.2 M tree ∧ (db = true → tree = .nil ∨ Stored w'.get bound tree)) := by
  unfold Trie.hashRoot
  by_cases hnil : t.root = .nil
  · have hs := h.stands
    rw [hnil] at hs
    cases hs
    rw [hnil]
    exact .pure fun w' _ => ⟨rfl, { h with stands := .nil }, fun _ => .inl rfl⟩
  · have hi : Inner tree := by
      refine (wf_nil_or_inner h.wf).resolve_left fun hn => ?_
      subst hn
      have hs := h.stands
      cases hr : t.root with
      | nil => exact hnil hr
      | hash ref =>
        rw [hr] at hs
        cases hs with
        | hash _ hst _ => exact hst.inner
      | _ =>
        rw [hr] at hs
        cases hs
    have hg := h.good hP hi
    have hrun : Grows (Intact P w) (Node.hashWith ⟨t.cachegen, limit⟩ db true t.root >>= fun r =>
        pure (r.hash.getD (.zero 32), r.cached)) (fun r w' => r.1 = treeHash tree ∧
          Shape P w'.get bound r.2 M tree ∧ (db = true → tree = .nil ∨ Stored w'.get bound tree)) := by
      refine .bind (Node.hashWith_grows hP _ t.root h.stands (.inl hg) (h.known.resolve_left hi.ne_nil) hsize)
        fun r w1 _ hr => .pure fun w' hw' => ⟨?_, ?_, fun hdb => .inr ?_⟩
      · rw [hr.hash rfl, hi.treeHash_eq]
        rfl
      · exact { h with stands := (hr.mono hw'.2).stands }
      · have hr' := hr.mono hw'.2
        exact { hg with size := hsize hdb, own := hr'.own hdb hi (.inl rfl), below := hr'.below hdb }
    split
    next heq =>
      exact absurd heq hnil
    · exact hrun

/-- `Hash` gives the hash of the tree; the store plays no part in it. -/
theorem hashNow (hP : Distinct P) (hget : Keyed P get) {t : Trie} (limit : UInt16) (h : Shape P get bound t.root M tree) :
    ∃ root, t.hashNow limit = (treeHash tree, { t with root := root }) ∧ Shape P get bound root M tree := by
  obtain ⟨⟨hash, root⟩, hr⟩ := t.exists_pure_hashRoot limit
  have hgrows := hashRoot_grows hP (Writer.idle.over get) false limit h nofun
  rw [hr] at hgrows
  obtain ⟨_, _, hhash, hs, _⟩ := hgrows (Writer.idle.over get) ⟨hget, le_rfl⟩
  refine ⟨root, ?_, hs⟩
  unfold Trie.hashNow
  rw [hr, ← hhash]
  rfl

end Shape

end

/-! ## Sessions -/

section
variable [Crypto] {P : Set Bytes} {M : Bytes → Option Bytes}

/-- A database of encoded nodes. As for `NodeDatabase`, `bound` is not in the source. -/
structure Disk where
  get : Hash → Option Bytes
  bound : Nat

def Disk.nodes (d : Disk) : NodeDatabase := .ofStore d.get d.bound

structure Session where
  disk : Disk
  trie : Trie

namespace Session

/-- `TryUpdate`; a failure leaves the trie as it was. -/
def update (s : Session) (k v : Bytes) : Session := { s with trie := s.trie.update k v }

/-- `TryDelete` -/
def delete (s : Session) (k : Bytes) : Session := { s with trie := s.trie.delete k }

/-- `TryGet` -/
def get (s : Session) (k : Bytes) : Except TrieError (Option Bytes) × Session :=
  ((s.trie.tryGet k).1, { s with trie := (s.trie.tryGet k).2 })

/-- `Hash` -/
def hash (s : Session) (cachelimit : UInt16) : Hash × Session :=
  ((s.trie.hashNow cachelimit).1, { s with trie := (s.trie.hashNow cachelimit).2 })

/-- What the database can hold once the trie has been written to it. -/
def boundAfter (s : Session) : Nat := max s.disk.bound (s.trie.root.weight s.disk.nodes)

/-- `CommitTo` of the trie's own database, which refuses some of the writes. -/
def commit (s : Session) (cachelimit : UInt16) (fails : Nat → Bool) : Except PutError Hash × Session :=
  let (result, trie, w) := s.trie.commitWith cachelimit ⟨s.disk.get, fails, 0⟩
  let disk : Disk := ⟨w.get, s.boundAfter⟩
  (result, ⟨disk, { trie with db := disk.nodes }⟩)

/-- `New`, with the trie's prefix. -/
def reopen (s : Session) (root : Hash) : Except TrieError Session :=
  (Trie.new root s.trie.prefix_ s.disk.nodes).map fun t => { s with trie := t }

end Session

/-- Everything that can happen to a trie over a database, with the map of what was written
last under each whole key, and the roots that were committed with their maps. -/
inductive Runs (P : Set Bytes) (pre : Bytes) :
    Session → (Bytes → Option Bytes) → List (Hash × (Bytes → Option Bytes)) → Prop
  | start {disk} : Keyed P disk.get → Runs P pre ⟨disk, .empty disk.nodes pre⟩ (fun _ => none) []
  | update {s M c} (k v) : Runs P pre s M c → v ≠ [] → Involved P (Function.update M (pre ++ k) (some v)) →
      Runs P pre (s.update k v) (Function.update M (pre ++ k) (some v)) c
  | updateEmpty {s M c} (k) : Runs P pre s M c → Involved P (Function.update M (pre ++ k) none) →
      Runs P pre (s.update k []) (Function.update M (pre ++ k) none) c
  | delete {s M c} (k) : Runs P pre s M c → Involved P (Function.update M (pre ++ k) none) →
      Runs P pre (s.delete k) (Function.update M (pre ++ k) none) c
  | get {s M c} (k) : Runs P pre s M c → Runs P pre (s.get k).2 M c
  | hash {s M c} (limit) : Runs P pre s M c → Runs P pre (s.hash limit).2 M c
  | commit {s M c} (limit fails root) : Runs P pre s M c → (s.commit limit fails).1 = .ok root →
      Runs P pre (s.commit limit fails).2 M ((root, M) :: c)
  | refused {s M c} (limit fails e) : Runs P pre s M c → (s.commit limit fails).1 = .error e →
      Runs P pre (s.commit limit fails).2 M c
  | reopen {s s' M M' c} (root) : Runs P pre s M c → (root, M') ∈ c → s.reopen root = .ok s' → Runs P pre s' M' c

/-- What is assumed of Keccak256 on the strings that are hashed: it tells them apart, the
hash of the empty string is the root of the empty trie, and none is the zero hash. -/
structure Addressed (P : Set Bytes) : Prop extends Distinct P where
  empty : Rlp.encodeString [] ∈ P
  emptyRoot : keccak256 (Rlp.encodeString []) = emptyRoot
  zero : ∀ bs ∈ P, keccak256 bs ≠ .zero 32

/-! ## The invariant -/

/-- What every run keeps. -/
structure Session.Sound (P : Set Bytes) (pre : Bytes) (s : Session) (M : Bytes → Option Bytes)
    (committed : List (Hash × (Bytes → Option Bytes))) : Prop where
  db : s.trie.db = s.disk.nodes
  pre : s.trie.prefix_ = pre
  keyed : Keyed P s.disk.get
  shape : ∃ tree, Shape P s.disk.get s.disk.bound s.trie.root M tree
  roots : ∀ root M', (root, M') ∈ committed → ∃ tree, root = treeHash tree ∧ WF tree ∧ Represents tree M' ∧
    (tree = .nil ∨ Known P true tree ∧ Stored s.disk.get s.disk.bound tree)

namespace Session.Sound

variable {pre : Bytes} {s : Session} {c : List (Hash × (Bytes → Option Bytes))} {M' : Bytes → Option Bytes}

section
variable (h : s.Sound P pre M c)
include h

/-- A trie whose root is replaced by one that stands for another map. -/
theorem setRoot {n' : Node} {tree' : TrieTree}
    (hs : Shape P s.disk.get s.disk.bound n' M' tree') :
    Session.Sound P pre { s with trie := { s.trie with root := n' } } M' c :=
  ⟨h.db, h.pre, h.keyed, ⟨tree', hs⟩, h.roots⟩

section
variable (k : Bytes)

theorem tryGet : (s.get k).1 = .ok (M (pre ++ k)) ∧ (s.get k).2.Sound P pre M c := by
  obtain ⟨disk, root, db, prefix_, gen⟩ := s
  obtain rfl : db = disk.nodes := h.db
  obtain rfl : prefix_ = pre := h.pre
  obtain ⟨tree, hs⟩ := h.shape
  obtain ⟨n', r, hget, hs'⟩ := hs.tryGet gen (prefix_ ++ k) le_rfl
  have htry : (Trie.mk root disk.nodes prefix_ gen).tryGet k =
      (.ok (M (prefix_ ++ k)), ⟨if r then n' else root, disk.nodes, prefix_, gen⟩) := by
    unfold Trie.tryGet
    dsimp only [Disk.nodes] at hget ⊢
    rw [hget]
    cases r <;> rfl
  unfold Session.get
  rw [htry]
  refine ⟨rfl, ?_⟩
  cases r with
  | true => exact h.setRoot hs'
  | false => exact h

theorem put {o : Option Bytes} (ho : o ≠ some []) (hM : Involved P (Function.update M (pre ++ k) o)) :
    ∃ d n', Node.put s.trie.db s.trie.cachegen (s.trie.root.fuel s.trie.db) s.trie.root
        (keybytesToHex (s.trie.prefix_ ++ k)) o = .ok (d, n') ∧
      Session.Sound P pre { s with trie := { s.trie with root := n' } } (Function.update M (pre ++ k) o) c := by
  obtain ⟨tree, hs⟩ := h.shape
  obtain ⟨d, n', tree', hput, hs'⟩ := hs.put s.trie.cachegen (pre ++ k) ho hM le_rfl
  rw [h.db, h.pre]
  exact ⟨d, n', hput, h.setRoot hs'⟩

theorem update {v : Bytes} (hv : v ≠ []) (hM : Involved P (Function.update M (pre ++ k) (some v))) :
    (s.update k v).Sound P pre (Function.update M (pre ++ k) (some v)) c := by
  obtain ⟨d, n', hput, hs⟩ := h.put k (by simpa using hv) hM
  rw [Node.put] at hput
  unfold Session.update Trie.update Trie.tryUpdate
  rw [if_pos (by simpa using hv), hput]
  exact hs

theorem delete (hM : Involved P (Function.update M (pre ++ k) none)) :
    (s.delete k).Sound P pre (Function.update M (pre ++ k) none) c := by
  obtain ⟨d, n', hput, hs⟩ := h.put k (o := none) nofun hM
  rw [Node.put] at hput
  unfold Session.delete Trie.delete Trie.tryDelete
  rw [hput]
  exact hs

end

end

theorem hash (hP : Distinct P) (h : s.Sound P pre M c) (limit : UInt16) : (s.hash limit).2.Sound P pre M c := by
  obtain ⟨tree, hs⟩ := h.shape
  obtain ⟨root, hr, hs'⟩ := hs.hashNow hP h.keyed limit
  unfold Session.hash
  rw [hr]
  exact h.setRoot hs'

/-- What a commit leaves, whether or not the database took all of it. -/
theorem commit_grows (hP : Distinct P) (h : s.Sound P pre M c) (limit : UInt16) (fails : Nat → Bool) :
    ∃ tree, Shape P s.disk.get s.boundAfter s.trie.root M tree ∧
      Grows (Intact P ⟨s.disk.get, fails, 0⟩) (s.trie.hashRoot limit true) (fun r w' => r.1 = treeHash tree ∧
        Shape P w'.get s.boundAfter r.2 M tree ∧ (true = true → tree = .nil ∨ Stored w'.get s.boundAfter tree)) := by
  obtain ⟨tree, hs⟩ := h.shape
  have hs' := hs.mono (fun _ _ hbs => hbs) (Nat.le_max_left s.disk.bound (s.trie.root.weight s.disk.nodes))
  have hsize : size tree ≤ s.boundAfter :=
    hs.stands.loads.size_le.trans (Nat.le_max_right s.disk.bound (s.trie.root.weight s.disk.nodes))
  exact ⟨tree, hs', Shape.hashRoot_grows hP ⟨s.disk.get, fails, 0⟩ true limit hs' fun _ => hsize⟩

/-- Roots that were committed stay stored. -/
theorem roots_mono (h : s.Sound P pre M c) {disk : Disk} (hle : ∀ h bs, s.disk.get h = some bs → disk.get h = some bs)
    (hb : s.disk.bound ≤ disk.bound) {root : Hash} (hmem : (root, M') ∈ c) :
    ∃ tree, root = treeHash tree ∧ WF tree ∧ Represents tree M' ∧
      (tree = .nil ∨ Known P true tree ∧ Stored disk.get disk.bound tree) := by
  obtain ⟨tree, hroot, hw, hrep, hst⟩ := h.roots root M' hmem
  exact ⟨tree, hroot, hw, hrep, hst.imp_right fun hst => ⟨hst.1, hst.2.mono hle hb⟩⟩

theorem commit (hP : Distinct P) (h : s.Sound P pre M c) (limit : UInt16) (fails : Nat → Bool) :
    (∀ root, (s.commit limit fails).1 = .ok root → (s.commit limit fails).2.Sound P pre M ((root, M) :: c)) ∧
      (s.commit limit fails).2.Sound P pre M c := by
  obtain ⟨tree, hs, hgrows⟩ := h.commit_grows hP limit fails
  have hintact : Intact P ⟨s.disk.get, fails, 0⟩ ⟨s.disk.get, fails, 0⟩ := ⟨h.keyed, le_rfl⟩
  have hbound : s.disk.bound ≤ s.boundAfter := Nat.le_max_left _ _
  unfold Session.commit Trie.commitWith
  cases hrun : s.trie.hashRoot limit true ⟨s.disk.get, fails, 0⟩ with
  | error e w' =>
    obtain ⟨hle, hkeyed, _⟩ := hgrows.error hintact hrun
    refine ⟨nofun, rfl, h.pre, hkeyed, ⟨tree, hs.mono hle le_rfl⟩, ?_⟩
    exact fun root M' hmem => h.roots_mono hle hbound hmem
  | ok r w' =>
    obtain ⟨hle, ⟨hkeyed, _⟩, hroot, hs', hst⟩ := hgrows.ok hintact hrun
    have hsound : Session.Sound P pre ⟨⟨w'.get, s.boundAfter⟩, { s.trie with
        root := r.2, cachegen := s.trie.cachegen + 1, db := Disk.nodes ⟨w'.get, s.boundAfter⟩ }⟩ M c :=
      ⟨rfl, h.pre, hkeyed, ⟨tree, hs'⟩, fun root M' hmem => h.roots_mono hle hbound hmem⟩
    refine ⟨?_, hsound⟩
    intro root hr
    cases hr
    refine { hsound with roots := ?_ }
    intro root' M' hmem
    rcases List.mem_cons.mp hmem with heq | hmem
    · cases heq
      refine ⟨tree, hroot, hs'.wf, hs'.represents, ?_⟩
      rcases hst rfl with hn | hst
      · exact .inl hn
      · exact .inr ⟨hs'.known.resolve_left hst.inner.ne_nil, hst⟩
    · exact hsound.roots root' M' hmem

/-- **A root that was committed can be opened**, and the trie reads its map. -/
theorem new (hP : Addressed P) (h : s.Sound P pre M c) {root : Hash}
    (hmem : (root, M') ∈ c) :
    ∃ t, Trie.new root pre s.disk.nodes = .ok t ∧ Session.Sound P pre { s with trie := t } M' c := by
  obtain ⟨tree, rfl, hw, hrep, hst⟩ := h.roots root M' hmem
  rcases hst with rfl | ⟨hknown, hst⟩
  · refine ⟨.empty s.disk.nodes pre, ?_, rfl, rfl, h.keyed, ⟨.nil, .nil, hw, hrep, .inl rfl⟩, h.roots⟩
    unfold Trie.new
    rw [if_neg fun hne => hne.2 rfl]
  · have hmem := hknown.2 (.inl rfl)
    have hne : treeHash tree ≠ .zero 32 ∧ treeHash tree ≠ emptyRoot := by
      refine ⟨?_, hst.inner.treeHash_ne_emptyRoot hP.toDistinct hP.emptyRoot hP.empty hmem⟩
      rw [hst.inner.treeHash_eq]
      exact hP.zero _ hmem
    refine ⟨⟨treeNode 0 (some (treeHash tree)) tree, s.disk.nodes, pre, 0⟩, ?_, rfl, rfl, h.keyed, ⟨tree, ?_, hw, hrep,
      .inr hknown⟩, h.roots⟩
    · unfold Trie.new
      rw [if_pos hne]
      unfold resolveHash Disk.nodes
      rw [hst.inner.treeHash_eq, hst.load 0]
    · rw [hst.inner.treeHash_eq]
      exact hst.stands 0 nofun

end Session.Sound

/-- Every run keeps the invariant. -/
theorem Runs.sound {pre : Bytes} {s : Session} {c : List (Hash × (Bytes → Option Bytes))} (hP : Addressed P)
    (h : Runs P pre s M c) : s.Sound P pre M c := by
  induction h with
  | start hdisk =>
    exact ⟨rfl, rfl, hdisk, ⟨.nil, .nil, .nil, represents_nil, .inl rfl⟩, nofun⟩
  | update k v _ hv hM ih => exact ih.update k hv hM
  | updateEmpty k _ hM ih | delete k _ hM ih => exact ih.delete k hM
  | get k _ ih => exact (ih.tryGet k).2
  | hash limit _ ih => exact ih.hash hP.toDistinct limit
  | commit limit fails root _ hok ih => exact (ih.commit hP.toDistinct limit fails).1 root hok
  | refused limit fails e _ _ ih => exact (ih.commit hP.toDistinct limit fails).2
  | reopen root _ hmem hopen ih =>
    obtain ⟨t, ht, hs⟩ := ih.new hP hmem
    unfold Session.reopen at hopen
    rw [ih.pre, ht] at hopen
    cases hopen
    exact hs

/-- **A trie reads what was written last**, and every root that was committed can be
opened and reads what had been written by then, whatever was read, hashed, unloaded or
refused by the database in between. -/
theorem Runs.reads_last_written {pre : Bytes} {s : Session} {c : List (Hash × (Bytes → Option Bytes))}
    (hP : Addressed P) (h : Runs P pre s M c) : (∀ k, (s.trie.tryGet k).1 = .ok (M (pre ++ k))) ∧
      ∀ root M', (root, M') ∈ c →
        ∃ t, Trie.new root pre s.disk.nodes = .ok t ∧ ∀ k, (t.tryGet k).1 = .ok (M' (pre ++ k)) := by
  have hs := h.sound hP
  refine ⟨fun k => (hs.tryGet k).1, ?_⟩
  intro root M' hmem
  obtain ⟨t, ht, hs'⟩ := hs.new hP hmem
  exact ⟨t, ht, fun k => (hs'.tryGet k).1⟩

end

/-! ## One entry -/

namespace OneEntry

/-- The last bytes as hash, but for the string whose hash is the root of the empty trie. -/
scoped instance : Crypto where
  keccak256 b := if b = Rlp.encodeString [] then emptyRoot else .ofBytes 32 b
  keccak512 b := .ofBytes 64 b
  ecrecover _ _ := none

def tree : TrieTree := .short (keybytesToHex [1]) (.leaf [2])

/-- All that is hashed. -/
def strings : List Bytes := [Rlp.encodeString [], treeEncoding tree]

theorem known : Known {bs | bs ∈ strings} true tree :=
  ⟨nofun, fun _ => List.mem_cons_of_mem _ List.mem_cons_self⟩

theorem addressed : Addressed {bs | bs ∈ strings} := by
  have hfree : ∀ a ∈ strings, ∀ b ∈ strings, keccak256 a = keccak256 b → a = b := by decide +kernel
  have hsize : ∀ bs ∈ strings, bs.length < 256 ^ 8 := by decide +kernel
  have hzero : ∀ bs ∈ strings, keccak256 bs ≠ .zero 32 := by decide +kernel
  exact ⟨⟨hfree, hsize⟩, List.mem_cons_self, rfl, hzero⟩

/-- An empty database. -/
def disk : Disk := ⟨fun _ => none, 0⟩

theorem keyed_disk : Keyed {bs | bs ∈ strings} disk.get := ⟨nofun, nofun⟩

/-- One entry, written and committed. -/
def session : Session := ((Session.mk disk (.empty disk.nodes [])).update [1] [2] |>.commit 0 fun _ => false).2

theorem committed_entry_read : (session.trie.tryGet [1]).1 = .ok (some [2]) ∧
      ∃ t, Trie.new (treeHash tree) [] session.disk.nodes = .ok t ∧ (t.tryGet [1]).1 = .ok (some [2]) := by
  have hrun : Runs {bs | bs ∈ strings} [] session (Function.update (fun _ => none) [1] (some [2]))
      [(treeHash tree, Function.update (fun _ => none) [1] (some [2]))] :=
    .commit 0 (fun _ => false) (treeHash tree)
      (.update [1] [2] (.start keyed_disk) (List.cons_ne_nil _ _) (involved_short known)) rfl
  obtain ⟨hget, hopen⟩ := Runs.reads_last_written addressed hrun
  obtain ⟨t, ht, hread⟩ := hopen _ _ List.mem_cons_self
  exact ⟨hget [1], t, ht, hread [1]⟩

end OneEntry

end Bgmchain
