import Bgmchain.Trie.SyncTree

/-! # Reading a downloaded trie

A trie can be read from a database at all keys exactly when all its nodes that are stored
on their own are there. -/
namespace Bgmchain
open Common Lib Patricia Hoare Crypto

/-- The keys of a tree are strings of bytes. -/
def ByteKeys (t : TrieTree) : Prop := ∀ path v, lookup t path = some v → ∃ key, path = keybytesToHex key

section
variable [Crypto]

/-- A trie can be opened, and all that it holds is read. -/
def ReadsAs (db : Hash → Option Bytes) (t : TrieTree) : Prop :=
  ∃ bound trie, Trie.new (treeHash t) [] (.ofStore db bound) = .ok trie ∧
    ∀ key, (trie.tryGet key).1 = .ok (lookup t (keybytesToHex key))

variable {P : Set Bytes} {db : Hash → Option Bytes} {t e : TrieTree}

theorem Own.cases_root (h : Own t e) :
    e = t ∨ ∃ c, ChildOf c t ∧ Inner c ∧ 32 ≤ (treeEncoding c).length ∧ Own c e := by
  induction h with
  | root => exact .inl rfl
  | @child e c _ hc hi hlen ih =>
    rcases ih with rfl | ⟨x, hx, hix, hlenx, ho⟩
    · exact .inr ⟨c, hc, hi, hlen, .root⟩
    · exact .inr ⟨x, hx, hix, hlenx, .child ho hc hi hlen⟩

theorem Own.cons {c : TrieTree} (h : Own c e) (hc : ChildOf c t) (hi : Inner c) (hlen : 32 ≤ (treeEncoding c).length) :
    Own t e := by
  induction h with
  | root => exact .child .root hc hi hlen
  | child _ hx hix hlenx ih => exact .child ih hx hix hlenx

/-! ## What has been read is there -/

/-- Reading this key takes the node from the database. -/
def ReadBy (db : Hash → Option Bytes) (t e : TrieTree) (key : List Nibble) : Prop :=
  ∀ {bound gen f h path r}, Node.tryGet (.ofStore db bound) gen f (treeNode gen h t) path key = .ok r →
    e = t ∨ (db (keccak256 (treeEncoding e))).isSome

/-- The child a parent refers to is read from the database. -/
theorem ReadBy.child (hP : NoCollision P) (hdb : Keyed P db) {c : TrieTree} (hc : Part P c) (hlen : 32 ≤ (treeEncoding c).length)
    {key : List Nibble} (h : ReadBy db c e key) {bound : Nat} {gen : UInt16} {f : Nat} {path : List Nibble}
    {r : Option Bytes × Node × Bool} (hget : Node.tryGet (.ofStore db bound) gen f (refNode gen c) path key = .ok r) :
    (db (keccak256 (treeEncoding e))).isSome := by
  rw [hc.good.inner.refNode_eq, if_neg (by omega)] at hget
  cases f with
  | zero => cases hget
  | succ f =>
    obtain ⟨n, hload, hget⟩ := except_bind_ok_iff.mp hget
    obtain ⟨r', hget, _⟩ := except_bind_ok_iff.mp hget
    obtain ⟨bs, hbs, hm⟩ := Option.bind_eq_some_iff.mp (resolveHash_ok_iff.mp hload)
    obtain rfl := hP _ (hdb.mem _ _ hbs) _ (hc.known.2 (.inl rfl)) (hdb.hash _ _ hbs)
    rw [hc.good.decoded] at hm
    cases hm
    rcases h hget with rfl | hsome
    · rw [hbs]
      rfl
    · exact hsome

/-- **Every node is read by some key that has a value.** -/
theorem Own.exists_readBy (hP : NoCollision P) (hdb : Keyed P db) :
    ∀ {t : TrieTree}, Part P t → Own t e → ∃ key v, lookup t key = some v ∧ ReadBy db t e key := by
  intro t
  -- the root is read by all keys
  have hroot : ∀ {t : TrieTree}, Part P t → e = t → ∃ key v, lookup t key = some v ∧ ReadBy db t e key := by
    intro t ht heq
    obtain ⟨key, v, _, hv⟩ := ht.good.wf.exists_lookup ht.good.inner.ne_nil
    exact ⟨key, v, hv, fun _ => .inl heq⟩
  induction t with
  | nil | leaf v => exact fun ht => ht.good.inner.elim
  | short k c ih =>
    intro ht ho
    rcases ho.cases_root with heq | ⟨x, hx, hi, hlen, ho⟩
    · exact hroot ht heq
    · cases hx
      have hc := ChildOf.part .short ht hi hlen
      obtain ⟨key, v, hv, hread⟩ := ih hc ho
      refine ⟨k ++ key, v, by rw [lookup_short_append, hv], fun {_ _ f _ _ _} hget => .inr ?_⟩
      cases f with
      | zero => cases hget
      | succ f =>
        unfold treeNode Node.tryGet at hget
        rw [if_pos (List.prefix_append _ _), List.drop_left] at hget
        obtain ⟨r', hget, _⟩ := except_bind_ok_iff.mp hget
        exact hread.child hP hdb hc hlen hget
  | full cs ih =>
    intro ht ho
    rcases ho.cases_root with heq | ⟨x, hx, hi, hlen, ho⟩
    · exact hroot ht heq
    · cases hx with
      | full i =>
        have hc := ChildOf.part (.full i) ht hi hlen
        obtain ⟨key, v, hv, hread⟩ := ih i hc ho
        refine ⟨i :: key, v, hv, fun {_ _ f _ _ _} hget => .inr ?_⟩
        cases f with
        | zero => cases hget
        | succ f =>
          obtain ⟨r', hget, _⟩ := except_bind_ok_iff.mp hget
          exact hread.child hP hdb hc hlen hget

theorem readsAs_nil (db : Hash → Option Bytes) : ReadsAs db .nil := by
  refine ⟨0, .empty (.ofStore db 0) [], ?_, fun key => ?_⟩
  · unfold Trie.new
    rw [if_neg fun h => h.2 rfl]
  · obtain ⟨t', hget, _⟩ := (Trie.holds_empty (.ofStore db 0) []).tryGet key
    rw [hget]
    rfl

/-- **A trie reads exactly when its nodes are stored.** -/
theorem Part.readsAs_iff (hP : Addressed P) (hdb : Keyed P db) (ht : Part P t) (hkeys : ByteKeys t) :
    ReadsAs db t ↔ ∀ e, Own t e → (db (keccak256 (treeEncoding e))).isSome := by
  have hi := ht.good.inner
  have hmem := ht.known.2 (.inl rfl)
  have hopen : treeHash t ≠ .zero 32 ∧ treeHash t ≠ emptyRoot :=
    ⟨by rw [hi.treeHash_eq]; exact hP.zero _ hmem, hi.treeHash_ne_emptyRoot hP.toDistinct hP.emptyRoot hP.empty hmem⟩
  have hfound : ∀ {e}, Own t e → (db (keccak256 (treeEncoding e))).isSome →
      db (keccak256 (treeEncoding e)) = some (treeEncoding e) := by
    intro e ho hsome
    obtain ⟨bs, hbs⟩ := Option.isSome_iff_exists.mp hsome
    obtain rfl := hP.free _ (hdb.mem _ _ hbs) _ ((ho.part ht).known.2 (.inl rfl)) (hdb.hash _ _ hbs)
    exact hbs
  constructor
  · intro hreads e ho
    obtain ⟨bound, trie, hnew, hget⟩ := hreads
    obtain ⟨n, hload, rfl⟩ := Trie.new_read hnew hopen
    obtain ⟨bs, hbs, hn⟩ := Option.bind_eq_some_iff.mp hload
    rw [hi.treeHash_eq] at hbs hn
    obtain rfl := hP.free _ (hdb.mem _ _ hbs) _ hmem (hdb.hash _ _ hbs)
    rw [ht.good.decoded] at hn
    cases hn
    obtain ⟨path, v, hv, hread⟩ := ho.exists_readBy hP.free hdb ht
    obtain ⟨key, rfl⟩ := hkeys path v hv
    have hgot := hget key
    unfold Trie.tryGet at hgot
    split at hgot
    · cases hgot
    next hok =>
      rcases hread hok with rfl | hsome
      · rw [hbs]
        rfl
      · exact hsome
  · intro hall
    have hown := hfound .root (hall t .root)
    have hbelow := Own.storedBelow hP.free hdb ht (fun ho _ hc hi hlen => hall _ (.child ho hc hi hlen)) .root hown
    have hstored : Stored db (size t) t := { ht.good with size := le_rfl, own := hown, below := hbelow }
    refine ⟨size t, ⟨treeNode 0 (some (treeHash t)) t, .ofStore db (size t), [], 0⟩, ?_, fun key => ?_⟩
    · unfold Trie.new resolveHash
      rw [if_pos hopen, hi.treeHash_eq, hstored.load]
    · have hstands := hstored.stands (b := true) 0 nofun
      rw [← hi.treeHash_eq] at hstands
      have hholds : (Trie.mk (treeNode 0 (some (treeHash t)) t) (.ofStore db (size t)) [] 0).Holds
          fun key => lookup t (keybytesToHex key) := ⟨t, hstands.loads, ht.good.wf, hkeys, fun _ => rfl⟩
      obtain ⟨t', hget, _⟩ := hholds.tryGet key
      rw [hget]

end

end Bgmchain
