import Bgmchain.Lib.PatriciaExt
import Bgmchain.Trie.Cache

/-! # What cached nodes stand for

The nodes of a trie in use carry hashes and may be clean, and old ones are hash nodes.
`Stands` ties such a node to the tree that it stands for: the hash it carries is the one
of the tree's encoding, and what is clean is stored with everything below it. Reading,
writing and hashing keep this up. -/
namespace Bgmchain
open Common Lib Patricia Hoare Crypto

section
variable [Crypto]

/-- All that is hashed below the root of a tree is stored. -/
def StoredBelow (get : Hash → Option Bytes) (t : TrieTree) : Prop :=
  ∀ bs ∈ treePreimages t, get (keccak256 bs) = some bs

/-- A tree that can be read from a store under its hash. -/
structure Stored (get : Hash → Option Bytes) (bound : Nat) (t : TrieTree) : Prop extends Good t where
  size : size t ≤ bound
  own : get (keccak256 (treeEncoding t)) = some (treeEncoding t)
  below : StoredBelow get t

/-- What the flags of a node say about its tree. Below the root only nodes that are
not written into their parent carry a hash; of the clean ones, all of these do. -/
structure Marks (get : Hash → Option Bytes) (bound : Nat) (root : Bool) (flags : NodeFlag) (t : TrieTree) : Prop where
  hash : ∀ h, flags.hash = some h →
    h = keccak256 (treeEncoding t) ∧ (root = false → 32 ≤ (treeEncoding t).length)
  clean : flags.dirty = false → size t ≤ bound ∧ StoredBelow get t ∧
    (∀ h, flags.hash = some h → get h = some (treeEncoding t)) ∧
    (flags.hash = none → root = false ∧ (treeEncoding t).length < 32)

/-- The tree that a node in use stands for. -/
inductive Stands (get : Hash → Option Bytes) (bound : Nat) : Bool → Node → TrieTree → Prop
  | nil {b} : Stands get bound b .nil .nil
  | value {b v} : v ≠ [] → Stands get bound b (.value v) (.leaf v)
  | short {b k val c flags} : Stands get bound false val c → Marks get bound b flags (.short k c) →
      Stands get bound b (.short k val flags) (.short k c)
  | full {b cs ts flags} : (∀ i, Stands get bound false (cs i) (ts i)) → Marks get bound b flags (.full ts) →
      Stands get bound b (.full cs flags) (.full ts)
  | hash {b h t} : h = keccak256 (treeEncoding t) → Stored get bound t →
      (b = false → 32 ≤ (treeEncoding t).length) → Stands get bound b (.hash h) t

variable {get get' : Hash → Option Bytes} {bound bound' : Nat} {b : Bool} {n : Node} {t : TrieTree}

theorem Marks.new (gen : UInt16) (b : Bool) (t : TrieTree) : Marks get bound b (.new gen) t :=
  ⟨nofun, nofun⟩

theorem Marks.setGen {flags : NodeFlag} (h : Marks get bound b flags t) (gen : UInt16) :
    Marks get bound b { flags with gen := gen } t := ⟨h.hash, h.clean⟩

/-! ## A store that has grown -/

theorem StoredBelow.mono (hle : ∀ h bs, get h = some bs → get' h = some bs) (h : StoredBelow get t) :
    StoredBelow get' t :=
  fun bs hbs => hle _ _ (h bs hbs)

theorem Stored.mono (hle : ∀ h bs, get h = some bs → get' h = some bs) (hb : bound ≤ bound')
    (h : Stored get bound t) : Stored get' bound' t :=
  { h.toGood with size := h.size.trans hb, own := hle _ _ h.own, below := h.below.mono hle }

theorem Marks.mono {flags : NodeFlag} (hle : ∀ h bs, get h = some bs → get' h = some bs) (hb : bound ≤ bound')
    (h : Marks get bound b flags t) : Marks get' bound' b flags t := by
  refine ⟨h.hash, ?_⟩
  intro hclean
  obtain ⟨hsize, hbelow, hown, hnone⟩ := h.clean hclean
  exact ⟨hsize.trans hb, hbelow.mono hle, fun h hh => hle _ _ (hown h hh), hnone⟩

theorem Stands.mono (hle : ∀ h bs, get h = some bs → get' h = some bs) (hb : bound ≤ bound')
    (h : Stands get bound b n t) : Stands get' bound' b n t := by
  induction h with
  | nil => exact .nil
  | value hv => exact .value hv
  | short _ hm ih => exact .short ih (hm.mono hle hb)
  | full _ hm ih => exact .full ih (hm.mono hle hb)
  | hash hh hs hlen => exact .hash hh (hs.mono hle hb) hlen

/-! ## What is read from the store -/

/-- What is hashed for a child and below it, when everything below its parent is stored. -/
theorem StoredBelow.child {c : TrieTree}
    (h : ∀ bs ∈ childPreimages c (treeEncoding c) ++ treePreimages c, get (keccak256 bs) = some bs) :
    StoredBelow get c ∧ (Inner c → 32 ≤ (treeEncoding c).length →
      get (keccak256 (treeEncoding c)) = some (treeEncoding c)) := by
  refine ⟨fun bs hbs => h bs (List.mem_append.mpr (.inr hbs)), ?_⟩
  intro hi hlen
  exact h _ (List.mem_append.mpr (.inl (hi.mem_childPreimages hlen)))

theorem StoredBelow.full_child {cs : Nibble → TrieTree} (h : StoredBelow get (.full cs)) (i : Nibble) :
    StoredBelow get (cs i) ∧ (Inner (cs i) → 32 ≤ (treeEncoding (cs i)).length →
      get (keccak256 (treeEncoding (cs i))) = some (treeEncoding (cs i))) :=
  StoredBelow.child fun bs hbs => h bs (List.mem_flatMap.mpr ⟨i, List.mem_finRange i, hbs⟩)

variable {gen : UInt16}

/-- What is read where a parent refers to a stored child. -/
theorem stands_refNode (hi : t = .nil ∨ (∃ v, t = .leaf v) ∨ Inner t) (hv : Valued t)
    (hg : Inner t → Good t) (hsize : size t ≤ bound) (hbelow : StoredBelow get t)
    (hown : Inner t → 32 ≤ (treeEncoding t).length → get (keccak256 (treeEncoding t)) = some (treeEncoding t))
    (hnode : Inner t → (treeEncoding t).length < 32 → Stands get bound false (treeNode gen none t) t) :
    Stands get bound false (refNode gen t) t := by
  rcases hi with rfl | ⟨v, rfl⟩ | hi
  · exact .nil
  · exact .value hv
  · rw [hi.refNode_eq]
    split
    next hlen =>
      exact hnode hi hlen
    next hlen =>
      have hlen' : 32 ≤ (treeEncoding t).length := by omega
      exact .hash rfl { hg hi with size := hsize, own := hown hi hlen', below := hbelow } fun _ => hlen'

/-- **A node that is read stands for the tree that was stored.** -/
theorem stands_treeNode {t : TrieTree} (hg : Good t) (hsize : size t ≤ bound) (hbelow : StoredBelow get t) :
    ∀ {b : Bool} {h : Option Hash}, (∀ h', h = some h' → h' = keccak256 (treeEncoding t) ∧
        get h' = some (treeEncoding t) ∧ (b = false → 32 ≤ (treeEncoding t).length)) →
      (h = none → b = false ∧ (treeEncoding t).length < 32) → Stands get bound b (treeNode gen h t) t := by
  induction t with
  | nil | leaf v => exact hg.inner.elim
  | short k c ih =>
    intro b h hh hnone
    have hsize' : size c ≤ bound := by
      simp only [Lib.Patricia.size] at hsize
      omega
    obtain ⟨hbelow', hown⟩ := StoredBelow.child hbelow
    have hc : c = .nil ∨ (∃ v, c = .leaf v) ∨ Inner c := by
      rcases wf_short_cases hg.wf with ⟨_, hv⟩ | ⟨_, hi, _⟩
      · exact .inr (.inl hv)
      · exact .inr (.inr hi)
    refine .short (stands_refNode hc hg.valued (hg.short) hsize' hbelow' hown fun hi hlen =>
      ih (hg.short hi) hsize' hbelow' (fun _ h => by cases h) fun _ => ⟨rfl, hlen⟩) ?_
    exact ⟨fun h' he => ⟨(hh h' he).1, (hh h' he).2.2⟩, fun _ => ⟨hsize, hbelow, fun h' he => (hh h' he).2.1, hnone⟩⟩
  | full cs ih =>
    intro b h hh hnone
    refine .full (fun i => ?_) ?_
    · have hsize' : size (cs i) ≤ bound := (size_child_lt cs i).le.trans hsize
      obtain ⟨hbelow', hown⟩ := hbelow.full_child i
      have hc : cs i = .nil ∨ (∃ v, cs i = .leaf v) ∨ Inner (cs i) := by
        have hwc := (wf_full_iff.mp hg.wf).1 i
        by_cases hlast : i = Fin.last 16
        · exact (wfAt_last.mp (hlast ▸ hwc)).imp_right .inl
        · exact (wf_nil_or_inner ((wfAt_of_ne hlast).mp hwc)).imp_right .inr
      exact stands_refNode hc (hg.valued i) (hg.full) hsize' hbelow' hown fun hi hlen =>
        ih i (hg.full hi) hsize' hbelow' (fun _ h => by cases h) fun _ => ⟨rfl, hlen⟩
    · exact ⟨fun h' he => ⟨(hh h' he).1, (hh h' he).2.2⟩, fun _ => ⟨hsize, hbelow, fun h' he => (hh h' he).2.1, hnone⟩⟩

theorem Stored.load (h : Stored get bound t) (gen : UInt16) :
    (NodeDatabase.ofStore get bound).load (keccak256 (treeEncoding t)) gen =
      some (treeNode gen (some (keccak256 (treeEncoding t))) t) := by
  show (get _).bind _ = _
  rw [h.own]
  exact h.toGood.decoded _ gen

theorem Stored.stands (h : Stored get bound t) (gen : UInt16) (hlen : b = false → 32 ≤ (treeEncoding t).length) :
    Stands get bound b (treeNode gen (some (keccak256 (treeEncoding t))) t) t := by
  refine stands_treeNode h.toGood h.size h.below ?_ nofun
  intro h' he
  cases he
  exact ⟨rfl, h.own, hlen⟩

theorem Inner.resolved_treeNode (h : Inner t) (gen : UInt16) (hash : Option Hash) : (treeNode gen hash t).Resolved := by
  cases t with
  | nil | leaf v => exact h.elim
  | short k c | full cs => trivial

/-- **What a node stands for can be read.** -/
theorem Stands.loads_of_size {N : Nat} :
    ∀ {b : Bool} {n : Node} {t : TrieTree}, size t ≤ N → Stands get bound b n t →
      Loads (.ofStore get bound) n t := by
  induction N with
  | zero =>
    intro b n t hN
    have := size_pos t
    omega
  | succ N ih =>
    intro b n t hN h
    -- below a node that is not a hash node the trees are smaller
    have hresolved : ∀ {b : Bool} {n : Node}, n.Resolved → Stands get bound b n t → Loads (.ofStore get bound) n t := by
      intro b n hr h
      cases h with
      | nil => exact .nil
      | value hv => exact .value hv
      | short hc _ =>
        refine .short (ih ?_ hc)
        simp only [Lib.Patricia.size] at hN
        omega
      | @full _ cs ts _ hc _ =>
        refine .full fun i => ih ?_ (hc i)
        have := size_child_lt ts i
        omega
      | hash _ _ _ => exact hr.elim
    cases h with
    | @hash _ _ _ hh hs hlen =>
      subst hh
      exact .hash hs.load (fun g => hs.inner.resolved_treeNode g _)
        (fun g => hresolved (hs.inner.resolved_treeNode g _) (hs.stands g hlen)) hs.size hs.inner.ne_nil
    | nil => exact .nil
    | value hv => exact .value hv
    | short hc hm => exact hresolved trivial (.short hc hm)
    | full hc hm => exact hresolved trivial (.full hc hm)

theorem Stands.loads (h : Stands get bound b n t) : Loads (.ofStore get bound) n t :=
  Stands.loads_of_size le_rfl h

variable {t' : TrieTree}

omit [Crypto] in
/-- A node stands for one tree. -/
theorem Loads.unique {db : NodeDatabase} {n : Node} {t : TrieTree} (h : Loads db n t) (h' : Loads db n t') :
    t = t' := by
  induction h generalizing t' with
  | nil | value _ => cases h'; rfl
  | short _ ih =>
    cases h' with
    | short hc => rw [ih hc]
  | full _ ih =>
    cases h' with
    | full hc => exact congrArg Tree.full (funext fun i => ih i (hc i))
  | hash hload _ _ _ _ ih =>
    cases h' with
    | @hash _ _ ld' hload' _ hc _ _ =>
      have hld := hload' 0
      rw [hload 0] at hld
      refine ih 0 ?_
      rw [Option.some.inj hld]
      exact hc 0

/-! ## Reading and writing -/

/-- What is written to a trie keeps standing for a tree. -/
theorem Stands.hereditary (gen : UInt16) :
    Hereditary (.ofStore get bound) gen fun b n => ∃ t, Stands get bound b n t where
  nil _ := ⟨.nil, .nil⟩
  short _ k _ h := by
    obtain ⟨t, ht⟩ := h
    exact ⟨.short k t, .short ht (.new gen _ _)⟩
  val h := by
    obtain ⟨t, ht⟩ := h
    cases ht with
    | short hc _ => exact ⟨_, hc⟩
  full _ _ h := by
    choose ts hts using h
    exact ⟨.full ts, .full hts (.new gen _ _)⟩
  child h i := by
    obtain ⟨t, ht⟩ := h
    cases ht with
    | full hc _ => exact ⟨_, hc i⟩
  load h hn := by
    obtain ⟨t, ht⟩ := h
    cases ht with
    | hash hh hs hlen =>
      subst hh
      rw [hs.load gen] at hn
      cases hn
      exact ⟨t, hs.stands gen hlen⟩

/-- `insert` stands for insertion. -/
theorem Stands.insert {f : Nat} {path key : List Nibble} {v : Bytes} {d : Bool} {n' : Node}
    (h : Stands get bound b n t) (hv : v ≠ [])
    (hn : Node.insert (.ofStore get bound) gen f n path key v = .ok (d, n'))
    (hl : Loads (.ofStore get bound) n' t') : Stands get bound b n' t' := by
  obtain ⟨t'', ht⟩ := (Stands.hereditary gen).insert (fun _ => ⟨.leaf v, .value hv⟩) hn ⟨t, h⟩
  rwa [ht.loads.unique hl] at ht

theorem Stands.delete {f : Nat} {path key : List Nibble} {d : Bool} {n' : Node}
    (h : Stands get bound b n t) (hn : Node.delete (.ofStore get bound) gen f n path key = .ok (d, n'))
    (hl : Loads (.ofStore get bound) n' t') : Stands get bound b n' t' := by
  obtain ⟨t'', ht⟩ := (Stands.hereditary gen).delete hn ⟨t, h⟩
  rwa [ht.loads.unique hl] at ht

/-- What `tryGet` puts in place stands for the same tree. -/
theorem Stands.tryGet {f : Nat} :
    ∀ {b : Bool} {n n' : Node} {t : TrieTree} {path key : List Nibble} {v : Option Bytes} {d : Bool},
      Stands get bound b n t → Node.tryGet (.ofStore get bound) gen f n path key = .ok (v, n', d) →
      Stands get bound b n' t := by
  induction f with
  | zero =>
    intro b n n' t path key v d _ hn
    cases hn
  | succ f ih =>
    intro b n n' t path key v d h hn
    cases h with
    | nil =>
      cases hn
      exact .nil
    | value hv =>
      cases hn
      exact .value hv
    | @short _ k val c flags hc hm =>
      unfold Node.tryGet at hn
      split at hn
      · obtain ⟨⟨v', newnode, didResolve⟩, hget, hn⟩ := except_bind_ok_iff.mp hn
        cases didResolve with
        | true =>
          cases hn
          exact .short (ih hc hget) (hm.setGen gen)
        | false =>
          cases hn
          exact .short hc hm
      · cases hn
        exact .short hc hm
    | @full _ cs ts flags hc hm =>
      cases key with
      | nil => cases hn
      | cons i key =>
        obtain ⟨⟨v', newnode, didResolve⟩, hget, hn⟩ := except_bind_ok_iff.mp hn
        cases didResolve with
        | true =>
          cases hn
          refine .full (fun j => ?_) (hm.setGen gen)
          by_cases hj : j = i
          · rw [hj, Function.update_self]
            exact ih (hc i) hget
          · rw [Function.update_of_ne hj]
            exact hc j
        | false =>
          cases hn
          exact .full hc hm
    | @hash _ h _ hh hs hlen =>
      subst hh
      obtain ⟨child, hchild, hrest⟩ := except_bind_ok_iff.mp hn
      obtain ⟨⟨v', newnode, didResolve⟩, hget, hret⟩ := except_bind_ok_iff.mp hrest
      unfold resolveHash at hchild
      rw [hs.load gen] at hchild
      cases hchild
      cases hret
      exact ih (hs.stands gen hlen) hget

end

end Bgmchain
