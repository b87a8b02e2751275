import Bgmchain.Trie.Decode

/-! # What was encoded is decoded

`decodeNode` against the encoder: the bytes of a tree in normal form are read as the node
that stands for it, with the children that were hashed as hash nodes and the short ones
as they are. A store that holds every encoding of a tree under its hash lets a trie
read the whole of it. -/
namespace Bgmchain
open Common Lib Patricia Rlp Crypto
open List hiding lookup insert

/-! ## Items -/

theorem count_flatten {l : List Bytes} (h : ∀ bs ∈ l, Item bs) :
    ∀ f, l.flatten.length ≤ f → countValues.count f l.flatten = some l.length := by
  induction l with
  | nil =>
    intro f _
    cases f <;> rfl
  | cons bs l ih =>
    intro f hf
    have hitem := h bs mem_cons_self
    obtain ⟨b, bs', hb⟩ := exists_cons_of_ne_nil hitem.ne_nil
    obtain ⟨kind, contents, hsplit⟩ := hitem
    have hs := hsplit l.flatten
    rw [flatten_cons, hb, cons_append] at hf ⊢
    rw [hb, cons_append] at hs
    simp only [length_cons, length_append] at hf
    obtain _ | f := f
    · omega
    rw [countValues.count, hs]
    dsimp only
    rw [ih (fun bs hbs => h bs (mem_cons_of_mem _ hbs)) f (by omega)]
    rfl

theorem countValues_flatten {l : List Bytes} (h : ∀ bs ∈ l, Item bs) : countValues l.flatten = l.length := by
  rw [countValues, count_flatten h _ le_rfl]
  rfl

variable {bs : Bytes}

theorem splitString_encodeString (h : bs.length < 256 ^ 8) (rest : Bytes) :
    splitString (encodeString bs ++ rest) = some (bs, rest) := by
  rw [splitString, split_encodeString h]

section
variable [Crypto]

/-! ## The node of a tree -/

/-- What is read where a parent refers to a child with this encoding, which is read as
`n` by itself. -/
def childNode : TrieTree → Bytes → Node → Node
  | .nil, _, _ => .nil
  | .leaf v, _, _ => .value v
  | _, enc, n => if enc.length < 32 then n else .hash (keccak256 enc)

/-- The node that is read from the encoding of a tree, under a hash or in its parent. -/
def treeNode (gen : UInt16) : Option Hash → TrieTree → Node
  | _, .nil => .nil
  | _, .leaf v => .value v
  | h, .short k c => .short k (childNode c (treeEncoding c) (treeNode gen none c)) ⟨h, gen, false⟩
  | h, .full cs =>
    .full (fun i => childNode (cs i) (treeEncoding (cs i)) (treeNode gen none (cs i))) ⟨h, gen, false⟩

def refNode (gen : UInt16) (t : TrieTree) : Node := childNode t (treeEncoding t) (treeNode gen none t)

variable {t : TrieTree}

theorem Inner.refNode_eq (h : Inner t) (gen : UInt16) : refNode gen t =
      if (treeEncoding t).length < 32 then treeNode gen none t else .hash (keccak256 (treeEncoding t)) := by
  cases t with
  | nil | leaf v => exact h.elim
  | short k c | full cs => rfl

/-- The size header makes an encoding longer than its items. -/
theorem Inner.length_items_lt (h : Inner t) (hbs : bs ∈ treeItems t) : bs.length < (treeEncoding t).length := by
  have hle := (sublist_flatten_of_mem hbs).length_le
  have hhead : (sizeHeader 0xC0 (treeItems t).flatten.length).length ≠ 0 := by
    unfold sizeHeader
    split <;> simp
  rw [h.treeEncoding_eq, encodeList, length_append]
  omega

/-- A tree whose encoding is decoded, whatever follows it. -/
def Decodes (gen : UInt16) (t : TrieTree) : Prop :=
  ∀ f, (treeEncoding t).length ≤ f → ∀ h rest,
    decodeNode f h gen (treeEncoding t ++ rest) = some (treeNode gen h t)

/-- The length of every encoding in a tree can be written. -/
def Sized (t : TrieTree) : Prop :=
  (treeEncoding t).length < 256 ^ 8 ∧ ∀ bs ∈ treePreimages t, bs.length < 256 ^ 8

theorem Sized.item (hs : Sized t) (h : Inner t) (hbs : bs ∈ treeItems t) : bs.length < 256 ^ 8 :=
  (length_le_of_mem_treeItems h hbs).trans_lt hs.1

variable {gen : UInt16} {c : TrieTree}

theorem decodeRef_treeRef (h : t = .nil ∨ Inner t) {f : Nat}
    (hd : Inner t → (treeEncoding t).length < 32 → Decodes gen t ∧ (treeEncoding t).length ≤ f) (rest : Bytes) :
    decodeRef (decodeNode f none gen) (treeRef t ++ rest) = some (refNode gen t, rest) := by
  rcases h with rfl | h
  · show decodeRef _ (encodeString [] ++ rest) = _
    rw [decodeRef, split_encodeString (by simp)]
    rfl
  · rw [h.treeRef_eq, h.refNode_eq, storeRef]
    by_cases hlen : (treeEncoding t).length < 32
    · obtain ⟨hdec, hf⟩ := hd h hlen
      have hpay : (treeItems t).flatten.length < 256 ^ 8 := by
        have := length_le_encodeList (treeItems t).flatten
        rw [← h.treeEncoding_eq] at this
        omega
      have hsplit := split_encodeList hpay rest
      rw [← h.treeEncoding_eq] at hsplit
      have hshort : ¬ (treeEncoding t ++ rest).length - rest.length > 32 := by
        rw [length_append]
        omega
      rw [if_pos (by simpa using hlen), if_pos hlen, decodeRef, hsplit]
      dsimp only
      rw [if_neg hshort, hdec f hf none rest]
      rfl
    · have hhash : (keccak256 (treeEncoding t)).bytes.length = 32 := FixedBytes.length_eq _
      have hne : (keccak256 (treeEncoding t)).bytes ≠ [] := by
        intro hnil
        rw [hnil] at hhash
        cases hhash
      rw [if_neg (by simpa using hlen), if_neg hlen, decodeRef, split_encodeString (by omega)]
      dsimp only
      rw [if_neg hne, dif_pos hhash]

theorem decodeRefs_treeRefs {f : Nat} {l : List TrieTree}
    (h : ∀ t ∈ l, ∀ rest, decodeRef (decodeNode f none gen) (treeRef t ++ rest) = some (refNode gen t, rest))
    (rest : Bytes) :
    decodeRefs (decodeNode f none gen) l.length ((l.map treeRef).flatten ++ rest) = some (l.map (refNode gen), rest) := by
  induction l with
  | nil => rfl
  | cons t l ih =>
    rw [map_cons, flatten_cons, append_assoc, length_cons, decodeRefs,
      h t mem_cons_self]
    simp only [Option.bind_eq_bind, Option.bind_some]
    rw [ih fun t ht => h t (mem_cons_of_mem _ ht)]
    rfl

/-- A decoder that finds the items of a node goes on with them. -/
theorem decodeNode_items (h : Inner t) (hs : Sized t) (f : Nat) (hash : Option Hash)
    (rest : Bytes) :
    decodeNode (f + 1) hash gen (treeEncoding t ++ rest) =
      match (treeItems t).length with
      | 2 => decodeShort (decodeNode f none gen) ⟨hash, gen, false⟩ (treeItems t).flatten
      | 17 => decodeFull (decodeNode f none gen) ⟨hash, gen, false⟩ (treeItems t).flatten
      | _ => none := by
  have hpay : (treeItems t).flatten.length < 256 ^ 8 := by
    have hle := length_le_encodeList (treeItems t).flatten
    rw [← h.treeEncoding_eq] at hle
    exact hle.trans_lt hs.1
  have hcount : countValues (treeItems t).flatten = (treeItems t).length :=
    countValues_flatten fun bs hbs => (encoded_treeItems t bs hbs).item (hs.item h hbs)
  rw [decodeNode, h.treeEncoding_eq, split_encodeList hpay rest]
  dsimp only
  rewrite [hcount]
  rfl

/-- A child is as small as what is hashed for it and below it. -/
theorem Inner.sized (hi : Inner c)
    (h : ∀ bs ∈ childPreimages c (treeEncoding c) ++ treePreimages c, bs.length < 256 ^ 8) : Sized c := by
  refine ⟨?_, fun bs hbs => h bs (mem_append.mpr (.inr hbs))⟩
  by_cases hlen : (treeEncoding c).length < 32
  · omega
  · exact h _ (mem_append.mpr (.inl (hi.mem_childPreimages (Nat.le_of_not_lt hlen))))

theorem Sized.short {k : List Nibble} (hs : Sized (.short k c)) (hi : Inner c) : Sized c :=
  hi.sized hs.2

theorem Sized.full {cs : Nibble → TrieTree} (hs : Sized (.full cs)) {i : Nibble} (hi : Inner (cs i)) :
    Sized (cs i) :=
  hi.sized fun bs hbs => hs.2 bs (mem_flatMap.mpr ⟨i, mem_finRange i, hbs⟩)

/-- **A tree in normal form is read back as the node that stands for it.** -/
theorem decodes (gen : UInt16) (hw : WF t) (hi : Inner t) (hv : Valued t) (hs : Sized t) : Decodes gen t := by
  induction t with
  | nil | leaf v => exact hi.elim
  | short k c ih =>
    intro f hf hash rest
    have hitem : treeRef c ∈ treeItems (.short k c) := mem_cons_of_mem _ mem_cons_self
    have hpos : 0 < (treeEncoding (.short k c)).length := (Nat.zero_le _).trans_lt (hi.length_items_lt hitem)
    obtain _ | f := f
    · omega
    rw [decodeNode_items hi hs]
    have hkey : (hexToCompact k).length < 256 ^ 8 :=
      (length_le_encodeString _).trans_lt (hs.item hi mem_cons_self)
    show decodeShort _ _ (encodeString (hexToCompact k) ++ (treeRef c ++ [])) = _
    rw [decodeShort, splitString_encodeString hkey]
    simp only [Option.bind_eq_bind, Option.bind_some]
    rw [compactToHex_hexToCompact ((wf_short_cases hw).imp And.left And.left)]
    simp only [Option.bind_some]
    rcases wf_short_cases hw with ⟨hk, v, rfl⟩ | ⟨hl, hic, hwc⟩
    · have hterm : hasTerm k = true := by
        obtain ⟨p, _, rfl⟩ := hk.exists_concat
        simp [hasTerm]
      have hval : v.length < 256 ^ 8 := (length_le_encodeString v).trans_lt (hs.item hi hitem)
      have hsplit := splitString_encodeString hval []
      rw [if_pos hterm]
      show (splitString (encodeString v ++ [])).bind _ = _
      rw [hsplit]
      rfl
    · have hterm : ¬ hasTerm k = true := by
        intro h
        exact hl (mem_of_getLast? (by simpa [hasTerm] using h))
      have hlt := hi.length_items_lt hitem
      rw [if_neg hterm, decodeRef_treeRef (.inr hic) fun _ hlen => ⟨ih hwc hic hv (hs.short hic), ?_⟩]
      · rfl
      · rw [hic.treeRef_eq, storeRef, if_pos (by simpa using hlen)] at hlt
        omega
  | full cs ih =>
    intro f hf hash rest
    have hitem : ∀ i, treeRef (cs i) ∈ treeItems (.full cs) := fun i => mem_map_of_mem (mem_finRange i)
    have hpos : 0 < (treeEncoding (.full cs)).length := (Nat.zero_le _).trans_lt (hi.length_items_lt (hitem 0))
    obtain _ | f := f
    · omega
    have hlength : (treeItems (.full cs)).length = 17 := rfl
    rw [decodeNode_items hi hs, hlength]
    have hfin : List.finRange 17 = (List.finRange 16).map Fin.castSucc ++ [Fin.last 16] := rfl
    have hflat : (treeItems (.full cs)).flatten =
        ((((List.finRange 16).map fun i => cs i.castSucc).map treeRef).flatten ++ treeRef (cs (Fin.last 16))) := by
      rw [treeItems, hfin, map_append, flatten_append, map_map, map_map]
      simp [Function.comp_def]
    have hchild : ∀ t ∈ (List.finRange 16).map fun i => cs i.castSucc, ∀ rest,
        decodeRef (decodeNode f none gen) (treeRef t ++ rest) = some (refNode gen t, rest) := by
      intro t ht rest
      obtain ⟨i, _, rfl⟩ := mem_map.mp ht
      have hwc := (wfAt_of_ne (Fin.castSucc_ne_last i)).mp ((wf_full_iff.mp hw).1 i.castSucc)
      refine decodeRef_treeRef (wf_nil_or_inner hwc) (fun hic hlen => ⟨ih _ hwc hic (hv _) (hs.full hic), ?_⟩) rest
      have hlt := hi.length_items_lt (hitem i.castSucc)
      rw [hic.treeRef_eq, storeRef, if_pos (by simpa using hlen)] at hlt
      omega
    have hrefs := decodeRefs_treeRefs hchild (treeRef (cs (Fin.last 16)))
    rw [length_map, length_finRange] at hrefs
    have hlast : ∃ v, splitString (treeRef (cs (Fin.last 16)) ++ []) = some (v, []) ∧
        refNode gen (cs (Fin.last 16)) = if v = [] then .nil else .value v := by
      rcases wfAt_last.mp ((wf_full_iff.mp hw).1 (Fin.last 16)) with hn | ⟨v, hn⟩
      · rw [hn]
        exact ⟨[], rfl, rfl⟩
      · have hvalue : v ≠ [] := by
          have := hv (Fin.last 16)
          rwa [hn] at this
        have hsize := hs.item hi (hitem (Fin.last 16))
        rw [hn] at hsize ⊢
        refine ⟨v, splitString_encodeString ((length_le_encodeString v).trans_lt hsize) [], ?_⟩
        rw [if_neg hvalue]
        rfl
    obtain ⟨v, hsplit, hvalue⟩ := hlast
    rw [append_nil] at hsplit
    show decodeFull _ _ _ = _
    rw [hflat, decodeFull, hrefs]
    simp only [Option.bind_eq_bind, Option.bind_some, hsplit, treeNode]
    congr 2
    funext i
    rw [← hvalue]
    have hall : ((List.finRange 16).map fun i => cs i.castSucc).map (refNode gen) ++ [refNode gen (cs (Fin.last 16))] =
        (List.finRange 17).map fun i => refNode gen (cs i) := rfl
    rw [hall, getD_eq_getElem?_getD, List.getElem?_map, List.getElem?_eq_getElem (by simp)]
    simp [refNode]

/-! ## What an encoding determines -/

variable {t' : TrieTree} {P : Set Bytes}

/-- A tree that its encoding determines among the trees in normal form. -/
def ReadBack (P : Set Bytes) (t : TrieTree) : Prop :=
  ∀ t', WF t → WF t' → Inner t → Inner t' → Valued t → Valued t' →
    (∀ bs ∈ treePreimages t, bs ∈ P) → (∀ bs ∈ treePreimages t', bs ∈ P) →
    (treeEncoding t).length < 256 ^ 8 → (treeEncoding t').length < 256 ^ 8 →
    treeEncoding t = treeEncoding t' → t = t'

/-- A tree whose encoding can be read back. -/
structure Good (t : TrieTree) : Prop where
  wf : WF t
  inner : Inner t
  valued : Valued t
  sized : Sized t

/-- What `mustDecodeNode` makes of a stored node. -/
theorem Good.decoded (h : Good t) (hash : Hash) (gen : UInt16) :
    mustDecodeNode hash gen (treeEncoding t) = some (treeNode gen (some hash) t) := by
  have hdec := decodes gen h.wf h.inner h.valued h.sized _ le_rfl (some hash) []
  rwa [append_nil] at hdec

theorem Good.short {k : List Nibble} (h : Good (.short k c)) (hi : Inner c) : Good c := by
  refine ⟨?_, hi, h.valued, h.sized.short hi⟩
  rcases wf_short_cases h.wf with ⟨_, v, rfl⟩ | ⟨_, _, hw⟩
  · exact hi.elim
  · exact hw

theorem Good.full {cs : Nibble → TrieTree} (h : Good (.full cs)) {i : Nibble} (hi : Inner (cs i)) : Good (cs i) := by
  refine ⟨?_, hi, h.valued i, h.sized.full hi⟩
  have hc := (wf_full_iff.mp h.wf).1 i
  by_cases hlast : i = Fin.last 16
  · subst hlast
    rcases wfAt_last.mp hc with hnil | ⟨v, hleaf⟩
    · exact absurd hnil hi.ne_nil
    · exact (hleaf ▸ hi : Inner (.leaf v)).elim
  · exact (wfAt_of_ne hlast).mp hc

/-- Trees with one encoding are read as one node. -/
theorem Good.treeNode_eq (h : Good t) (h' : Good t') (heq : treeEncoding t = treeEncoding t') :
    treeNode 0 none t = treeNode 0 none t' := by
  have hdec := decodes 0 h.wf h.inner h.valued h.sized _ le_rfl none []
  rw [heq, decodes 0 h'.wf h'.inner h'.valued h'.sized _ le_rfl none []] at hdec
  exact (Option.some.inj hdec).symm

theorem treeNode_ne_hash (x : Hash) : treeNode gen none t ≠ .hash x := by
  cases t <;> exact nofun

omit [Crypto] in
theorem end_or_inner (t : TrieTree) : (t = .nil ∨ ∃ v, t = .leaf v) ∨ Inner t := by
  cases t with
  | nil => exact .inl (.inl rfl)
  | leaf v => exact .inl (.inr ⟨v, rfl⟩)
  | short k c | full cs => exact .inr trivial

theorem Inner.refNode_ne (h : Inner t) (h' : t' = .nil ∨ ∃ v, t' = .leaf v) : refNode gen t ≠ refNode gen t' := by
  rw [h.refNode_eq]
  cases t with
  | nil | leaf v => exact h.elim
  | short k c | full cs => rcases h' with rfl | ⟨v, rfl⟩ <;> split <;> exact nofun

/-- Children that are read as one node are the same if those are that can be read by themselves. -/
theorem refNode_inj (hP : NoCollision P)
    (ih : ∀ t', Good t → Good t' → (∀ bs ∈ treePreimages t, bs ∈ P) → (∀ bs ∈ treePreimages t', bs ∈ P) →
      treeNode 0 none t = treeNode 0 none t' → t = t')
    (hg : Inner t → Good t) (hg' : Inner t' → Good t') (hc : Covered P t) (hc' : Covered P t')
    (heq : refNode 0 t = refNode 0 t') : t = t' := by
  rcases end_or_inner t with ht | hi
  · rcases end_or_inner t' with ht' | hi'
    · rcases ht with rfl | ⟨v, rfl⟩ <;> rcases ht' with rfl | ⟨v', rfl⟩ <;> cases heq <;> rfl
    · exact absurd heq.symm (hi'.refNode_ne ht)
  · rcases end_or_inner t' with ht' | hi'
    · exact absurd heq (hi.refNode_ne ht')
    · apply ih t' (hg hi) (hg' hi') hc.below hc'.below
      rw [hi.refNode_eq, hi'.refNode_eq] at heq
      split at heq
      · split at heq
        · exact heq
        · exact absurd heq (treeNode_ne_hash _)
      next hlen =>
        split at heq
        · exact absurd heq.symm (treeNode_ne_hash _)
        next hlen' =>
          exact (hg hi).treeNode_eq (hg' hi') (hP _ (hc.mem hi hlen) _ (hc'.mem hi' hlen') (Node.hash.inj heq))

/-- The node that is read determines the tree. -/
theorem treeNode_inj (hP : NoCollision P) (h : Good t) (h' : Good t') (hp : ∀ bs ∈ treePreimages t, bs ∈ P)
    (hp' : ∀ bs ∈ treePreimages t', bs ∈ P) (heq : treeNode 0 none t = treeNode 0 none t') : t = t' := by
  induction t generalizing t' with
  | nil | leaf v => exact h.inner.elim
  | short k c ih =>
    cases t' with
    | nil | leaf v => exact h'.inner.elim
    | full cs => cases heq
    | short k' c' =>
      obtain ⟨rfl, hc, -⟩ := Node.short.inj heq
      rw [refNode_inj hP (fun _ => ih) h.short h'.short (covered_short hp) (covered_short hp') hc]
  | full cs ih =>
    cases t' with
    | nil | leaf v => exact h'.inner.elim
    | short k c => cases heq
    | full cs' =>
      refine congrArg _ (funext fun i => ?_)
      exact refNode_inj hP (fun _ => ih i) h.full h'.full (covered_full hp i) (covered_full hp' i)
        (congrFun (Node.full.inj heq).1 i)

/-- **A tree in normal form can be read back from its encoding**, as long as no two of the strings
that are hashed collide. -/
theorem readBack (hP : Distinct P) (t : TrieTree) : ReadBack P t := by
  intro t' hw hw' hi hi' hv hv' hp hp' hlen hlen' heq
  have h : Good t := ⟨hw, hi, hv, hlen, fun bs hbs => hP.size bs (hp bs hbs)⟩
  have h' : Good t' := ⟨hw', hi', hv', hlen', fun bs hbs => hP.size bs (hp' bs hbs)⟩
  exact treeNode_inj hP.free h h' hp hp' (h.treeNode_eq h' heq)

/-- **The hash of a tree determines it.** -/
theorem treeHash_inj (hP : Distinct P) (hempty : keccak256 (encodeString []) = emptyRoot)
    (hnil : encodeString [] ∈ P) (hw : WF t) (hw' : WF t') (hv : Valued t) (hv' : Valued t')
    (hp : Inner t → treeEncoding t ∈ P ∧ ∀ bs ∈ treePreimages t, bs ∈ P)
    (hp' : Inner t' → treeEncoding t' ∈ P ∧ ∀ bs ∈ treePreimages t', bs ∈ P)
    (hhash : treeHash t = treeHash t') : t = t' := by
  rcases wf_nil_or_inner hw with hn | hi
  · rcases wf_nil_or_inner hw' with hn' | hi'
    · rw [hn, hn']
    · rw [hn] at hhash
      exact absurd hhash.symm (hi'.treeHash_ne_emptyRoot hP hempty hnil (hp' hi').1)
  · obtain ⟨hmem, hbelow⟩ := hp hi
    rcases wf_nil_or_inner hw' with hn' | hi'
    · rw [hn'] at hhash
      exact absurd hhash (hi.treeHash_ne_emptyRoot hP hempty hnil hmem)
    · obtain ⟨hmem', hbelow'⟩ := hp' hi'
      rw [hi.treeHash_eq, hi'.treeHash_eq] at hhash
      exact readBack hP _ _ hw hw' hi hi' hv hv' hbelow hbelow' (hP.size _ hmem) (hP.size _ hmem')
        (hP.free _ hmem _ hmem' hhash)

theorem Inner.preimages {t : Trie} (hi : Inner t.root.tree) {P : Set Bytes} (hp : ∀ bs ∈ t.preimages, bs ∈ P) :
    treeEncoding t.root.tree ∈ P ∧ ∀ bs ∈ treePreimages t.root.tree, bs ∈ P := by
  unfold Trie.preimages at hp
  generalize t.root.tree = tree at hi hp
  have hcons : (∀ bs ∈ treeEncoding tree :: treePreimages tree, bs ∈ P) →
      treeEncoding tree ∈ P ∧ ∀ bs ∈ treePreimages tree, bs ∈ P :=
    fun h => ⟨h _ mem_cons_self, fun bs hbs => h bs (mem_cons_of_mem _ hbs)⟩
  cases tree with
  | nil | leaf v => exact hi.elim
  | short k c | full cs => exact hcons hp

/-- **The root hash of a trie that was built in memory commits to its entries.** The
empty trie has the hash of the empty string. -/
theorem Trie.hash_inj {t t' : Trie} {m m' : Bytes → Option Bytes} (hm : t.Holds m) (hm' : t'.Holds m')
    (hpre : t.prefix_ = t'.prefix_) (hf : t.root.Fresh) (hf' : t'.root.Fresh)
    (hempty : keccak256 (encodeString []) = emptyRoot) {P : Set Bytes} (hP : Distinct P)
    (hnil : encodeString [] ∈ P) (hp : ∀ bs ∈ t.preimages, bs ∈ P) (hp' : ∀ bs ∈ t'.preimages, bs ∈ P)
    (hhash : t.hash = t'.hash) : m = m' := by
  obtain ⟨tree, hl, hw, -, hlookup⟩ := hm
  obtain ⟨tree', hl', hw', -, hlookup'⟩ := hm'
  obtain ⟨rfl, hv⟩ := hl.eq_tree hf
  obtain ⟨rfl, hv'⟩ := hl'.eq_tree hf'
  suffices htree : t.root.tree = t'.root.tree by
    funext k
    rw [← hlookup, ← hlookup', htree, hpre]
  rw [Trie.hash_eq_treeHash hf hw, Trie.hash_eq_treeHash hf' hw'] at hhash
  exact treeHash_inj hP hempty hnil hw hw' hv hv' (fun hi => hi.preimages hp) (fun hi => hi.preimages hp') hhash

end

end Bgmchain
