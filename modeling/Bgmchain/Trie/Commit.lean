import Bgmchain.Trie.Stands

/-! # Hashing keeps what nodes stand for

`Hash` and `CommitTo` over the tree that a trie stands for: the hash is the one of the
tree's encoding, the nodes that come back stand for the same tree, and after a commit
every node is stored. A commit that the database breaks off leaves only right entries. -/
namespace Bgmchain
open Common Lib Patricia Growing Function Rlp Crypto
open Lib.Hoare (bind_of_ok bind_of_error)

/-- A writer that has stored more. -/
instance : Preorder Writer where
  le w w' := ∀ h bs, w.get h = some bs → w'.get h = some bs
  le_refl _ _ _ h := h
  le_trans _ _ _ h h' hash bs hbs := h' hash bs (h hash bs hbs)

section
variable [Crypto] {P : Set Bytes} {w0 : Writer} {bound : Nat} {db root : Bool} {t : TrieTree}

/-- What is stored are strings of `P` under their hashes, with all that was there. -/
def Intact (P : Set Bytes) (w0 w : Writer) : Prop := Keyed P w.get ∧ w0 ≤ w

/-- All that is hashed for a tree is in `P`, the root with it. -/
def Known (P : Set Bytes) (root : Bool) (t : TrieTree) : Prop :=
  (∀ bs ∈ treePreimages t, bs ∈ P) ∧ (root = true ∨ 32 ≤ (treeEncoding t).length → treeEncoding t ∈ P)

theorem Known.of_covered (h : Covered P t) (hi : Inner t) : Known P false t := by
  refine ⟨h.below, ?_⟩
  intro hlen
  rcases hlen with hlen | hlen
  · cases hlen
  · exact h.mem hi (by omega)

theorem Known.sized (hP : Distinct P) (h : Known P root t) : Sized t := by
  refine ⟨?_, fun bs hbs => hP.size bs (h.1 bs hbs)⟩
  by_cases hlen : (treeEncoding t).length < 32
  · omega
  · exact hP.size _ (h.2 (.inr (by omega)))

/-! ## Writing a node -/

omit [Crypto] in
theorem put_eq (h : Hash) (enc : Bytes) (w : Writer) :
    put h enc w =
      if w.fails w.puts then .error .refused { w with puts := w.puts + 1 }
      else .ok () { w with puts := w.puts + 1, get := update w.get h (some enc) } := by
  unfold put
  by_cases hf : w.fails w.puts
  · simp [bind, EStateM.bind, get, getThe, MonadStateOf.get, EStateM.get, set, EStateM.set, hf]
    rfl
  · simp [bind, EStateM.bind, get, getThe, MonadStateOf.get, EStateM.get, set, EStateM.set, hf]
    rfl

theorem put_grows (hP : NoCollision P) {enc : Bytes} (hmem : enc ∈ P) :
    Grows (Intact P w0) (put (keccak256 enc) enc) (fun _ w => w.get (keccak256 enc) = some enc) := by
  intro w hw
  rw [put_eq]
  by_cases hf : w.fails w.puts
  · rw [if_pos hf]
    exact ⟨fun _ _ h => h, hw⟩
  · rw [if_neg hf]
    -- what was stored under this hash was the same
    have hle : ∀ h bs, w.get h = some bs → update w.get (keccak256 enc) (some enc) h = some bs := by
      intro h bs hbs
      by_cases hh : h = keccak256 enc
      · subst hh
        rw [update_self, hP enc hmem bs (hw.1.mem _ bs hbs) (hw.1.hash _ bs hbs).symm]
      · rw [update_of_ne hh]
        exact hbs
    have hkeyed : Keyed P (update w.get (keccak256 enc) (some enc)) := by
      constructor
      · intro h bs hbs
        by_cases hh : h = keccak256 enc
        · rw [hh, update_self] at hbs
          cases hbs
          exact hh.symm
        · rw [update_of_ne hh] at hbs
          exact hw.1.hash h bs hbs
      · intro h bs hbs
        by_cases hh : h = keccak256 enc
        · rw [hh, update_self] at hbs
          cases hbs
          exact hmem
        · rw [update_of_ne hh] at hbs
          exact hw.1.mem h bs hbs
    exact ⟨hle, ⟨hkeyed, fun h bs hbs => hle h bs (hw.2 h bs hbs)⟩, update_self ..⟩

theorem store_grows (hP : NoCollision P) {cached : Option Hash} {enc : Bytes}
    (hcached : ∀ h, cached = some h → h = keccak256 enc) (hmem : root = true ∨ 32 ≤ enc.length → enc ∈ P) :
    Grows (Intact P w0) (store db root cached enc) (fun ref w =>
      ref = (if enc.length < 32 ∧ root = false then none else some (keccak256 enc)) ∧
        (db = true → ref.isSome → w.get (keccak256 enc) = some enc)) := by
  by_cases hshort : enc.length < 32 ∧ root = false
  · have hstore : store db root cached enc = pure none := by
      unfold store
      rw [if_pos (by simp [hshort.1, hshort.2])]
    rw [hstore]
    refine .pure fun w _ => ⟨(if_pos hshort).symm, nofun⟩
  · have hhash : cached.getD (keccak256 enc) = keccak256 enc := by
      cases hc : cached with
      | none => rfl
      | some h => exact hcached h hc
    have hneg : ¬ (decide (enc.length < 32) && !root) = true := by
      simp only [Bool.and_eq_true, decide_eq_true_eq, Bool.not_eq_true']
      exact hshort
    have hmem' : enc ∈ P := by
      refine hmem ?_
      cases root with
      | true => exact .inl rfl
      | false => exact .inr (by by_contra h; exact hshort ⟨by omega, rfl⟩)
    unfold store
    rw [if_neg hneg, hhash, if_neg hshort]
    cases db with
    | true =>
      refine .bind (put_grows hP hmem') fun _ w _ hput => .pure fun w' hw' => ⟨rfl, fun _ _ => ?_⟩
      exact hw'.2 _ _ hput
    | false => exact .pure fun w _ => ⟨rfl, nofun⟩

/-! ## Hashing a node -/

/-- What `hash` returns for a node that stands for a tree. -/
structure HashesTo (bound : Nat) (db root : Bool) (t : TrieTree) (r : Hashed) (w : Writer) : Prop where
  ref : root = false → r.ref = treeRef t
  hash : root = true → r.hash = some (keccak256 (treeEncoding t))
  stands : Stands w.get bound root r.cached t
  below : db = true → StoredBelow w.get t
  own : db = true → Inner t → root = true ∨ 32 ≤ (treeEncoding t).length →
    w.get (keccak256 (treeEncoding t)) = some (treeEncoding t)

variable {r : Hashed} {w : Writer}

theorem HashesTo.mono {w' : Writer} (hle : w ≤ w') (h : HashesTo bound db root t r w) :
    HashesTo bound db root t r w' :=
  ⟨h.ref, h.hash, h.stands.mono hle le_rfl, fun hdb => (h.below hdb).mono hle,
    fun hdb hi hlen => hle _ _ (h.own hdb hi hlen)⟩

theorem Inner.treeRef_hashed (hi : Inner t) (hlen : 32 ≤ (treeEncoding t).length) :
    treeRef t = encodeString (keccak256 (treeEncoding t)).bytes := by
  rw [hi.treeRef_eq, storeRef, if_neg]
  simp only [Bool.not_false, Bool.and_true, decide_eq_true_eq]
  omega

theorem Inner.treeRef_inline (hi : Inner t) (hlen : (treeEncoding t).length < 32) : treeRef t = treeEncoding t := by
  rw [hi.treeRef_eq, storeRef, if_pos]
  simpa using hlen

variable {flags : NodeFlag} {h : Hasher} {n : Node}

/-- A node whose hash is all that is needed. -/
theorem HashesTo.of_known (hg : Good t)
    (hs : Stands w.get bound root n t) (hm : Marks w.get bound root flags t) (hr : flags.known h db n = some r) :
    HashesTo bound db root t r w := by
  unfold NodeFlag.known at hr
  cases hhash : flags.hash with
  | none =>
    rw [hhash] at hr
    cases hr
  | some hash =>
    rw [hhash] at hr
    obtain ⟨rfl, hlen⟩ := hm.hash hash hhash
    have href : ∀ n', Stands w.get bound root n' t → (db = true → flags.dirty = false) →
        HashesTo bound db root t ⟨some (keccak256 (treeEncoding t)), [], n'⟩ w := by
      intro n' hs' hclean
      refine ⟨fun hroot => (hg.inner.treeRef_hashed (hlen hroot)).symm, fun _ => rfl, hs', ?_, ?_⟩
      · exact fun hdb => (hm.clean (hclean hdb)).2.1
      · exact fun hdb _ _ => (hm.clean (hclean hdb)).2.2.1 _ hhash
    dsimp only at hr
    split at hr
    next hdb =>
      cases hr
      exact href n hs fun h => by rw [h] at hdb; cases hdb
    · split at hr
      next hunload =>
        cases hr
        have hclean : flags.dirty = false := by
          simp only [NodeFlag.canUnload, Bool.and_eq_true, Bool.not_eq_true'] at hunload
          exact hunload.1
        obtain ⟨hsize, hbelow, hown, _⟩ := hm.clean hclean
        exact href _ (.hash rfl { hg with size := hsize, own := hown _ hhash, below := hbelow } hlen) fun _ => hclean
      · split at hr
        next hclean =>
          cases hr
          exact href n hs fun _ => by simpa using hclean
        · cases hr

/-- A node that has to be hashed is dirty or written into its parent. -/
theorem Marks.of_not_known
    (hm : Marks w.get bound root flags t) (hr : flags.known h db n = none) (hclean : flags.dirty = false) :
    root = false ∧ (treeEncoding t).length < 32 := by
  cases hhash : flags.hash with
  | none => exact (hm.clean hclean).2.2.2 hhash
  | some hash =>
    unfold NodeFlag.known at hr
    rw [hhash, hclean] at hr
    dsimp only at hr
    split at hr
    · cases hr
    · split at hr
      · cases hr
      · simp at hr

/-- The end of `hash`: the node gets its hash, and is clean if there is a database. -/
theorem finish_grows (hP : NoCollision P) (mk : NodeFlag → Node)
    (hi : Inner t) (hk : Known P root t) (hsize : db = true → size t ≤ bound) (hm : Marks w0.get bound root flags t)
    (hr : flags.known h db n = none) (hbelow : db = true → StoredBelow w0.get t)
    (hmk : ∀ w flags', w0 ≤ w → Marks w.get bound root flags' t → Stands w.get bound root (mk flags') t) :
    Grows (Intact P w0) (do
      let ref ← store db root flags.hash (treeEncoding t)
      pure (⟨ref, treeEncoding t, mk { flags with hash := ref, dirty := flags.dirty && !db }⟩ : Hashed))
      (HashesTo bound db root t) := by
  refine .bind (store_grows hP (fun h hh => (hm.hash h hh).1) hk.2) fun ref w hw href => .pure fun w' hw' => ?_
  obtain ⟨hw', hle⟩ := hw'
  obtain ⟨href, hown⟩ := href
  have hlarge : ∀ h, ref = some h → h = keccak256 (treeEncoding t) ∧
      (root = false → 32 ≤ (treeEncoding t).length) := by
    intro h hh
    rw [hh] at href
    split at href
    · cases href
    next hshort =>
      cases href
      exact ⟨rfl, fun hroot => by by_contra hlen; exact hshort ⟨by omega, hroot⟩⟩
  have hown' : db = true → ∀ h, ref = some h → w'.get h = some (treeEncoding t) := by
    intro hdb h hh
    rw [(hlarge h hh).1]
    exact hle _ _ (hown hdb (by rw [hh]; rfl))
  have hnone : ref = none → root = false ∧ (treeEncoding t).length < 32 := by
    intro hh
    rw [hh] at href
    split at href
    next hshort =>
      exact hshort.symm
    · cases href
  have hsome : root = true ∨ 32 ≤ (treeEncoding t).length → ref = some (keccak256 (treeEncoding t)) := by
    intro hlen
    rw [href, if_neg]
    intro hshort
    rcases hlen with hroot | hlen
    · rw [hroot] at hshort
      exact absurd hshort.2 (by decide)
    · omega
  refine ⟨?_, fun hroot => hsome (.inl hroot), hmk w' _ hw'.2 ⟨hlarge, ?_⟩, fun hdb => (hbelow hdb).mono hw'.2, ?_⟩
  · intro hroot
    unfold Hashed.ref
    by_cases hlen : (treeEncoding t).length < 32
    · have : ref = none := by rw [href, if_pos ⟨hlen, hroot⟩]
      rw [this, hi.treeRef_inline hlen]
    · rw [hsome (.inr (by omega)), hi.treeRef_hashed (by omega)]
  · intro hclean
    simp only [Bool.and_eq_false_iff, Bool.not_eq_false'] at hclean
    by_cases hdb : db = true
    · exact ⟨hsize hdb, (hbelow hdb).mono hw'.2, hown' hdb, hnone⟩
    · -- without a database only a node that is written into its parent is clean
      have hdirty := hclean.resolve_right hdb
      obtain ⟨hroot, hlen⟩ := hm.of_not_known hr hdirty
      have : ref = none := by rw [href, if_pos ⟨hlen, hroot⟩]
      refine ⟨(hm.clean hdirty).1, (hm.clean hdirty).2.1.mono hw'.2, ?_, hnone⟩
      intro h hh
      rw [this] at hh
      cases hh
  · intro hdb _ hlen
    exact hown' hdb _ (hsome hlen)

theorem Intact.rebase {w1 : Writer} (hle : w0 ≤ w1) (w : Writer) : Intact P w1 w ↔ Intact P w0 w ∧ w1 ≤ w :=
  ⟨fun h => ⟨⟨h.1, le_trans hle h.2⟩, h.2⟩, fun h => ⟨h.1.1, h.2⟩⟩

/-- What a parent needs to know of a child that has been hashed. -/
def Ready (bound : Nat) (db : Bool) (c : TrieTree) (r : Hashed) (w : Writer) : Prop :=
  r.ref = treeRef c ∧ Stands w.get bound false r.cached c ∧
    (db = true → ∀ bs ∈ childPreimages c (treeEncoding c) ++ treePreimages c, w.get (keccak256 bs) = some bs)

variable {c : TrieTree}

theorem Ready.mono {w' : Writer} (hle : w ≤ w') (h : Ready bound db c r w) : Ready bound db c r w' :=
  ⟨h.1, h.2.1.mono hle le_rfl, fun hdb bs hbs => hle _ _ (h.2.2 hdb bs hbs)⟩

theorem HashesTo.ready (h : HashesTo bound db false c r w) : Ready bound db c r w := by
  refine ⟨h.ref rfl, h.stands, ?_⟩
  intro hdb bs hbs
  rcases List.mem_append.mp hbs with hbs | hbs
  · have hinner : Inner c → bs ∈ (if (treeEncoding c).length < 32 then [] else [treeEncoding c]) →
        w.get (keccak256 bs) = some bs := by
      intro hi hbs
      split at hbs
      · cases hbs
      next hlen =>
        rw [List.mem_singleton.mp hbs]
        exact h.own hdb hi (.inr (by omega))
    cases c with
    | nil | leaf v => cases hbs
    | short k c | full cs => exact hinner trivial hbs
  · exact h.below hdb bs hbs

theorem ready_value {v : Bytes} (hv : v ≠ []) (w : Writer) : Ready bound db (.leaf v) (.ofValue v) w :=
  ⟨rfl, .value hv, nofun⟩

/-- The child behind the terminator. -/
theorem ready_last (h : Stands w.get bound false n c)
    (hc : c = .nil ∨ ∃ v, c = .leaf v) : Ready bound db c (.ofLast n) w := by
  rcases hc with rfl | ⟨v, rfl⟩
  · cases h with
    | nil => exact ⟨rfl, .nil, nofun⟩
    | hash _ hs _ => exact hs.inner.elim
  · cases h with
    | value hv => exact ready_value hv w
    | hash _ hs _ => exact hs.inner.elim

/-- The child of an edge, with what hashing does to it: a value is left as it is, a
branch is hashed. -/
theorem ofVal_grows {k : List Nibble} {val : Node} (hg : Good (.short k c))
    (hk : ∀ bs ∈ treePreimages (.short k c), bs ∈ P) (hsize : db = true → size (.short k c) ≤ bound)
    (hc : Stands w0.get bound false val c)
    (ih : Good c ∨ c = .nil ∧ false = false → Known P false c → (db = true → size c ≤ bound) →
      Grows (Intact P w0) (Node.hashWith h db false val) (HashesTo bound db false c)) :
    Grows (Intact P w0) (Hashed.ofVal val (Node.hashWith h db false val)) (Ready bound db c) := by
  rcases wf_short_cases hg.wf with ⟨_, v, rfl⟩ | ⟨_, hi, _⟩
  · cases hc with
    | value hv => exact .pure fun w _ => ready_value hv w
    | hash _ hs _ => exact hs.inner.elim
  · have hsize' : db = true → size c ≤ bound := by
      intro hdb
      have := hsize hdb
      simp only [Lib.Patricia.size] at this
      omega
    have hrec := (ih (.inl (hg.short hi)) (.of_covered (covered_short hk) hi) hsize').conseq
      fun _ _ _ he => HashesTo.ready he
    cases hc with
    | value hv => exact hi.elim
    | nil | short _ _ | full _ _ | hash _ _ _ => exact hrec

/-- The children of a branch: the one behind the terminator is left as it is. -/
theorem children_grows {cs : Nibble → Node} {ts : Nibble → TrieTree} (hg : Good (.full ts))
    (hk : ∀ bs ∈ treePreimages (.full ts), bs ∈ P) (hsize : db = true → size (.full ts) ≤ bound)
    (hc : ∀ i, Stands w0.get bound false (cs i) (ts i))
    (ih : ∀ i, Good (ts i) ∨ ts i = .nil ∧ false = false → Known P false (ts i) → (db = true → size (ts i) ≤ bound) →
      Grows (Intact P w0) (Node.hashWith h db false (cs i)) (HashesTo bound db false (ts i))) :
    Grows (Intact P w0) (forFin fun i : Nibble =>
      if i = Fin.last 16 then pure (.ofLast (cs i)) else Node.hashWith h db false (cs i))
      (fun g w => ∀ i, Ready bound db (ts i) (g i) w) := by
  refine Grows.forFin (fun i => ?_) fun i r w w' hle hr => hr.mono hle
  have hwc := (wf_full_iff.mp hg.wf).1 i
  by_cases hlast : i = Fin.last 16
  · rw [if_pos hlast]
    exact .pure fun w hw => ready_last ((hc i).mono hw.2 le_rfl) (wfAt_last.mp (hlast ▸ hwc))
  · rw [if_neg hlast]
    have hsize' := fun hdb => (size_child_lt ts i).le.trans (hsize hdb)
    have hcases := wf_nil_or_inner ((wfAt_of_ne hlast).mp hwc)
    have hgood : Good (ts i) ∨ ts i = .nil ∧ false = false :=
      hcases.symm.imp (fun hi => hg.full hi) fun hn => ⟨hn, rfl⟩
    have hknown' : Known P false (ts i) := by
      rcases hcases with hn | hi
      · rw [hn]
        have hone : (treeEncoding .nil).length = 1 := rfl
        exact ⟨nofun, fun hlen => hlen.elim nofun fun h => by omega⟩
      · exact .of_covered (covered_full hk i) hi
    exact (ih i hgood hknown' hsize').conseq fun _ _ _ he => HashesTo.ready he

theorem encodeList_short {k : List Nibble} {ref : Bytes} (href : ref = treeRef c) :
    encodeList (encodeString (hexToCompact k) ++ ref) = treeEncoding (.short k c) := by
  rw [href]
  rfl

theorem encodeList_full {ts : Nibble → TrieTree} {refs : Nibble → Bytes} (href : ∀ i, refs i = treeRef (ts i)) :
    encodeList ((List.finRange 17).flatMap refs) = treeEncoding (.full ts) := by
  rw [treeEncoding]
  exact congrArg encodeList (List.flatMap_congr fun i _ => href i)

/-- **Hashing a node gives the hash of the tree that it stands for**, a node that stands
for the same tree, and with a database a tree that is stored. -/
theorem Node.hashWith_grows (hP : Distinct P) (h : Hasher) (n : Node) :
    ∀ {t : TrieTree} {root : Bool} {w0 : Writer}, Stands w0.get bound root n t → Good t ∨ t = .nil ∧ root = false →
      Known P root t → (db = true → size t ≤ bound) → Grows (Intact P w0) (Node.hashWith h db root n) (HashesTo bound db root t) := by
  induction n with
  | nil =>
    intro t root w0 hs hg _ _
    cases hs
    rcases hg with hg | ⟨_, rfl⟩
    · exact hg.inner.elim
    · exact .pure fun w _ => ⟨fun _ => rfl, nofun, .nil, nofun, fun _ hi => hi.elim⟩
  | value v =>
    intro t root w0 hs hg _ _
    cases hs
    rcases hg with hg | ⟨hg, _⟩
    · exact hg.inner.elim
    · cases hg
  | hash ref =>
    intro t root w0 hs hg _ _
    cases hs with
    | hash hh hst hlen =>
      subst hh
      refine .pure fun w hw => ⟨fun hr => (hst.inner.treeRef_hashed (hlen hr)).symm, fun _ => rfl, ?_, ?_, ?_⟩
      · exact .hash rfl (hst.mono hw.2 le_rfl) hlen
      · exact fun _ => hst.below.mono hw.2
      · exact fun _ _ _ => hw.2 _ _ hst.own
  | short k val flags ih =>
    intro t root w0 hs hg hk hsize
    have hst := hs
    cases hs with
    | @short _ _ _ c _ hc hm =>
      have hg : Good (.short k c) := hg.resolve_right fun hnil => nomatch hnil.1
      unfold Node.hashWith
      cases hknown : flags.known h db (.short k val flags) with
      | some r =>
        exact .pure fun w hw =>
          HashesTo.of_known hg (hst.mono hw.2 le_rfl) (hm.mono hw.2 le_rfl) hknown
      | none =>
        refine .bind (ofVal_grows hg hk.1 hsize hc (ih hc)) fun child w1 hw1 hready => ?_
        obtain ⟨href, hcached, hstored⟩ := hready
        rw [encodeList_short href]
        refine Grows.congr (finish_grows hP.free (Node.short k child.cached) hg.inner hk hsize
          (hm.mono hw1.2 le_rfl) hknown (hstored) ?_) (Intact.rebase hw1.2)
        intro w flags' hle hmarks
        exact .short (hcached.mono hle le_rfl) hmarks
  | full cs flags ih =>
    intro t root w0 hs hg hk hsize
    have hst := hs
    cases hs with
    | @full _ _ ts _ hc hm =>
      have hg : Good (.full ts) := hg.resolve_right fun hnil => nomatch hnil.1
      unfold Node.hashWith
      cases hknown : flags.known h db (.full cs flags) with
      | some r =>
        exact .pure fun w hw =>
          HashesTo.of_known hg (hst.mono hw.2 le_rfl) (hm.mono hw.2 le_rfl) hknown
      | none =>
        dsimp only
        refine .bind (children_grows hg hk.1 hsize hc fun i => ih i (hc i)) fun children w1 hw1 hready => ?_
        rw [encodeList_full fun i => (hready i).1]
        refine Grows.congr (finish_grows hP.free (Node.full fun i => (children i).cached) hg.inner hk hsize
          (hm.mono hw1.2 le_rfl) hknown (fun hdb bs hbs => ?_) ?_) (Intact.rebase hw1.2)
        · obtain ⟨i, _, hbs⟩ := List.mem_flatMap.mp hbs
          exact (hready i).2.2 hdb bs hbs
        · intro w flags' hle hmarks
          exact .full (fun i => (hready i).2.1.mono hle le_rfl) hmarks

/-! ## Without a database, and with another -/

variable {α : Type}

omit [Crypto] in
theorem exists_pure_forFin {n : Nat} {f : Fin n → EStateM PutError Writer α}
    (hf : ∀ i, ∃ a, f i = pure a) : ∃ g, forFin f = pure g := by
  induction n with
  | zero => exact ⟨Fin.elim0, rfl⟩
  | succ n ih =>
    obtain ⟨a, ha⟩ := hf 0
    obtain ⟨g, hg⟩ := ih fun i => hf i.succ
    refine ⟨Fin.cons a g, ?_⟩
    unfold forFin
    rw [ha, pure_bind, hg, pure_bind]

theorem exists_pure_store (root : Bool) (cached : Option Hash) (enc : Bytes) :
    ∃ ref, store false root cached enc = pure ref := by
  unfold store
  split
  · exact ⟨none, rfl⟩
  · exact ⟨some _, rfl⟩

/-- Hashing without a database does nothing else. -/
theorem Node.exists_pure_hashWith (h : Hasher) (n : Node) :
    ∀ root, ∃ r, Node.hashWith h false root n = pure r := by
  induction n with
  | nil | hash ref => exact fun _ => ⟨_, rfl⟩
  | value v =>
    intro root
    obtain ⟨ref, href⟩ := exists_pure_store root none (encodeString v)
    exact ⟨_, by rw [Node.hashWith, href, pure_bind]⟩
  | short k val flags ih =>
    intro root
    unfold Node.hashWith
    cases flags.known h false (.short k val flags) with
    | some r => exact ⟨r, rfl⟩
    | none =>
      have hchild : ∃ r, Hashed.ofVal val (Node.hashWith h false false val) = pure r := by
        unfold Hashed.ofVal
        split
        · exact ⟨_, rfl⟩
        · exact ih false
      obtain ⟨child, hchild⟩ := hchild
      dsimp only
      rw [hchild, pure_bind]
      obtain ⟨ref, href⟩ := exists_pure_store root flags.hash
        (encodeList (encodeString (hexToCompact k) ++ child.ref))
      exact ⟨_, by rw [href, pure_bind]⟩
  | full cs flags ih =>
    intro root
    unfold Node.hashWith
    cases flags.known h false (.full cs flags) with
    | some r => exact ⟨r, rfl⟩
    | none =>
      obtain ⟨children, hchildren⟩ := exists_pure_forFin (f := fun i : Nibble =>
          if i = Fin.last 16 then (pure (.ofLast (cs i)) : EStateM PutError Writer Hashed)
          else Node.hashWith h false false (cs i)) fun i => by
        split
        · exact ⟨_, rfl⟩
        · exact ih i false
      dsimp only
      rw [hchildren, pure_bind]
      obtain ⟨ref, href⟩ := exists_pure_store root flags.hash
        (encodeList ((List.finRange 17).flatMap fun i => (children i).ref))
      exact ⟨_, by rw [href, pure_bind]⟩

/-- A writer with the same answers over another store. -/
def Writer.over (w : Writer) (get : Hash → Option Bytes) : Writer := { w with get := get }

/-- A program whose outcome does not depend on what is stored. -/
def Blind {α : Type} (x : EStateM PutError Writer α) : Prop :=
  ∀ w get, ∃ get',
    match x w with
    | .ok a w' => x (w.over get) = .ok a (w'.over get')
    | .error e w' => x (w.over get) = .error e (w'.over get')

section
omit [Crypto]

theorem Blind.pure (a : α) : Blind (pure a) := fun _ get => ⟨get, rfl⟩

theorem Blind.bind {β : Type} {x : EStateM PutError Writer α} {f : α → EStateM PutError Writer β} (hx : Blind x)
    (hf : ∀ a, Blind (f a)) : Blind (x >>= f) := by
  intro w get
  obtain ⟨get', hx⟩ := hx w get
  cases hr : x w with
  | error e w' =>
    rw [hr] at hx
    refine ⟨get', ?_⟩
    rw [bind_of_error hr]
    exact bind_of_error hx
  | ok a w' =>
    rw [hr] at hx
    obtain ⟨get'', hf⟩ := hf a w' get'
    refine ⟨get'', ?_⟩
    rw [bind_of_ok hr, bind_of_ok hx]
    exact hf

theorem Blind.put (h : Hash) (enc : Bytes) : Blind (put h enc) := by
  intro w get
  rw [put_eq, put_eq]
  by_cases hf : w.fails w.puts
  · rw [if_pos hf]
    exact ⟨get, if_pos hf⟩
  · rw [if_neg hf]
    exact ⟨update get h (some enc), if_neg hf⟩

end

theorem Blind.store (db root : Bool) (cached : Option Hash) (enc : Bytes) : Blind (store db root cached enc) := by
  unfold Bgmchain.store
  split
  · exact .pure none
  · cases db with
    | true => exact .bind (.put _ _) fun _ => .pure _
    | false => exact .pure _

omit [Crypto] in
theorem Blind.forFin {n : Nat} {f : Fin n → EStateM PutError Writer α} (hf : ∀ i, Blind (f i)) :
    Blind (forFin f) := by
  induction n with
  | zero => exact .pure _
  | succ n ih => exact .bind (hf 0) fun _ => .bind (ih fun i => hf i.succ) fun _ => .pure _

/-- What hashing returns does not depend on what is stored. -/
theorem Node.blind_hashWith (h : Hasher) (db : Bool) (n : Node) : ∀ root, Blind (Node.hashWith h db root n) := by
  induction n with
  | nil | hash ref => exact fun _ => .pure _
  | value v => exact fun _ => .bind (.store _ _ _ _) fun _ => .pure _
  | short k val flags ih =>
    intro root
    unfold Node.hashWith
    cases flags.known h db (.short k val flags) with
    | some r => exact .pure r
    | none =>
      refine .bind ?_ fun _ => .bind (.store _ _ _ _) fun _ => .pure _
      unfold Hashed.ofVal
      split
      · exact .pure _
      · exact ih false
  | full cs flags ih =>
    intro root
    unfold Node.hashWith
    cases flags.known h db (.full cs flags) with
    | some r => exact .pure r
    | none =>
      refine .bind (.forFin fun i => ?_) fun _ => .bind (.store _ _ _ _) fun _ => .pure _
      split
      · exact .pure _
      · exact ih i false

end

end Bgmchain
