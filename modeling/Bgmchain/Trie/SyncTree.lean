import Bgmchain.Trie.Session
import Bgmchain.Trie.SyncRuns

/-! # Downloading a trie

A scheduler for one trie, without a callback, over a database that is closed: what it
asks for are the nodes of the trie, and when nothing is open and the batch has been
written, all of them are in the database. -/
namespace Bgmchain
open Common Lib Patricia Crypto
open List hiding lookup insert

/-- The trees directly below a node. -/
inductive ChildOf : TrieTree → TrieTree → Prop
  | short {k c} : ChildOf c (.short k c)
  | full {cs} (i : Nibble) : ChildOf (cs i) (.full cs)

variable {e t : TrieTree}

theorem ChildOf.size_lt (h : ChildOf e t) : size e < size t := by
  cases h with
  | short => exact Nat.lt_succ_self _
  | full i => exact size_child_lt _ i

theorem ChildOf.inner (h : ChildOf e t) : Inner t := by
  cases h with
  | short | full i => trivial

/-- The values of a tree. -/
def AllValues (ok : Bytes → Prop) : TrieTree → Prop
  | .nil => True
  | .leaf v => ok v
  | .short _ c => AllValues ok c
  | .full cs => ∀ i, AllValues ok (cs i)

variable {ok : Bytes → Prop}

theorem ChildOf.allValues (hc : ChildOf e t) (h : AllValues ok t) : AllValues ok e := by
  cases hc with
  | short => exact h
  | full i => exact h i

theorem AllValues.mono {ok' : Bytes → Prop} (h : AllValues ok t) (hle : ∀ v, ok v → ok' v) :
    AllValues ok' t := by
  induction t with
  | nil => trivial
  | leaf v => exact hle v h
  | short k c ih => exact ih h
  | full cs ih => exact fun i => ih i (h i)

theorem AllValues.lookup (h : AllValues ok t) :
    ∀ {path : List Nibble} {v : Bytes}, Patricia.lookup t path = some v → ok v := by
  induction t with
  | nil => exact nofun
  | leaf w =>
    intro path v hv
    cases path with
    | nil =>
      cases hv
      exact h
    | cons i path => cases hv
  | short k c ih =>
    intro path v hv
    rw [Patricia.lookup] at hv
    split at hv
    · exact ih h hv
    · cases hv
  | full cs ih =>
    intro path v hv
    cases path with
    | nil => cases hv
    | cons i path => exact ih i (h i) hv

section
variable [Crypto]

/-- A tree with everything that is hashed for it. -/
structure Part (P : Set Bytes) (t : TrieTree) : Prop where
  good : Good t
  known : Known P true t

/-- The strings that are stored for a tree. -/
def treeStrings : TrieTree → List Bytes
  | .nil => []
  | t => treeEncoding t :: treePreimages t

variable {P : Set Bytes} {e t : TrieTree}

theorem ChildOf.preimages (h : ChildOf e t) :
    ∀ bs ∈ childPreimages e (treeEncoding e) ++ treePreimages e, bs ∈ treePreimages t := by
  cases h with
  | short => exact fun bs hbs => hbs
  | full i => exact fun bs hbs => mem_flatMap.mpr ⟨i, mem_finRange i, hbs⟩

/-- A child that is stored on its own is a part as well. -/
theorem ChildOf.part (h : ChildOf e t) (ht : Part P t) (hi : Inner e) (hlen : 32 ≤ (treeEncoding e).length) : Part P e := by
  refine ⟨?_, fun bs hbs => ht.known.1 bs (h.preimages bs (mem_append_right _ hbs)), fun _ => ?_⟩
  · cases h with
    | short => exact ht.good.short hi
    | full i => exact ht.good.full hi
  · exact ht.known.1 _ (h.preimages _ (mem_append_left _ (hi.mem_childPreimages hlen)))

/-- The nodes of a tree that are stored on their own: the root and what is hashed below it. -/
inductive Own (t : TrieTree) : TrieTree → Prop
  | root : Own t t
  | child {e c : TrieTree} : Own t e → ChildOf c e → Inner c → 32 ≤ (treeEncoding c).length → Own t c

theorem Own.part (h : Own t e) (ht : Part P t) : Part P e := by
  induction h with
  | root => exact ht
  | child _ hc hi hlen ih => exact hc.part ih hi hlen

theorem Own.allValues {ok : Bytes → Prop} (ho : Own t e) (h : AllValues ok t) : AllValues ok e := by
  induction ho with
  | root => exact h
  | child _ hc _ _ ih => exact hc.allValues ih

theorem Inner.treeStrings_eq (hi : Inner t) : treeStrings t = treeEncoding t :: treePreimages t := by
  cases t with
  | nil | leaf v => exact hi.elim
  | short k c | full cs => rfl

theorem ChildOf.treeStrings (h : ChildOf e t) (hi : Inner e) (hlen : 32 ≤ (treeEncoding e).length) :
    ∀ bs ∈ treeStrings e, bs ∈ treeStrings t := by
  intro bs hbs
  rw [hi.treeStrings_eq] at hbs
  rw [h.inner.treeStrings_eq]
  refine mem_cons_of_mem _ (h.preimages bs ?_)
  rcases mem_cons.mp hbs with rfl | hbs
  · exact mem_append_left _ (hi.mem_childPreimages hlen)
  · exact mem_append_right _ hbs

theorem Own.treeStrings (h : Own t e) : ∀ bs ∈ treeStrings e, bs ∈ treeStrings t := by
  induction h with
  | root => exact fun _ hbs => hbs
  | child _ hc hi hlen ih => exact fun bs hbs => ih bs (hc.treeStrings hi hlen bs hbs)

theorem ChildOf.valued (h : ChildOf e t) (ht : Good t) : e = .nil ∨ (∃ v, e = .leaf v) ∨ Inner e := by
  cases h with
  | short =>
    rcases wf_short_cases ht.wf with ⟨_, hv⟩ | ⟨_, hi, _⟩
    · exact .inr (.inl hv)
    · exact .inr (.inr hi)
  | full i =>
    have hwc := (wf_full_iff.mp ht.wf).1 i
    by_cases hlast : i = Fin.last 16
    · exact (wfAt_last.mp (hlast ▸ hwc)).imp_right .inl
    · exact (wf_nil_or_inner ((wfAt_of_ne hlast).mp hwc)).imp_right .inr

/-- A reference is among what is encoded. -/
theorem ChildOf.treeRef_mem (h : ChildOf e t) : treeRef e ∈ treeItems t := by
  cases h with
  | short => exact mem_cons_of_mem _ mem_cons_self
  | full i => exact mem_map.mpr ⟨i, mem_finRange i, rfl⟩

/-- **A node that is written into its parent refers to nothing by hash.** -/
theorem treePreimages_of_short {t : TrieTree} (hlen : (treeEncoding t).length < 32) : treePreimages t = [] := by
  -- the reference to a child, and the child if it is written out, is shorter than the node
  have hchild : ∀ {e t : TrieTree}, ChildOf e t → (treeEncoding t).length < 32 →
      ((treeEncoding e).length < 32 → treePreimages e = []) →
      childPreimages e (treeEncoding e) ++ treePreimages e = [] := by
    intro e t hc hlen ih
    have hlt := hc.inner.length_items_lt hc.treeRef_mem
    have hinner : Inner e → (treeEncoding e).length < 32 := by
      intro hi
      by_contra hlarge
      rw [hi.treeRef_hashed (by omega), encodeString_hash, length_cons] at hlt
      have := (keccak256 (treeEncoding e)).length_eq
      omega
    cases e with
    | nil | leaf v => rfl
    | short k c | full cs => rw [ih (hinner trivial), childPreimages_of_lt (hinner trivial), append_nil]
  induction t with
  | nil | leaf v => rfl
  | short k c ih => exact hchild .short hlen ih
  | full cs ih =>
    rw [treePreimages]
    exact flatMap_eq_nil_iff.mpr fun i _ => hchild (.full i) hlen (ih i)

/-! ## What a node refers to -/

theorem kid_treeNode {gen : UInt16} {h : Option Hash} {depth : Nat} {child : Node × Nat}
    (hc : child ∈ (treeNode gen h t).kids depth) : ∃ e, ChildOf e t ∧ child.1 = refNode gen e := by
  cases t with
  | nil | leaf v => cases hc
  | short k c =>
    rw [mem_singleton.mp hc]
    exact ⟨c, .short, rfl⟩
  | full cs =>
    obtain ⟨i, _, hi⟩ := mem_filterMap.mp hc
    split at hi
    · cases hi
    · cases hi
      exact ⟨cs i, .full i, rfl⟩

theorem ChildOf.kid (hc : ChildOf e t) {gen : UInt16} (h : Option Hash) (depth : Nat) (hne : (refNode gen e).isNil = false) :
    ∃ child ∈ (treeNode gen h t).kids depth, child.1 = refNode gen e := by
  cases hc with
  | short => exact ⟨_, mem_cons_self, rfl⟩
  | @full cs i =>
    refine ⟨(refNode gen (cs i), depth + 1), mem_filterMap.mpr ⟨i, mem_finRange i, ?_⟩, rfl⟩
    exact if_neg fun hnil => Bool.false_ne_true (hne.symm.trans hnil)

/-- What a node refers to are its children, and what the callback says of its values. -/
theorem mem_refs {callback : Option LeafCallback} {h c : Hash} (ht : Good t) :
    c ∈ refs (false, callback) h (treeEncoding t) ↔ ∃ e, ChildOf e t ∧ c ∈ childRefs callback (refNode 0 e) := by
  have hrefs : refs (false, callback) h (treeEncoding t) =
      ((treeNode 0 (some h) t).kids 0).flatMap fun child => childRefs callback child.1 := by
    unfold refs
    rw [if_neg (by simp), ht.decoded]
  rw [hrefs, mem_flatMap]
  constructor
  · intro hc
    obtain ⟨child, hchild, hc⟩ := hc
    obtain ⟨e, he, heq⟩ := kid_treeNode hchild
    exact ⟨e, he, heq ▸ hc⟩
  · intro hc
    obtain ⟨e, he, hc⟩ := hc
    have hne : (refNode 0 e).isNil = false := by
      cases hr : refNode 0 e with
      | nil =>
        rw [hr] at hc
        cases hc
      | _ => rfl
    obtain ⟨child, hchild, heq⟩ := he.kid (some h) 0 hne
    exact ⟨child, hchild, heq.symm ▸ hc⟩

/-- A child refers to a hash if it is stored on its own. -/
theorem Inner.mem_childRefs (hi : Inner e) {callback : Option LeafCallback} {c : Hash} :
    c ∈ childRefs callback (refNode 0 e) ↔ 32 ≤ (treeEncoding e).length ∧ c = keccak256 (treeEncoding e) := by
  rw [hi.refNode_eq]
  split
  · refine ⟨fun hc => ?_, fun hc => by omega⟩
    cases e with
    | nil | leaf v => exact hi.elim
    | short k x | full cs => cases hc
  · exact mem_singleton.trans ⟨fun hc => ⟨by omega, hc⟩, And.right⟩

theorem Inner.childSuits (hi : Inner e) {asked : Hash → Kind → Prop} {callback : Option LeafCallback}
    (hasked : 32 ≤ (treeEncoding e).length → asked (keccak256 (treeEncoding e)) (false, callback)) :
    ChildSuits asked callback (refNode 0 e) := by
  rw [hi.refNode_eq]
  split
  · cases e with
    | nil | short k c | full cs => trivial
    | leaf v => exact hi.elim
  · exact hasked (by omega)

/-- A node can be taken if its values suit the callback and its nodes may be asked for. -/
theorem Good.suits (ht : Good t) {asked : Hash → Kind → Prop} {callback : Option LeafCallback}
    (hvalue : ∀ v, ChildOf (.leaf v) t → ChildSuits asked callback (.value v))
    (hnode : ∀ c, ChildOf c t → Inner c → 32 ≤ (treeEncoding c).length →
      asked (keccak256 (treeEncoding c)) (false, callback)) (h : Hash) :
    ∃ n, mustDecodeNode h 0 (treeEncoding t) = some n ∧ ∀ child ∈ n.kids 0, ChildSuits asked callback child.1 := by
  refine ⟨_, ht.decoded h 0, fun child hchild => ?_⟩
  obtain ⟨c, hc, heq⟩ := kid_treeNode hchild
  rw [heq]
  rcases hc.valued ht with rfl | ⟨v, rfl⟩ | hi
  · trivial
  · exact hvalue v hc
  · exact hi.childSuits (hnode c hc hi)

theorem childRefs_none {c : Hash} (he : e = .nil ∨ (∃ v, e = .leaf v) ∨ Inner e) (hc : c ∈ childRefs none (refNode 0 e)) :
    Inner e ∧ 32 ≤ (treeEncoding e).length ∧ c = keccak256 (treeEncoding e) := by
  rcases he with rfl | ⟨v, rfl⟩ | hi
  · cases hc
  · cases hc
  · exact ⟨hi, hi.mem_childRefs.mp hc⟩

/-- What is below a child that is stored, if it is stored on its own at all. -/
theorem ChildOf.stored {db : Hash → Option Bytes} (hc : ChildOf e t) (ht : Good t)
    (hown : Inner e → 32 ≤ (treeEncoding e).length →
      db (keccak256 (treeEncoding e)) = some (treeEncoding e) ∧ StoredBelow db e) :
    ∀ bs ∈ childPreimages e (treeEncoding e) ++ treePreimages e, db (keccak256 bs) = some bs := by
  have hinner : Inner e → ∀ bs ∈ childPreimages e (treeEncoding e) ++ treePreimages e, db (keccak256 bs) = some bs := by
    intro hi bs hbs
    by_cases hlen : (treeEncoding e).length < 32
    · rw [childPreimages_of_lt hlen, treePreimages_of_short hlen] at hbs
      cases hbs
    · obtain ⟨hstored, hbelow⟩ := hown hi (by omega)
      rcases mem_append.mp hbs with hbs | hbs
      · rw [hi.childPreimages_eq, if_neg hlen] at hbs
        rw [mem_singleton.mp hbs]
        exact hstored
      · exact hbelow bs hbs
  rcases hc.valued ht with rfl | ⟨v, rfl⟩ | hi
  · exact nofun
  · exact nofun
  · exact hinner hi

/-- **What is stored of a tree is stored with everything below it**, in a database that
is closed there. -/
theorem Own.storedBelow (hP : NoCollision P) {db : Hash → Option Bytes} (hdb : Keyed P db) (ht : Part P t)
    (hclosed : ∀ {e c : TrieTree}, Own t e → db (keccak256 (treeEncoding e)) = some (treeEncoding e) →
      ChildOf c e → Inner c → 32 ≤ (treeEncoding c).length → (db (keccak256 (treeEncoding c))).isSome) :
    Own t e → db (keccak256 (treeEncoding e)) = some (treeEncoding e) → StoredBelow db e := by
  -- a child that is stored on its own is found, and smaller
  have hchild : ∀ {c e : TrieTree}, Own t e → db (keccak256 (treeEncoding e)) = some (treeEncoding e) →
      ChildOf c e → (Own t c → db (keccak256 (treeEncoding c)) = some (treeEncoding c) → StoredBelow db c) →
      ∀ bs ∈ childPreimages c (treeEncoding c) ++ treePreimages c, db (keccak256 bs) = some bs := by
    intro c e ho hown hc ih
    refine hc.stored (ho.part ht).good fun hi hlen => ?_
    have hoc : Own t c := .child ho hc hi hlen
    obtain ⟨d, hd⟩ := Option.isSome_iff_exists.mp (hclosed ho hown hc hi hlen)
    have heq := hP _ (hdb.mem _ _ hd) _ ((hoc.part ht).known.2 (.inl rfl)) (hdb.hash _ _ hd)
    rw [heq] at hd
    exact ⟨hd, ih hoc hd⟩
  intro ho hown
  induction e with
  | nil | leaf v => exact (ho.part ht).good.inner.elim
  | short k c ih => exact hchild ho hown .short ih
  | full cs ih =>
    intro bs hbs
    obtain ⟨i, _, hbs⟩ := mem_flatMap.mp hbs
    exact hchild ho hown (.full i) (ih i) bs hbs

/-! ## The plan for one trie -/

/-- What comes for a hash has it. -/
def Correct (P : Set Bytes) (h : Hash) (d : Bytes) : Prop := keccak256 d = h ∧ d ∈ P

/-- The hashes of trees whose strings are known. -/
def IsPart (P : Set Bytes) (h : Hash) : Prop := ∃ t, Part P t ∧ h = keccak256 (treeEncoding t)

/-- A database in which no child of a stored node is missing. -/
def Closed (db : Hash → Option Bytes) : Prop :=
  ∀ h d, db h = some d → ∀ c ∈ refs (false, none) h d, (db c).isSome

theorem Correct.eq (hP : NoCollision P) (ht : Part P t) {d : Bytes}
    (hd : Correct P (keccak256 (treeEncoding t)) d) : d = treeEncoding t :=
  hP _ hd.2 _ (ht.known.2 (.inl rfl)) hd.1

/-- The plan of a scheduler for tries whose leaves have no callback. -/
def triePlan (P : Set Bytes) (handed : List Hash) : Plan :=
  runPlan (fun h kind => IsPart P h ∧ kind = (false, none)) (Correct P) (Correct P) (fun h d c => c ∈ refs (false, none) h d)
    handed

theorem sound_triePlan (hP : NoCollision P) : (triePlan P []).Sound := by
  refine sound_of_suits fun h kind d hasked hright => ?_
  obtain ⟨⟨t, ht, rfl⟩, rfl⟩ := hasked
  obtain rfl := Correct.eq hP ht hright
  refine ⟨fun _ hc => hc, nofun, fun _ => ht.good.suits ?_ ?_ _⟩
  · exact nofun
  · exact fun e he hi hlen => ⟨⟨e, he.part ht hi hlen, rfl⟩, rfl⟩

/-- As long as something is open, some data is waited for. -/
theorem exists_waiting (hP : NoCollision P) {s : TrieSync} {handed : List Hash} (hs : s.Steady (triePlan P handed))
    {r : Request} (hr : r ∈ s.requests) : ∃ r' ∈ s.requests, r'.data = none := by
  obtain ⟨⟨t, ht, hhash⟩, hkind⟩ := hs.asked r hr
  -- a request waits for children, which are smaller trees
  let place (t : TrieTree) (h : Hash) (kind : Kind) : Prop :=
    Part P t ∧ h = keccak256 (treeEncoding t) ∧ kind = (false, none)
  have hplace : place t r.hash r.kind := ⟨ht, hhash, hkind⟩
  refine hs.exists_waiting (measure size).wf ?_ t hr hplace
  intro t h kind d c kind' hplace hright href _ hasked
  obtain ⟨ht, rfl, rfl⟩ := hplace
  obtain rfl := Correct.eq hP ht hright
  obtain ⟨e, he, hc⟩ := (mem_refs ht.good).mp href
  obtain ⟨hi, hlen, heq⟩ := childRefs_none (he.valued ht.good) hc
  exact ⟨e, he.size_lt, he.part ht hi hlen, heq, hasked.2⟩

/-- **Downloading a trie is safe and complete.** In every state, also between the `Put`s of
a `Commit`, the database is closed; a request without data is in the queue or was handed
out; what is requested stays so until it is stored; as long as requests are open some wait
for data; and when none are open and the batch is written, the whole trie is stored. -/
theorem SyncRun.complete (hP : Distinct P) (hempty : keccak256 (Rlp.encodeString []) = emptyRoot)
    (hnil : Rlp.encodeString [] ∈ P) (ht : t = .nil ∨ Part P t) {db : Hash → Option Bytes} (hdb : Keyed P db)
    (hclosed : Closed db) {s : TrieSync} {handed : List Hash}
    (hrun : SyncRun (Correct P) (newTrieSync (treeHash t) db none, []) (s, handed)) : Closed s.database ∧
      (∀ r ∈ s.requests, r.data = none → r.hash ∈ handed ∨ ∃ depth, (r.hash, depth) ∈ s.queue) ∧
      (∀ {s' handed'}, SyncRun (Correct P) (s, handed) (s', handed') →
        ∀ r ∈ s.requests, (∃ r' ∈ s'.requests, r'.hash = r.hash) ∨ s'.Has r.hash) ∧
      (s.pending ≠ 0 → ∃ r ∈ s.requests, r.data = none) ∧
      (s.pending = 0 → s.order = [] → ∀ bs ∈ treeStrings t, s.database (keccak256 bs) = some bs) := by
  have hW := sound_triePlan hP.free
  have hright : ∀ h d, db h = some d → Correct P h d := fun h d hd => ⟨hdb.hash h d hd, hdb.mem h d hd⟩
  have hstart : (newTrieSync (treeHash t) db none).Steady (triePlan P []) ∧
      (Inner t → (newTrieSync (treeHash t) db none).Has (treeHash t) ∨
        ∃ r ∈ (newTrieSync (treeHash t) db none).requests, r.hash = treeHash t) := by
    rcases ht with rfl | ht
    · exact ⟨TrieSync.steady_idle hright hclosed, fun hi => hi.elim⟩
    · have hi := ht.good.inner
      obtain ⟨hs, hroot⟩ := TrieSync.steady_newTrieSync hW hright hclosed ⟨⟨t, ht, hi.treeHash_eq⟩, rfl⟩
      exact ⟨hs, fun _ => hroot (hi.treeHash_ne_emptyRoot hP hempty hnil (ht.known.2 (.inl rfl)))⟩
  obtain ⟨hs, hadv⟩ := hrun.steady hW hstart.1
  refine ⟨hs.closed, hs.queued, ?_, ?_, ?_⟩
  · intro s' handed' hrun' r hr
    exact ((hrun'.steady hW hs).2.kept r hr).imp_left fun ⟨r', hr', heq, _⟩ => ⟨r', hr', heq⟩
  · intro hpending
    obtain ⟨r, hr⟩ := exists_mem_of_ne_nil s.requests fun hn => hpending (length_eq_zero_iff.mpr hn)
    exact exists_waiting hP.free hs hr
  · intro hpending horder
    rcases ht with rfl | ht
    · exact nofun
    · have hi := ht.good.inner
      have hkeyed : Keyed P s.database :=
        ⟨fun h d hd => (hs.rightStore h d hd).1, fun h d hd => (hs.rightStore h d hd).2⟩
      obtain ⟨d, hd⟩ := Option.isSome_iff_exists.mp (hs.stored_of_done hadv (hstart.2 hi) hpending horder)
      rw [hi.treeHash_eq] at hd
      obtain rfl := Correct.eq hP.free ht (hs.rightStore _ _ hd)
      have hbelow : StoredBelow s.database t := Own.storedBelow hP.free hkeyed ht (fun {e c} ho hown hc hi hlen =>
        hs.closed _ _ hown _ ((mem_refs (ho.part ht).good).mpr ⟨c, hc, hi.mem_childRefs.mpr ⟨hlen, rfl⟩⟩)) .root hd
      intro bs hbs
      rw [hi.treeStrings_eq] at hbs
      rcases mem_cons.mp hbs with rfl | hbs
      · exact hd
      · exact hbelow bs hbs

end

namespace OneEntry

theorem part_tree : Part {bs | bs ∈ strings} tree :=
  ⟨⟨.leaf (terminated_keybytesToHex [1]), trivial, cons_ne_nil _ _, known.sized addressed.toDistinct⟩, known⟩

/-- The scheduler after its only node has come and the batch is written. -/
def downloaded : TrieSync :=
  (((newTrieSync (treeHash tree) disk.get none).process [(treeHash tree, treeEncoding tree)]).2.commitTo none).2

theorem tree_downloaded : downloaded.pending = 0 ∧ Closed downloaded.database ∧
      downloaded.database (treeHash tree) = some (treeEncoding tree) := by
  have hcorrect : ∀ item ∈ [(treeHash tree, treeEncoding tree)], Correct {bs | bs ∈ strings} item.1 item.2 := by
    intro item hitem
    rw [mem_singleton.mp hitem]
    exact ⟨rfl, mem_cons_of_mem _ mem_cons_self⟩
  have hrun : SyncRun (Correct {bs | bs ∈ strings}) (newTrieSync (treeHash tree) disk.get none, []) (downloaded, []) :=
    .tail (.tail .refl (.process _ hcorrect)) (.commit none)
  have hpending : downloaded.pending = 0 := by decide +kernel
  obtain ⟨hclosed, _, _, _, hstored⟩ := SyncRun.complete addressed.toDistinct rfl addressed.empty (.inr part_tree)
    keyed_disk nofun hrun
  exact ⟨hpending, hclosed, hstored hpending rfl _ mem_cons_self⟩

end OneEntry

end Bgmchain
