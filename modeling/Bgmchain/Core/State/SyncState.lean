import Bgmchain.Core.State.Sync
import Bgmchain.Trie.Reads

/-! # Downloading a state

A state is an account trie, the storage tries of its accounts and their code. A scheduler
made by `NewStateSync` knows all of it by hash alone: a string that is both the code of a
contract and a node of a trie is asked for once, as what it was needed as first, and counts
as present for the other. Below such a string the download may stop short. What is reached
without going through one is always downloaded. -/
namespace Bgmchain
open Common Lib Patricia Relation Rlp Crypto TrieSync Correct
open List hiding lookup insert

section
variable [Crypto]

/-! ## States -/

/-- What a state consists of: nodes of the account trie, nodes of storage tries, code. -/
inductive Item where
  | account (e : TrieTree)
  | storage (e : TrieTree)
  | code (c : Bytes)

namespace Item

def data : Item → Bytes
  | account e => treeEncoding e
  | storage e => treeEncoding e
  | code c => c

/-- What it is asked for as. -/
def kind : Item → Kind
  | account _ => (false, some accountLeaf)
  | storage _ => (false, none)
  | code _ => (true, none)

def hash (x : Item) : Hash := keccak256 x.data

def IsNode : Item → Prop
  | code _ => False
  | _ => True

end Item

/-- The storage trie and the code of an account. A storage slot is a word, as a string. -/
structure AccountParts (P : Set Bytes) (v : Bytes) (S : TrieTree) (c : Bytes) : Prop where
  decoded : ∃ obj, decodeAccount v = some obj ∧ obj.root = treeHash S ∧ bytesToHash obj.codeHash = keccak256 c
  storage : S = .nil ∨ Part P S
  keys : ByteKeys S
  slots : AllValues (·.length ≤ 33) S
  code : c ∈ P

/-- An account trie with all storage tries and code. -/
structure IsState (P : Set Bytes) (T : TrieTree) : Prop where
  part : T = .nil ∨ Part P T
  keys : ByteKeys T
  accounts : AllValues (fun v => ∃ S c, AccountParts P v S c) T

/-- All accounts, storage slots and code of a state are read. -/
structure Readable (P : Set Bytes) (T : TrieTree) (db : Hash → Option Bytes) : Prop where
  accounts : ReadsAs db T
  storage : ∀ key v S c, lookup T (keybytesToHex key) = some v → AccountParts P v S c → ReadsAs db S
  code : ∀ key v S c, lookup T (keybytesToHex key) = some v → AccountParts P v S c →
    keccak256 c ≠ emptyState → db (keccak256 c) = some c

/-- What has to be there with an item. No code is stored for the hash of the empty string. -/
inductive Uses (P : Set Bytes) : Item → Item → Prop
  | account {e c} : ChildOf c e → Inner c → 32 ≤ (treeEncoding c).length → Uses P (.account e) (.account c)
  | storage {e c} : ChildOf c e → Inner c → 32 ≤ (treeEncoding c).length → Uses P (.storage e) (.storage c)
  | root {e v S c} : ChildOf (.leaf v) e → AccountParts P v S c → Inner S → Uses P (.account e) (.storage S)
  | code {e v S c} : ChildOf (.leaf v) e → AccountParts P v S c → keccak256 c ≠ emptyState →
      Uses P (.account e) (.code c)

/-- The items of a state. -/
def Belongs (P : Set Bytes) (T : TrieTree) (x : Item) : Prop := Inner T ∧ ReflTransGen (Uses P) (.account T) x

/-- A string that is both code and a node. -/
def Ambiguous (P : Set Bytes) (T : TrieTree) (d : Bytes) : Prop :=
  Belongs P T (.code d) ∧ ∃ x, Belongs P T x ∧ x.IsNode ∧ x.data = d

/-- What is reached without going through ambiguous strings. -/
def Exposed (P : Set Bytes) (T : TrieTree) : Item → Prop :=
  ReflTransGen (fun x y => ¬ Ambiguous P T x.data ∧ Uses P x y) (.account T)

/-! ## Items of a state -/

/-- An item by itself. -/
def Item.Fine (P : Set Bytes) : Item → Prop
  | .account e => Part P e ∧ AllValues (fun v => ∃ S c, AccountParts P v S c) e
  | .storage e => Part P e ∧ AllValues (·.length ≤ 33) e
  | .code c => c ∈ P

variable {P : Set Bytes} {T : TrieTree} {x y : Item} {v c : Bytes} {S : TrieTree}

theorem AccountParts.part (h : AccountParts P v S c) (hi : Inner S) : Part P S :=
  h.storage.resolve_left hi.ne_nil

theorem AccountParts.long (h : AccountParts P v S c) : 36 < v.length := by
  obtain ⟨obj, hobj, _⟩ := h.decoded
  exact length_of_decodeAccount hobj

theorem AccountParts.ne_nil (h : AccountParts P v S c) : v ≠ [] :=
  ne_nil_of_length_pos (by have := h.long; omega)

theorem Uses.fine (h : Uses P x y) (hx : x.Fine P) : y.Fine P := by
  cases h with
  | account hc hi hlen | storage hc hi hlen => exact ⟨hc.part hx.1 hi hlen, hc.allValues hx.2⟩
  | root _ hparts hi => exact ⟨hparts.part hi, hparts.slots⟩
  | code _ hparts _ => exact hparts.code

theorem Belongs.fine (hT : IsState P T) (h : Belongs P T x) : x.Fine P := by
  obtain ⟨hi, hreach⟩ := h
  induction hreach with
  | refl => exact ⟨hT.part.resolve_left hi.ne_nil, hT.accounts⟩
  | tail _ huses ih => exact huses.fine ih

theorem Belongs.uses (h : Belongs P T x) (huses : Uses P x y) : Belongs P T y := ⟨h.1, h.2.tail huses⟩

theorem Exposed.belongs (hi : Inner T) (h : Exposed P T x) : Belongs P T x :=
  ⟨hi, ReflTransGen.mono (fun _ _ huses => huses.2) _ _ h⟩

theorem Item.Fine.mem (h : x.Fine P) : x.data ∈ P := by
  cases x with
  | account e | storage e => exact h.1.known.2 (.inl rfl)
  | code c => exact h

variable {d : Bytes}

theorem eq_data (hP : NoCollision P) (hx : x.Fine P) (hd : Correct P x.hash d) : d = x.data :=
  hP _ hd.2 _ hx.mem hd.1

variable {e : TrieTree}

theorem Part.ext (hP : Distinct P) {e' : TrieTree} (he : Part P e) (he' : Part P e')
    (heq : treeEncoding e = treeEncoding e') : e = e' :=
  readBack hP e e' he.good.wf he'.good.wf he.good.inner he'.good.inner he.good.valued he'.good.valued
    he.known.1 he'.known.1 he.good.sized.1 he'.good.sized.1 heq

/-- The values of the two kinds of tries are never the same. -/
theorem not_account_and_slots (he : Part P e) (haccounts : AllValues (fun v => ∃ S c, AccountParts P v S c) e)
    (hslots : AllValues (·.length ≤ 33) e) : False := by
  obtain ⟨key, v, _, hv⟩ := he.good.wf.exists_lookup he.good.inner.ne_nil
  obtain ⟨S, c, hparts⟩ := haccounts.lookup hv
  have hlong := hparts.long
  have hshort := hslots.lookup hv
  omega

/-- **A string is a node in one way only.** -/
theorem Item.Fine.node_ext (hP : Distinct P) (hx : x.Fine P) (hy : y.Fine P) (hnx : x.IsNode) (hny : y.IsNode)
    (heq : x.data = y.data) : x = y := by
  cases x with
  | code c => exact hnx.elim
  | account e =>
    cases y with
    | code c => exact hny.elim
    | account e' => rw [hx.1.ext hP hy.1 heq]
    | storage e' =>
      obtain rfl := hx.1.ext hP hy.1 heq
      exact (not_account_and_slots hx.1 hx.2 hy.2).elim
  | storage e =>
    cases y with
    | code c => exact hny.elim
    | account e' =>
      obtain rfl := hx.1.ext hP hy.1 heq
      exact (not_account_and_slots hx.1 hy.2 hx.2).elim
    | storage e' => rw [hx.1.ext hP hy.1 heq]

/-! ## What an item refers to -/

/-- What an account refers to. -/
theorem AccountParts.calls (h : AccountParts P v S c) :
    accountLeaf v = some [.subTrie (treeHash S) 64, .rawEntry (keccak256 c) 64] := by
  obtain ⟨obj, hobj, hroot, hcode⟩ := h.decoded
  unfold accountLeaf
  rw [hobj]
  dsimp only
  rw [hroot, hcode]

theorem AccountParts.mem_target (hP : Addressed P) (h : AccountParts P v S c) {r : Hash} :
    r ∈ (LeafCall.subTrie (treeHash S) 64).target ++ (LeafCall.rawEntry (keccak256 c) 64).target ↔
      (Inner S ∧ r = keccak256 (treeEncoding S)) ∨ (keccak256 c ≠ emptyState ∧ r = keccak256 c) := by
  have hstorage : r ∈ (if treeHash S = emptyRoot then [] else [treeHash S]) ↔
      Inner S ∧ r = keccak256 (treeEncoding S) := by
    rcases h.storage with rfl | hS
    · rw [if_pos (show treeHash .nil = emptyRoot from rfl)]
      exact ⟨nofun, fun hr => hr.1.elim⟩
    · have hi := hS.good.inner
      rw [if_neg (hi.treeHash_ne_emptyRoot hP.toDistinct hP.emptyRoot hP.empty (hS.known.2 (.inl rfl))), hi.treeHash_eq,
        mem_singleton]
      exact ⟨fun hr => ⟨hi, hr⟩, fun hr => hr.2⟩
  have hcode : r ∈ (if keccak256 c = emptyState then [] else [keccak256 c]) ↔
      keccak256 c ≠ emptyState ∧ r = keccak256 c := by
    split
    next heq =>
      exact ⟨nofun, fun hr => absurd heq hr.1⟩
    next hne =>
      rw [mem_singleton]
      exact ⟨fun hr => ⟨hne, hr⟩, fun hr => hr.2⟩
  rw [mem_append]
  exact or_congr hstorage hcode

/-- What a value below an account node refers to. -/
theorem AccountParts.mem_childRefs (hP : Addressed P) (h : AccountParts P v S c) {r : Hash} :
    r ∈ childRefs (some accountLeaf) (.value v) ↔ (Inner S ∧ r = keccak256 (treeEncoding S)) ∨
      (keccak256 c ≠ emptyState ∧ r = keccak256 c) := by
  rw [← h.mem_target hP]
  show r ∈ (((accountLeaf v).getD []).flatMap LeafCall.target) ↔ _
  rw [h.calls]
  simp

/-- **A string of a state refers to what has to be there with it.** -/
theorem Item.Fine.mem_refs (hP : Addressed P) (hx : x.Fine P) {h r : Hash} :
    r ∈ refs x.kind h x.data ↔ ∃ y, Uses P x y ∧ r = y.hash := by
  cases x with
  | account e =>
    refine (Bgmchain.mem_refs hx.1.good).trans ⟨?_, ?_⟩
    · intro hr
      obtain ⟨c, hc, hr⟩ := hr
      rcases hc.valued hx.1.good with rfl | ⟨v, rfl⟩ | hi
      · cases hr
      · obtain ⟨S, k, hparts⟩ := hc.allValues hx.2
        rcases (hparts.mem_childRefs hP).mp hr with ⟨hi, rfl⟩ | ⟨hne, rfl⟩
        · exact ⟨.storage S, .root hc hparts hi, rfl⟩
        · exact ⟨.code k, .code hc hparts hne, rfl⟩
      · obtain ⟨hlen, rfl⟩ := hi.mem_childRefs.mp hr
        exact ⟨.account c, .account hc hi hlen, rfl⟩
    · intro hr
      obtain ⟨y, huses, rfl⟩ := hr
      cases huses with
      | account hc hi hlen => exact ⟨_, hc, hi.mem_childRefs.mpr ⟨hlen, rfl⟩⟩
      | root hc hparts hi => exact ⟨_, hc, (hparts.mem_childRefs hP).mpr (.inl ⟨hi, rfl⟩)⟩
      | code hc hparts hne => exact ⟨_, hc, (hparts.mem_childRefs hP).mpr (.inr ⟨hne, rfl⟩)⟩
  | storage e =>
    refine (Bgmchain.mem_refs hx.1.good).trans ⟨?_, ?_⟩
    · intro hr
      obtain ⟨c, hc, hr⟩ := hr
      obtain ⟨hi, hlen, rfl⟩ := childRefs_none (hc.valued hx.1.good) hr
      exact ⟨.storage c, .storage hc hi hlen, rfl⟩
    · intro hr
      obtain ⟨y, huses, rfl⟩ := hr
      cases huses with
      | storage hc hi hlen => exact ⟨_, hc, hi.mem_childRefs.mpr ⟨hlen, rfl⟩⟩
  | code c => exact ⟨nofun, fun ⟨_, huses, _⟩ => nomatch huses⟩

/-! ## The plan for a state -/

/-- What may be asked for. -/
def AskedIn (B : Item → Prop) (h : Hash) (kind : Kind) : Prop := ∃ x, B x ∧ h = x.hash ∧ kind = x.kind

/-- What is sure to be stored with a string that is not ambiguous. -/
def KeptWith (P : Set Bytes) (T : TrieTree) (_ : Hash) (d : Bytes) (c : Hash) : Prop :=
  ¬ Ambiguous P T d ∧ ∃ x y, Belongs P T x ∧ x.data = d ∧ Uses P x y ∧ c = y.hash

/-- A string that is not ambiguous is one item. -/
theorem Belongs.ext (hP : Distinct P) (hT : IsState P T) (hx : Belongs P T x) (hy : Belongs P T y) (heq : x.data = y.data)
    (hone : ¬ Ambiguous P T x.data) : x = y := by
  have hnode : ∀ {x y : Item}, Belongs P T x → Belongs P T y → x.data = y.data → ¬ Ambiguous P T x.data →
      x.IsNode → y.IsNode := by
    intro x y hx hy heq hone hnx
    cases y with
    | account e | storage e => trivial
    | code c =>
      refine hone ⟨?_, x, hx, hnx, rfl⟩
      rw [heq]
      exact hy
  cases x with
  | account e | storage e => exact (hx.fine hT).node_ext hP (hy.fine hT) trivial (hnode hx hy heq hone trivial) heq
  | code c =>
    cases y with
    | code c' => exact congrArg Item.code heq
    | account e | storage e => exact (hnode hy hx heq.symm (heq ▸ hone) trivial).elim

variable {B : Item → Prop}

/-- An account suits its callback, if its storage and its code may be asked for. -/
theorem AccountParts.childSuits (h : AccountParts P v S c)
    (hstorage : Inner S → B (.storage S)) (hcode : keccak256 c ≠ emptyState → B (.code c)) :
    ChildSuits (AskedIn B) (some accountLeaf) (.value v) := by
  intro f hf
  cases hf
  refine ⟨_, h.calls, fun call hcall => ?_⟩
  rcases mem_cons.mp hcall with rfl | hcall
  · intro hne
    rcases h.storage with rfl | hS
    · exact absurd rfl hne
    · exact ⟨.storage S, hstorage hS.good.inner, hS.good.inner.treeHash_eq, rfl⟩
  · rw [mem_singleton.mp hcall]
    exact fun hne => ⟨.code c, hcode hne, rfl, rfl⟩

/-- A node of a state can be taken, if what it uses may be asked for. -/
theorem Item.Fine.children (hx : x.Fine P) (huses : ∀ y, Uses P x y → B y) (hnode : x.kind.1 = false)
    (h : Hash) : ∃ n, mustDecodeNode h 0 x.data = some n ∧ ∀ child ∈ n.kids 0, ChildSuits (AskedIn B) x.kind.2 child.1 := by
  cases x with
  | account e =>
    refine hx.1.good.suits (fun v hc => ?_) (fun c hc hi hlen => ?_) h
    · obtain ⟨S, k, hparts⟩ := hc.allValues hx.2
      exact hparts.childSuits (fun hi => huses _ (.root hc hparts hi)) fun hne => huses _ (.code hc hparts hne)
    · exact ⟨.account c, huses _ (.account hc hi hlen), rfl, rfl⟩
  | storage e =>
    refine hx.1.good.suits ?_ ?_ h
    · exact nofun
    · exact fun c hc hi hlen => ⟨.storage c, huses _ (.storage hc hi hlen), rfl, rfl⟩
  | code c => cases hnode

/-- **A plan for items of a state is sound**, if taking an item lets all be asked for that
it uses. -/
theorem sound_state (hP : Addressed P) (hT : IsState P T) {right stored : Hash → Bytes → Prop}
    (hB : ∀ x, B x → Belongs P T x) (hright : ∀ h d, right h d → stored h d) (hstored : ∀ h d, stored h d → Correct P h d)
    (hclosed : ∀ x y, B x → right x.hash x.data → Uses P x y → B y) :
    (runPlan (AskedIn B) right stored (KeptWith P T) []).Sound := by
  refine ⟨?_, hright, ?_⟩
  · intro h kind d hasked hd
    obtain ⟨x, hx, rfl, rfl⟩ := hasked
    have hfine := (hB x hx).fine hT
    obtain rfl := eq_data hP.free hfine (hstored _ _ (hright _ _ hd))
    refine ⟨?_, ?_, fun hnode => hfine.children (fun y => hclosed x y hx hd) hnode _⟩
    · intro c hc
      obtain ⟨hone, x', y, hx', heq, huses, rfl⟩ := hc
      obtain rfl := (hB x hx).ext hP.toDistinct hT hx' heq.symm hone
      exact (hfine.mem_refs hP).mpr ⟨y, huses, rfl⟩
    · exact fun _ => hP.zero _ hfine.mem
  · intro h kind d hasked hnode hd
    obtain ⟨x, hx, rfl, rfl⟩ := hasked
    have hfine := (hB x hx).fine hT
    obtain rfl := eq_data hP.free hfine (hstored _ _ hd)
    obtain ⟨n, hn, _⟩ := hfine.children (B := fun _ => True) (fun _ _ => trivial) hnode x.hash
    exact ⟨n, hn⟩

/-! ## Items that are stored -/

/-- A database with what is needed by the items it has, ambiguous strings apart. -/
def Settled (P : Set Bytes) (T : TrieTree) (db : Hash → Option Bytes) : Prop :=
  ∀ x y, Belongs P T x → ¬ Ambiguous P T x.data → Uses P x y → (db x.hash).isSome → (db y.hash).isSome

theorem Own.belongs (hi : Inner T) (h : Own T e) : Belongs P T (.account e) := by
  induction h with
  | root => exact ⟨hi, .refl⟩
  | child _ hc hi hlen ih => exact ih.uses (.account hc hi hlen)

theorem Own.belongs_storage (hS : Belongs P T (.storage S)) (h : Own S e) : Belongs P T (.storage e) := by
  induction h with
  | root => exact hS
  | child _ hc hi hlen ih => exact ih.uses (.storage hc hi hlen)

/-- Where an item belongs. -/
def Item.Placed (P : Set Bytes) (T : TrieTree) : Item → Prop
  | .account e => Own T e
  | .storage e => ∃ a v S c, Own T a ∧ ChildOf (.leaf v) a ∧ AccountParts P v S c ∧ Inner S ∧ Own S e
  | .code c => ∃ a v S, Own T a ∧ ChildOf (.leaf v) a ∧ AccountParts P v S c ∧ keccak256 c ≠ emptyState

theorem Belongs.placed (h : Belongs P T x) : x.Placed P T := by
  obtain ⟨_, hreach⟩ := h
  induction hreach with
  | refl => exact .root
  | tail _ huses ih =>
    cases huses with
    | account hc hi hlen => exact .child ih hc hi hlen
    | storage hc hi hlen =>
      obtain ⟨a, v, S, c, ha, hv, hparts, hS, ho⟩ := ih
      exact ⟨a, v, S, c, ha, hv, hparts, hS, .child ho hc hi hlen⟩
    | root hc hparts hi => exact ⟨_, _, _, _, ih, hc, hparts, hi, .root⟩
    | code hc hparts hne => exact ⟨_, _, _, ih, hc, hparts, hne⟩

variable {t : TrieTree} {path : List Nibble}

omit [Crypto] in
theorem ChildOf.exists_lookup {c : TrieTree} (h : ChildOf c t)
    (hv : lookup c path = some v) : ∃ path', lookup t path' = some v := by
  cases h with
  | @short k _ => exact ⟨k ++ path, by rw [lookup_short_append, hv]⟩
  | full i => exact ⟨i :: path, hv⟩

theorem Own.exists_lookup {a : TrieTree} (h : Own t a) (hv : lookup a path = some v) :
    ∃ path', lookup t path' = some v := by
  induction h generalizing path with
  | root => exact ⟨path, hv⟩
  | child _ hc _ _ ih =>
    obtain ⟨path', hv'⟩ := hc.exists_lookup hv
    exact ih hv'

/-- A node above a long value is not written into its parent. -/
theorem length_of_long (ht : Good t) (hlong : AllValues (32 ≤ ·.length) t) : 32 ≤ (treeEncoding t).length := by
  -- a child that is there takes up at least 32 bytes
  have hchild : ∀ {c t : TrieTree}, Good t → ChildOf c t → c ≠ .nil → AllValues (32 ≤ ·.length) c →
      (Inner c → 32 ≤ (treeEncoding c).length) → 32 ≤ (treeEncoding t).length := by
    intro c t ht hc hne hlong ih
    have hlt := hc.inner.length_items_lt hc.treeRef_mem
    rcases hc.valued ht with rfl | ⟨v, rfl⟩ | hi
    · exact absurd rfl hne
    · have hle := length_le_encodeString v
      have hv : 32 ≤ v.length := hlong
      have : (treeRef (.leaf v)).length = (encodeString v).length := rfl
      omega
    · rw [hi.treeRef_hashed (ih hi), encodeString_hash, length_cons] at hlt
      have := (keccak256 (treeEncoding c)).length_eq
      omega
  induction t with
  | nil | leaf v => exact ht.inner.elim
  | short k c ih =>
    have hne : c ≠ .nil := by
      rcases wf_short_cases ht.wf with ⟨_, v, rfl⟩ | ⟨_, hi, _⟩
      · exact nofun
      · exact hi.ne_nil
    exact hchild ht .short hne hlong fun hi => ih (ht.short hi) hlong
  | full cs ih =>
    obtain ⟨i, _, _, hi, _⟩ := (wf_full_iff.mp ht.wf).2
    exact hchild ht (.full i) hi (hlong i) fun hi => ih i (ht.full hi) (hlong i)

/-- **A long value stands directly below a node that is stored on its own.** -/
theorem exists_own_of_lookup (ht : Good t) (hlong : AllValues (32 ≤ ·.length) t) :
    ∀ {path : List Nibble} {v : Bytes}, lookup t path = some v → ∃ a, Own t a ∧ ChildOf (.leaf v) a := by
  -- it is the child on the way, or it is below it
  have hchild : ∀ {c t : TrieTree}, Good t → ChildOf c t → AllValues (32 ≤ ·.length) c → (Inner c → Good c) →
      (Inner c → ∀ {path v}, lookup c path = some v → ∃ a, Own c a ∧ ChildOf (.leaf v) a) →
      ∀ {path v}, lookup c path = some v → ∃ a, Own t a ∧ ChildOf (.leaf v) a := by
    intro c t ht hc hlong hgood ih path v hv
    rcases hc.valued ht with rfl | ⟨w, rfl⟩ | hi
    · cases hv
    · cases path with
      | nil =>
        cases hv
        exact ⟨t, .root, hc⟩
      | cons i path => cases hv
    · obtain ⟨a, ha, hleaf⟩ := ih hi hv
      exact ⟨a, ha.cons hc hi (length_of_long (hgood hi) hlong), hleaf⟩
  induction t with
  | nil | leaf v => exact ht.inner.elim
  | short k c ih =>
    intro path v hv
    rw [lookup] at hv
    split at hv
    · exact hchild ht .short hlong ht.short (fun hi => ih (ht.short hi) hlong) hv
    · cases hv
  | full cs ih =>
    intro path v hv
    cases path with
    | nil => cases hv
    | cons i path => exact hchild ht (.full i) (hlong i) ht.full (fun hi => ih i (ht.full hi) (hlong i)) hv

theorem IsState.long (hT : IsState P T) : AllValues (32 ≤ ·.length) T := by
  refine hT.accounts.mono fun v hv => ?_
  obtain ⟨S, c, hparts⟩ := hv
  have := hparts.long
  omega

/-- An account stands below a node of the account trie. -/
theorem IsState.exists_own (hT : IsState P T) (hv : lookup T path = some v) :
    Inner T ∧ ∃ a, Own T a ∧ ChildOf (.leaf v) a := by
  rcases hT.part with rfl | hpart
  · cases hv
  · exact ⟨hpart.good.inner, exists_own_of_lookup hpart.good hT.long hv⟩

theorem ChildOf.exists_key (hT : IsState P T) {a : TrieTree} (ha : Own T a) (hv : ChildOf (.leaf v) a) :
    ∃ key, lookup T (keybytesToHex key) = some v := by
  have hself : lookup (.leaf v : TrieTree) [] = some v := rfl
  obtain ⟨path, hpath⟩ := hv.exists_lookup hself
  obtain ⟨path', hpath'⟩ := ha.exists_lookup hpath
  obtain ⟨key, rfl⟩ := hT.keys _ _ hpath'
  exact ⟨key, hpath'⟩

/-- **A state is readable exactly when all its items are stored.** -/
theorem IsState.readable_iff (hP : Addressed P) (hT : IsState P T) {db : Hash → Option Bytes} (hdb : Keyed P db) :
    Readable P T db ↔ ∀ x, Belongs P T x → (db x.hash).isSome := by
  constructor
  · intro hread x hx
    have hpart := hT.part.resolve_left hx.1.ne_nil
    have hplaced := hx.placed
    cases x with
    | account e => exact (hpart.readsAs_iff hP hdb hT.keys).mp hread.accounts e hplaced
    | storage e =>
      obtain ⟨a, v, S, c, ha, hv, hparts, hi, ho⟩ := hplaced
      obtain ⟨key, hkey⟩ := hv.exists_key hT ha
      exact ((hparts.part hi).readsAs_iff hP hdb hparts.keys).mp (hread.storage key v S c hkey hparts) e ho
    | code c =>
      obtain ⟨a, v, S, ha, hv, hparts, hne⟩ := hplaced
      obtain ⟨key, hkey⟩ := hv.exists_key hT ha
      have hcode : db (Item.code c).hash = some c := hread.code key v S c hkey hparts hne
      rw [hcode]
      rfl
  · intro hall
    refine ⟨?_, ?_, ?_⟩
    · rcases hT.part with rfl | hpart
      · exact readsAs_nil db
      · exact (hpart.readsAs_iff hP hdb hT.keys).mpr fun e ho => hall _ (ho.belongs hpart.good.inner)
    · intro key v S c hv hparts
      obtain ⟨hi, a, ha, hleaf⟩ := hT.exists_own hv
      rcases hparts.storage with rfl | hS
      · exact readsAs_nil db
      · have hroot := (ha.belongs (P := P) hi).uses (.root hleaf hparts hS.good.inner)
        exact (hS.readsAs_iff hP hdb hparts.keys).mpr fun e ho => hall _ (ho.belongs_storage hroot)
    · intro key v S c hv hparts hne
      obtain ⟨hi, a, ha, hleaf⟩ := hT.exists_own hv
      obtain ⟨d, hd⟩ := Option.isSome_iff_exists.mp (hall _ ((ha.belongs (P := P) hi).uses (.code hleaf hparts hne)))
      have heq := hP.free _ (hdb.mem _ _ hd) _ hparts.code (hdb.hash _ _ hd)
      rw [heq] at hd
      exact hd

/-! ## Downloading -/

/-- All strings of a state are reached without going through ambiguous ones. -/
def AllExposed (P : Set Bytes) (T : TrieTree) : Prop := ∀ x, Belongs P T x → ∃ y, Exposed P T y ∧ y.data = x.data

variable {s : TrieSync}

/-- What a download keeps up, and that it ends with the root. -/
theorem steady_state (hP : Addressed P) (hT : IsState P T) (hi : Inner T) {db : Hash → Option Bytes} (hdb : Keyed P db)
    (hsettled : Settled P T db) {handed : List Hash}
    (hrun : SyncRun (Correct P) (newStateSync (treeHash T) db, []) (s, handed)) :
    s.Steady (runPlan (AskedIn (Belongs P T)) (Correct P) (Correct P) (KeptWith P T) handed) ∧
      (s.pending = 0 → s.order = [] → (s.database (Item.account T).hash).isSome) := by
  have hpart := hT.part.resolve_left hi.ne_nil
  have hW := sound_state (B := Belongs P T) hP hT (fun _ hx => hx) (fun _ _ hd => hd) (fun _ _ hd => hd)
    fun _ _ hx _ huses => hx.uses huses
  obtain ⟨hstart, hroot⟩ := steady_newTrieSync hW (fun h d hd => ⟨hdb.hash h d hd, hdb.mem h d hd⟩)
    (fun h d hd c hc => by
      obtain ⟨hone, x, y, hx, rfl, huses, rfl⟩ := hc
      have hh : h = x.hash := (hdb.hash h _ hd).symm
      rw [hh] at hd
      exact hsettled x y hx hone huses (by rw [hd]; rfl))
    ⟨.account T, ⟨hi, .refl⟩, hi.treeHash_eq, rfl⟩
  have hroot := hroot (hi.treeHash_ne_emptyRoot hP.toDistinct hP.emptyRoot hP.empty (hpart.known.2 (.inl rfl)))
  obtain ⟨hs, hadv⟩ := hrun.steady hW hstart
  refine ⟨hs, fun hpending horder => ?_⟩
  have hstored := hs.stored_of_done hadv hroot hpending horder
  rwa [hi.treeHash_eq] at hstored

theorem keyed_state {asked right keeps handed} (hs : s.Steady (runPlan asked right (Correct P) keeps handed)) :
    Keyed P s.database :=
  ⟨fun h d hd => (hs.rightStore h d hd).1, fun h d hd => (hs.rightStore h d hd).2⟩

/-- Exposed items are downloaded. -/
theorem stored_of_exposed (hP : Addressed P) (hT : IsState P T) (hi : Inner T) {handed : List Hash}
    (hs : s.Steady (runPlan (AskedIn (Belongs P T)) (Correct P) (Correct P) (KeptWith P T) handed))
    (hroot : (s.database (Item.account T).hash).isSome) (hy : Exposed P T y) : (s.database y.hash).isSome := by
  induction hy with
  | refl => exact hroot
  | @tail x y hx huses ih =>
    have hbelongs := Exposed.belongs hi hx
    obtain ⟨d, hd⟩ := Option.isSome_iff_exists.mp ih
    obtain rfl := eq_data hP.free (hbelongs.fine hT) (hs.rightStore _ _ hd)
    exact hs.closed _ _ hd _ ⟨huses.1, x, y, hbelongs, rfl, huses.2, rfl⟩

/-! ## A database that hides what lies below ambiguous strings -/

omit [Crypto] in
/-- Along a well-founded relation with finitely many steps everywhere, finitely much is reached. -/
theorem finite_reached {α : Type} {r : α → α → Prop} (hwf : WellFounded fun y x => r x y) (hsteps : ∀ x, {y | r x y}.Finite)
    (x : α) : {y | ReflTransGen r x y}.Finite := by
  induction x using hwf.induction with
  | _ x ih =>
    refine ((hsteps x).biUnion ih).insert x |>.subset fun z hz => ?_
    rcases ReflTransGen.cases_head hz with rfl | ⟨y, hy, hz⟩
    · exact Set.mem_insert _ _
    · exact Set.mem_insert_of_mem _ (Set.mem_biUnion hy hz)

/-- The items an item uses come after it: storage and code after accounts, smaller trees after larger. -/
def Item.rank : Item → ℕ × ℕ
  | .account e => (1, size e)
  | .storage e => (0, size e)
  | .code _ => (0, 0)

theorem wellFounded_uses : WellFounded fun y x => Uses P x y := by
  refine Subrelation.wf (fun {y x} huses => ?_) (InvImage.wf Item.rank (Nat.lt_wfRel.wf.prod_lex Nat.lt_wfRel.wf))
  cases huses with
  | account hc _ _ | storage hc _ _ => exact .right _ hc.size_lt
  | root _ _ _ | code _ _ _ => exact .left _ _ Nat.one_pos

omit [Crypto] in
theorem finite_children (t : TrieTree) : {c | ChildOf c t}.Finite := by
  cases t with
  | nil | leaf v => exact Set.finite_empty.subset fun c hc => nomatch hc
  | short k c =>
    refine (Set.finite_singleton c).subset fun x hx => ?_
    cases hx
    rfl
  | full cs =>
    refine (Set.finite_range cs).subset fun x hx => ?_
    cases hx with
    | full i => exact ⟨i, rfl⟩

/-- A value is one account. -/
theorem AccountParts.unique (hP : Addressed P) {c' : Bytes} {S' : TrieTree} (h : AccountParts P v S c)
    (h' : AccountParts P v S' c') : S = S' ∧ c = c' := by
  obtain ⟨obj, hobj, hroot, hcode⟩ := h.decoded
  obtain ⟨obj', hobj', hroot', hcode'⟩ := h'.decoded
  rw [hobj] at hobj'
  cases hobj'
  have hwf : ∀ {S : TrieTree}, S = .nil ∨ Part P S → WF S ∧ Valued S ∧
      (Inner S → treeEncoding S ∈ P ∧ ∀ bs ∈ treePreimages S, bs ∈ P) := by
    intro S hS
    rcases hS with rfl | hS
    · exact ⟨.nil, trivial, fun hi => hi.elim⟩
    · exact ⟨hS.good.wf, hS.good.valued, fun _ => ⟨hS.known.2 (.inl rfl), hS.known.1⟩⟩
  obtain ⟨hw, hv, hk⟩ := hwf h.storage
  obtain ⟨hw', hv', hk'⟩ := hwf h'.storage
  exact ⟨treeHash_inj hP.toDistinct hP.emptyRoot hP.empty hw hw' hv hv' hk hk' (hroot.symm.trans hroot'),
    hP.free _ h.code _ h'.code (hcode.symm.trans hcode')⟩

theorem finite_uses (hP : Addressed P) (x : Item) : {y | Uses P x y}.Finite := by
  cases x with
  | account e =>
    -- a child is used itself, or it is an account
    have hvalue : ∀ c : TrieTree, {y : Item | ∃ v S k, c = .leaf v ∧ AccountParts P v S k ∧ (y = .storage S ∨ y = .code k)}.Finite := by
      intro c
      by_cases hc : ∃ v S k, c = .leaf v ∧ AccountParts P v S k
      · obtain ⟨v, S, k, rfl, hparts⟩ := hc
        refine (Set.toFinite {.storage S, .code k}).subset fun y hy => ?_
        obtain ⟨v', S', k', heq, hparts', hy⟩ := hy
        cases heq
        obtain ⟨rfl, rfl⟩ := hparts.unique hP hparts'
        exact hy
      · refine Set.finite_empty.subset fun y hy => hc ?_
        obtain ⟨v, S, k, heq, hparts, _⟩ := hy
        exact ⟨v, S, k, heq, hparts⟩
    refine ((finite_children e).biUnion fun c _ => (hvalue c).insert (.account c)).subset fun y hy => ?_
    cases hy with
    | account hc _ _ => exact Set.mem_biUnion hc (Set.mem_insert _ _)
    | root hc hparts _ => exact Set.mem_biUnion hc (Set.mem_insert_of_mem _ ⟨_, _, _, rfl, hparts, .inl rfl⟩)
    | code hc hparts _ => exact Set.mem_biUnion hc (Set.mem_insert_of_mem _ ⟨_, _, _, rfl, hparts, .inr rfl⟩)
  | storage e =>
    refine ((finite_children e).image Item.storage).subset fun y hy => ?_
    cases hy with
    | storage hc _ _ => exact ⟨_, hc, rfl⟩
  | code c => exact Set.finite_empty.subset fun y hy => nomatch hy

open Classical in
/-- All ambiguous strings but one. -/
noncomputable def concealing (P : Set Bytes) (T : TrieTree) (missing : Bytes) (h : Hash) : Option Bytes :=
  if hd : ∃ d, keccak256 d = h ∧ Ambiguous P T d ∧ d ≠ missing then some hd.choose else none

theorem concealing_eq_some {missing : Bytes} {h : Hash} (hd : concealing P T missing h = some d) :
    keccak256 d = h ∧ Ambiguous P T d ∧ d ≠ missing := by
  unfold concealing at hd
  split at hd
  next hex =>
    cases hd
    exact hex.choose_spec
  · cases hd

theorem isSome_concealing {missing : Bytes} (hd : Ambiguous P T d) (hne : d ≠ missing) :
    (concealing P T missing (keccak256 d)).isSome := by
  unfold concealing
  rw [dif_pos ⟨d, rfl, hd, hne⟩]
  rfl

theorem Ambiguous.mem (hT : IsState P T) (h : Ambiguous P T d) : d ∈ P := h.1.fine hT

/-- **A string that is not exposed may stay away.** -/
theorem exists_unread (hP : Addressed P) (hT : IsState P T) {missing : Item} (hmissing : Belongs P T missing)
    (hhidden : ∀ y, Exposed P T y → y.data ≠ missing.data) :
    ∃ s, SyncRun (Correct P) (newStateSync (treeHash T) (concealing P T missing.data), []) (s, []) ∧ s.pending = 0 ∧
      s.order = [] ∧ s.database missing.hash = none := by
  have hi := hmissing.1
  let fed (h : Hash) (d : Bytes) : Prop := Correct P h d ∧ ¬ Ambiguous P T d ∧ ∃ y, Exposed P T y ∧ y.data = d
  let stored (h : Hash) (d : Bytes) : Prop :=
    Correct P h d ∧ ((Ambiguous P T d ∧ d ≠ missing.data) ∨ ∃ y, Exposed P T y ∧ y.data = d)
  have hW : (runPlan (AskedIn (Exposed P T)) fed stored (KeptWith P T) []).Sound :=
    sound_state hP hT (fun _ hx => Exposed.belongs hi hx) (fun _ _ hd => ⟨hd.1, .inr hd.2.2⟩) (fun _ _ hd => hd.1)
      fun x y hx hd huses => hx.tail ⟨hd.2.1, huses⟩
  have hstart : (newStateSync (treeHash T) (concealing P T missing.data)).Steady
      (runPlan (AskedIn (Exposed P T)) fed stored (KeptWith P T) []) := by
    refine (steady_newTrieSync hW ?_ ?_ ⟨.account T, .refl, hi.treeHash_eq, rfl⟩).1
    · intro h d hd
      obtain ⟨hh, hamb, hne⟩ := concealing_eq_some hd
      exact ⟨⟨hh, hamb.mem hT⟩, .inl ⟨hamb, hne⟩⟩
    · intro h d hd c hc
      exact absurd (concealing_eq_some hd).2.1 hc.1
  have hfinite : {y | ReflTransGen (Uses P) (.account T) y}.Finite := finite_reached wellFounded_uses (finite_uses hP) _
  obtain ⟨s, hrun, hend⟩ := SyncRun.exists_fed hW (fun _ _ hd => hd) hstart
    (F := (hfinite.image Item.hash).toFinset)
    (fun h kind hasked _ => by
      obtain ⟨x, hx, rfl, _⟩ := hasked
      exact (Set.Finite.mem_toFinset _).mpr ⟨x, (Exposed.belongs hi hx).2, rfl⟩) le_rfl
  obtain ⟨hs, hadv⟩ := hrun.steady hW hstart
  -- what is waited for is not ambiguous, since the others are there
  have hone : ∀ {x}, Exposed P T x → ¬ s.Has x.hash → ¬ Ambiguous P T x.data := by
    intro x hx hnot hamb
    refine hnot (hadv.has _ (.inr ?_))
    rw [newStateSync, database_newTrieSync]
    exact isSome_concealing hamb (hhidden x hx)
  have hpending : s.pending = 0 := by
    by_contra hpending
    obtain ⟨r, hr⟩ := exists_mem_of_ne_nil s.requests fun hn => hpending (length_eq_zero_iff.mpr hn)
    obtain ⟨x, hx, hhash, hkind⟩ := hs.asked r hr
    let place (x : Item) (h : Hash) (kind : Kind) : Prop := Exposed P T x ∧ h = x.hash ∧ kind = x.kind
    have hplace : place x r.hash r.kind := ⟨hx, hhash, hkind⟩
    obtain ⟨r', hr', hdata⟩ := hs.exists_waiting wellFounded_uses (fun x h kind d c kind' hplace hd href hnot hasked => by
      obtain ⟨hx, rfl, rfl⟩ := hplace
      have hfine := (Exposed.belongs hi hx).fine hT
      obtain rfl := eq_data hP.free hfine hd.1
      obtain ⟨y, huses, rfl⟩ := (hfine.mem_refs hP).mp href
      have hy : Exposed P T y := hx.tail ⟨hd.2.1, huses⟩
      obtain ⟨y', hy', heq, rfl⟩ := hasked
      have hbelongs := Exposed.belongs hi hy
      have hbelongs' := Exposed.belongs hi hy'
      have hdata : y.data = y'.data := hP.free _ (hbelongs.fine hT).mem _ (hbelongs'.fine hT).mem heq
      obtain rfl := hbelongs.ext hP.toDistinct hT hbelongs' hdata (hone hy hnot)
      exact ⟨y, huses, hy, rfl, rfl⟩) x hr hplace
    obtain ⟨y, hy, hhash', _⟩ := hs.asked r' hr'
    refine hend r' hr' hdata y.data ⟨⟨hhash'.symm, ((Exposed.belongs hi hy).fine hT).mem⟩, ?_, y, hy, rfl⟩
    exact hone hy (hhash' ▸ hs.not_has hr')
  have hall : SyncRun fed (newStateSync (treeHash T) (concealing P T missing.data), []) ((s.commitTo none).2, []) :=
    .tail hrun (.commit none)
  refine ⟨_, hall.mono fun _ _ hd => hd.1, hpending, rfl, ?_⟩
  -- only exposed strings and other ambiguous ones have come
  cases hd : (s.commitTo none).2.database missing.hash with
  | none => rfl
  | some d =>
    obtain ⟨hcorrect, hwhy⟩ := (hall.steady hW hstart).1.rightStore _ _ hd
    obtain rfl := eq_data hP.free (hmissing.fine hT) hcorrect
    rcases hwhy with ⟨_, hne⟩ | ⟨y, hy, heq⟩
    · exact absurd rfl hne
    · exact absurd heq (hhidden y hy)

/-- **A state is read after every download exactly when all its strings are exposed.** The
database at the start may hold any strings with what they need, ambiguous strings apart. -/
theorem readable_iff_allExposed (hP : Addressed P) (hT : IsState P T) :
    (∀ db, Keyed P db → Settled P T db → ∀ s handed,
      SyncRun (Correct P) (newStateSync (treeHash T) db, []) (s, handed) → s.pending = 0 → s.order = [] →
        Readable P T s.database) ↔ AllExposed P T := by
  constructor
  · intro hread missing hmissing
    by_contra hhidden
    push Not at hhidden
    obtain ⟨s, hrun, hpending, horder, hnone⟩ := exists_unread hP hT hmissing hhidden
    have hkeyed : Keyed P (concealing P T missing.data) :=
      ⟨fun h d hd => (concealing_eq_some hd).1, fun h d hd => (concealing_eq_some hd).2.1.mem hT⟩
    have hsettled : Settled P T (concealing P T missing.data) := by
      intro x y hx hone _ hsome
      obtain ⟨d, hd⟩ := Option.isSome_iff_exists.mp hsome
      obtain ⟨hh, hamb, _⟩ := concealing_eq_some hd
      obtain rfl := eq_data hP.free (hx.fine hT) ⟨hh, hamb.mem hT⟩
      exact absurd hamb hone
    obtain ⟨hs, _⟩ := steady_state hP hT hmissing.1 hkeyed hsettled hrun
    have hsome := (hT.readable_iff hP (keyed_state hs)).mp (hread _ hkeyed hsettled s [] hrun hpending horder)
      missing hmissing
    rw [hnone] at hsome
    cases hsome
  · intro hexposed db hdb hsettled s handed hrun hpending horder
    rcases hT.part with rfl | hpart
    · exact ⟨readsAs_nil _, nofun, nofun⟩
    · have hi := hpart.good.inner
      obtain ⟨hs, hroot⟩ := steady_state hP hT hi hdb hsettled hrun
      refine (hT.readable_iff hP (keyed_state hs)).mpr fun x hx => ?_
      obtain ⟨y, hy, heq⟩ := hexposed x hx
      have hsome := stored_of_exposed hP hT hi hs (hroot hpending horder) hy
      unfold Item.hash at hsome ⊢
      rwa [heq] at hsome

/-- Without ambiguous strings everything is exposed. -/
theorem allExposed_of_not_ambiguous (h : ∀ d, ¬ Ambiguous P T d) : AllExposed P T :=
  fun x hx => ⟨x, ReflTransGen.mono (fun _ _ huses => ⟨h _, huses⟩) _ _ hx.2, rfl⟩

end

/-! ## Two accounts -/

namespace TwoAccounts

/-- The first bytes as hash, but for the string whose hash is the root of the empty trie. -/
scoped instance : Crypto where
  keccak256 b := if b = encodeString [] then emptyRoot else .ofBytes 32 ((b ++ [1]).take 32)
  keccak512 b := .ofBytes 64 b
  ecrecover _ _ := none

/-- Two entries, at the keys `00` and `10`. -/
def pair (v w : Bytes) : TrieTree :=
  .full fun i => if i = 0 then .short [0, 16] (.leaf v) else if i = 1 then .short [0, 16] (.leaf w) else .nil

theorem wf_pair (v w : Bytes) : WF (pair v w) := by
  have hleaf : ∀ u : Bytes, WF (.short [0, 16] (.leaf u) : TrieTree) := fun u => .leaf rfl
  refine wf_full_iff.mpr ⟨fun i => ?_, 0, 1, by decide, nofun, nofun⟩
  by_cases hlast : i = Fin.last 16
  · rw [hlast]
    exact wfAt_last.mpr (.inl rfl)
  · refine (wfAt_of_ne hlast).mpr ?_
    split
    · exact hleaf v
    · split
      · exact hleaf w
      · exact .nil

theorem first_child (v w : Bytes) : ChildOf (.short [0, 16] (.leaf v)) (pair v w) :=
  (.full 0 : ChildOf _ (pair v w))

theorem second_child (v w : Bytes) : ChildOf (.short [0, 16] (.leaf w)) (pair v w) :=
  (.full 1 : ChildOf _ (pair v w))

theorem lookup_pair {v w u : Bytes} {path : List Nibble} (h : lookup (pair v w) path = some u) :
    path = keybytesToHex [0x00] ∧ u = v ∨ path = keybytesToHex [0x10] ∧ u = w := by
  have hleaf : ∀ {v : Bytes} {rest : List Nibble}, lookup (.short [0, 16] (.leaf v) : TrieTree) rest = some u →
      rest = [0, 16] ∧ u = v := by
    intro v rest hrest
    rw [lookup] at hrest
    split at hrest
    next hpre =>
      obtain ⟨more, rfl⟩ := hpre
      cases more with
      | nil =>
        cases hrest
        exact ⟨rfl, rfl⟩
      | cons i more => cases hrest
    · cases hrest
  cases path with
  | nil => cases h
  | cons i rest =>
    unfold pair at h
    rw [lookup] at h
    split at h
    next hi =>
      obtain ⟨rfl, rfl⟩ := hleaf h
      exact .inl ⟨by rw [hi]; rfl, rfl⟩
    · split at h
      next hi =>
        obtain ⟨rfl, rfl⟩ := hleaf h
        exact .inr ⟨by rw [hi]; rfl, rfl⟩
      · cases h

theorem byteKeys_pair (v w : Bytes) : ByteKeys (pair v w) := by
  intro path u h
  rcases lookup_pair h with ⟨rfl, _⟩ | ⟨rfl, _⟩
  · exact ⟨_, rfl⟩
  · exact ⟨_, rfl⟩

theorem allValues_pair {ok : Bytes → Prop} {v w : Bytes} (hv : ok v) (hw : ok w) : AllValues ok (pair v w) := by
  intro i
  dsimp only
  split
  · exact hv
  · split
    · exact hw
    · trivial

theorem part_pair {P : Set Bytes} (hP : Distinct P) {v w : Bytes} (hv : v ≠ []) (hw : w ≠ [])
    (hknown : ∀ bs ∈ treeStrings (pair v w), bs ∈ P) : Part P (pair v w) := by
  have hvalued : Valued (pair v w) := by
    intro i
    dsimp only
    split
    · exact hv
    · split
      · exact hw
      · trivial
  have hk : Known P true (pair v w) :=
    ⟨fun bs hbs => hknown bs (mem_cons_of_mem _ hbs), fun _ => hknown _ mem_cons_self⟩
  exact ⟨⟨wf_pair v w, trivial, hvalued, hk.sized hP⟩, hk⟩

/-- A storage trie, whose first slot takes a node of its own. -/
def storageTree : TrieTree := pair (0xa0 :: List.replicate 32 7) [5]

def accountValue (nonce : UInt8) (root codeHash : Hash) : Bytes :=
  encodeList (encodeString [nonce] ++ encodeString [] ++ encodeString root.bytes ++ encodeString codeHash.bytes)

/-- An account with this code, and one with the storage trie. -/
def state (code : Bytes) : TrieTree :=
  pair (accountValue 1 emptyRoot (keccak256 code)) (accountValue 2 (treeHash storageTree) (keccak256 []))

/-- All that is hashed. -/
def strings (code : Bytes) : List Bytes :=
  encodeString [] :: [] :: code :: (treeStrings (state code) ++ treeStrings storageTree)

/-- What the hashes of a state have to be like. -/
structure Free (code : Bytes) : Prop where
  free : ∀ a ∈ strings code, ∀ b ∈ strings code, keccak256 a = keccak256 b → a = b
  size : ∀ bs ∈ strings code, bs.length < 256 ^ 8
  zero : ∀ bs ∈ strings code, keccak256 bs ≠ .zero 32
  first : (decodeAccount (accountValue 1 emptyRoot (keccak256 code))).map
    (fun obj => (obj.root, bytesToHash obj.codeHash)) = some (emptyRoot, keccak256 code)

section
variable {code : Bytes} (h : Free code)
include h

theorem Free.addressed : Addressed {bs | bs ∈ strings code} := ⟨⟨h.free, h.size⟩, mem_cons_self, rfl, h.zero⟩

theorem Free.part_storage : Part {bs | bs ∈ strings code} storageTree :=
  part_pair h.addressed.toDistinct (cons_ne_nil _ _) (cons_ne_nil _ _) fun _ hbs =>
    mem_cons_of_mem _ (mem_cons_of_mem _ (mem_cons_of_mem _ (mem_append_right _ hbs)))

theorem Free.first_parts :
    AccountParts {bs | bs ∈ strings code} (accountValue 1 emptyRoot (keccak256 code)) .nil code := by
  obtain ⟨obj, hobj, heq⟩ := Option.map_eq_some_iff.mp h.first
  refine ⟨⟨obj, hobj, congrArg Prod.fst heq, congrArg Prod.snd heq⟩, .inl rfl, nofun, trivial, ?_⟩
  exact mem_cons_of_mem _ (mem_cons_of_mem _ mem_cons_self)

theorem Free.second_parts : AccountParts {bs | bs ∈ strings code}
    (accountValue 2 (treeHash storageTree) (keccak256 [])) storageTree [] := by
  have hsecond : (decodeAccount (accountValue 2 (treeHash storageTree) (keccak256 []))).map
      (fun obj => (obj.root, bytesToHash obj.codeHash)) = some (treeHash storageTree, keccak256 []) := rfl
  obtain ⟨obj, hobj, heq⟩ := Option.map_eq_some_iff.mp hsecond
  refine ⟨⟨obj, hobj, congrArg Prod.fst heq, congrArg Prod.snd heq⟩, .inr h.part_storage, byteKeys_pair _ _, ?_, ?_⟩
  · exact allValues_pair (by simp) (by simp)
  · exact mem_cons_of_mem _ mem_cons_self

theorem Free.isState : IsState {bs | bs ∈ strings code} (state code) := by
  refine ⟨.inr ?_, byteKeys_pair _ _, allValues_pair ⟨_, _, h.first_parts⟩ ⟨_, _, h.second_parts⟩⟩
  exact part_pair h.addressed.toDistinct h.first_parts.ne_nil h.second_parts.ne_nil fun _ hbs =>
    mem_cons_of_mem _ (mem_cons_of_mem _ (mem_cons_of_mem _ (mem_append_left _ hbs)))

end

/-- Strings as they are delivered, each under its hash. -/
def deliver (ds : List Bytes) (s : TrieSync) : TrieSync :=
  ds.foldl (fun s d => (s.process [(keccak256 d, d)]).2) s

theorem syncRun_deliver {P : Set Bytes} {ds : List Bytes} (hds : ∀ d ∈ ds, d ∈ P) {s : TrieSync} {handed : List Hash} :
    SyncRun (Correct P) (s, handed) (deliver ds s, handed) := by
  induction ds generalizing s with
  | nil => exact .refl
  | cons d ds ih =>
    refine .head (.process _ fun item hitem => ?_) (ih fun d hd => hds d (mem_cons_of_mem _ hd))
    rw [mem_singleton.mp hitem]
    exact ⟨rfl, hds d mem_cons_self⟩

/-- A state is downloaded in this order and written. -/
def downloaded (code : Bytes) (ds : List Bytes) : TrieSync :=
  ((deliver ds (newStateSync (treeHash (state code)) fun _ => none)).commitTo none).2

def rootNode (code : Bytes) : Bytes := treeEncoding (state code)

def leafNode (v : Bytes) : Bytes := treeEncoding (.short [0, 16] (.leaf v))

/-- The code of the first account is the root of the other's storage trie. -/
def sharedCode : Bytes := treeEncoding storageTree

def sharedOrder : List Bytes :=
  [rootNode sharedCode, leafNode (accountValue 1 emptyRoot (keccak256 sharedCode)), sharedCode,
    leafNode (accountValue 2 (treeHash storageTree) (keccak256 []))]

theorem keyed_none (P : Set Bytes) : Keyed P fun _ => none := ⟨nofun, nofun⟩

theorem settled_none (P : Set Bytes) (T : TrieTree) : Settled P T fun _ => none := nofun

theorem free_shared : Free sharedCode where
  free := by decide +kernel
  size := by decide +kernel
  zero := by decide +kernel
  first := rfl

/-- **The storage of the second account stays away.** The root of its storage trie comes as
the code of the first account, before it is asked for as a node; what is below it is never
asked for. -/
theorem shared_code_hides_storage : IsState {bs | bs ∈ strings sharedCode} (state sharedCode) ∧
      SyncRun (Correct {bs | bs ∈ strings sharedCode}) (newStateSync (treeHash (state sharedCode)) fun _ => none, [])
        (downloaded sharedCode sharedOrder, []) ∧
      (downloaded sharedCode sharedOrder).pending = 0 ∧ (downloaded sharedCode sharedOrder).order = [] ∧
      ¬ Readable {bs | bs ∈ strings sharedCode} (state sharedCode) (downloaded sharedCode sharedOrder).database := by
  have hstate := free_shared.isState
  have hrun : SyncRun (Correct {bs | bs ∈ strings sharedCode})
      (newStateSync (treeHash (state sharedCode)) fun _ => none, []) (downloaded sharedCode sharedOrder, []) :=
    .tail (syncRun_deliver (by decide +kernel)) (.commit none)
  refine ⟨hstate, hrun, by decide +kernel, rfl, fun hread => ?_⟩
  have hi : Inner (state sharedCode) := trivial
  obtain ⟨hs, _⟩ := steady_state free_shared.addressed hstate hi (keyed_none _) (settled_none _ _) hrun
  have hstored := (hstate.readable_iff free_shared.addressed (keyed_state hs)).mp hread
  -- the node of the first slot
  have haccount : Belongs {bs | bs ∈ strings sharedCode} (state sharedCode) (.account (.short [0, 16] (.leaf _))) :=
    Own.belongs hi (.child .root (second_child _ _) trivial (by decide +kernel))
  have hslot : Belongs {bs | bs ∈ strings sharedCode} (state sharedCode)
      (.storage (.short [0, 16] (.leaf (0xa0 :: List.replicate 32 7)))) :=
    (haccount.uses (.root .short free_shared.second_parts trivial)).uses (.storage (first_child _ _) trivial (by decide +kernel))
  have hsome := hstored _ hslot
  have hnone : (downloaded sharedCode sharedOrder).database (keccak256 (leafNode (0xa0 :: List.replicate 32 7))) = none := by
    decide +kernel
  unfold Item.hash Item.data at hsome
  unfold leafNode at hnone
  dsimp only at hsome
  rw [hnone] at hsome
  cases hsome

theorem free_plain : Free [1, 2, 3] where
  free := by decide +kernel
  size := by decide +kernel
  zero := by decide +kernel
  first := rfl

/-- The code is no node. -/
theorem not_ambiguous_plain (d : Bytes) : ¬ Ambiguous {bs | bs ∈ strings [1, 2, 3]} (state [1, 2, 3]) d := by
  intro hamb
  obtain ⟨hcode, x, hx, hnode, rfl⟩ := hamb
  obtain ⟨a, v, S, ha, hv, hparts, hne⟩ := hcode.placed
  obtain ⟨key, hkey⟩ := hv.exists_key free_plain.isState ha
  rcases lookup_pair hkey with ⟨_, rfl⟩ | ⟨_, rfl⟩
  · obtain ⟨_, heq⟩ := hparts.unique free_plain.addressed free_plain.first_parts
    have hfalse : x.kind.1 = false := by
      cases x with
      | account e | storage e => rfl
      | code c => exact hnode.elim
    obtain ⟨n, hn, _⟩ := (hx.fine free_plain.isState).children (B := fun _ => True) (fun _ _ => trivial) hfalse (.zero 32)
    rw [heq] at hn
    have hnone : mustDecodeNode (.zero 32) 0 [1, 2, 3] = none := rfl
    rw [hnone] at hn
    cases hn
  · obtain ⟨_, heq⟩ := hparts.unique free_plain.addressed free_plain.second_parts
    rw [heq] at hne
    exact hne rfl

/-- Everything, from the root down. -/
def plainOrder : List Bytes :=
  [rootNode [1, 2, 3], leafNode (accountValue 1 emptyRoot (keccak256 [1, 2, 3])), [1, 2, 3],
    leafNode (accountValue 2 (treeHash storageTree) (keccak256 [])), treeEncoding storageTree,
    leafNode (0xa0 :: List.replicate 32 7)]

theorem plain_code_readable : (downloaded [1, 2, 3] plainOrder).pending = 0 ∧
      Readable {bs | bs ∈ strings [1, 2, 3]} (state [1, 2, 3]) (downloaded [1, 2, 3] plainOrder).database := by
  have hrun : SyncRun (Correct {bs | bs ∈ strings [1, 2, 3]})
      (newStateSync (treeHash (state [1, 2, 3])) fun _ => none, []) (downloaded [1, 2, 3] plainOrder, []) :=
    .tail (syncRun_deliver (by decide +kernel)) (.commit none)
  have hpending : (downloaded [1, 2, 3] plainOrder).pending = 0 := by decide +kernel
  exact ⟨hpending, (readable_iff_allExposed free_plain.addressed free_plain.isState).mpr
    (allExposed_of_not_ambiguous not_ambiguous_plain) _ (keyed_none _) (settled_none _ _) _ _ hrun hpending rfl⟩

end TwoAccounts

end Bgmchain
