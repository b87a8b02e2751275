import Bgmchain.Trie.Session

/-! # Merkle proofs

`trie/proof.go`. `Prove` writes the nodes on the way of a key that are stored under a
hash, and `VerifyProof` follows the way through a database that anyone may have filled.
What the verifier accepts is what the trie holds; what the prover writes is accepted,
but for the empty trie, which has no node to write. -/
namespace Bgmchain
open Common Lib Patricia Growing Rlp Crypto
open List hiding lookup insert
open Lib.Hoare (except_bind_ok)

/-! ## Proving -/

/-- The walk of `Prove`: the nodes on the way, without hash nodes. It panics at a value
that has more key below it. -/
def Node.nodesOn (db : NodeDatabase) (gen : UInt16) : Nat → Node → List Nibble → Except TrieError (List Node)
  | _, _, [] => .ok []
  | _, .nil, _ :: _ => .ok []
  | 0, _, _ :: _ => .error .exhausted
  | f + 1, .short k val flags, i :: key =>
    if k <+: i :: key then do
      let rest ← Node.nodesOn db gen f val ((i :: key).drop k.length)
      .ok (.short k val flags :: rest)
    else .ok [.short k val flags]
  | f + 1, .full cs flags, i :: key => do
    let rest ← Node.nodesOn db gen f (cs i) key
    .ok (.full cs flags :: rest)
  | f + 1, .hash h, i :: key => do
    let n ← resolveHash db gen h []
    Node.nodesOn db gen f n (i :: key)
  | _ + 1, .value _, _ :: _ => .error .invalidNode

theorem Node.nodesOn_nil (db : NodeDatabase) (gen : UInt16) (f : Nat) (n : Node) : Node.nodesOn db gen f n [] = .ok [] := by
  rw [Node.nodesOn]

/-- `cache` -/
def Node.cachedHash : Node → Option Hash
  | .short _ _ flags => flags.hash
  | .full _ flags => flags.hash
  | _ => none

section
variable [Crypto]

/-- `hashChildren` without a database, by the encoding of the node that it returns. -/
def Node.hashChildren (h : Hasher) : Node → EStateM PutError Writer Bytes
  | .short k val _ => do
    let child ← Hashed.ofVal val (Node.hashWith h false false val)
    pure (encodeList (encodeString (hexToCompact k) ++ child.ref))
  | .full cs _ => do
    let children ← forFin fun i : Nibble =>
      if i = Fin.last 16 then pure (.ofLast (cs i)) else Node.hashWith h false false (cs i)
    pure (encodeList ((List.finRange 17).flatMap fun i => (children i).ref))
  | .value v => pure (encodeString v)
  | .hash ref => pure (encodeString ref.bytes)
  | .nil => pure (encodeString [])

/-- The second loop of `Prove`: what is put into the database. `first` marks the root. -/
def proofPuts (h : Hasher) : Bool → Nat → List Node → EStateM PutError Writer (List (Hash × Bytes))
  | _, _, [] => pure []
  | first, fromLevel, n :: rest => do
    let enc ← n.hashChildren h
    let hash ← store false false n.cachedHash enc
    if hash.isSome || first then
      match fromLevel with
      | fromLevel + 1 => proofPuts h false fromLevel rest
      | 0 =>
        let puts ← proofPuts h false 0 rest
        pure ((hash.getD (keccak256 enc), enc) :: puts)
    else proofPuts h false fromLevel rest

/-- `Prove`; it ignores the prefix of the trie and what `Put` returns. -/
def Trie.prove (t : Trie) (key : Bytes) (fromLevel : Nat) : Except TrieError (List (Hash × Bytes)) := do
  let nodes ← Node.nodesOn t.db t.cachegen (t.root.fuel t.db) t.root (keybytesToHex key)
  match proofPuts ⟨0, 0⟩ true fromLevel nodes .idle with
  | .ok puts _ => .ok puts
  | .error _ _ => .ok []

end

/-- A database after some puts. -/
def written (get : Hash → Option Bytes) (puts : List (Hash × Bytes)) : Hash → Option Bytes :=
  puts.foldl (fun get p => Function.update get p.1 (some p.2)) get

/-! ## Verifying -/

/-- `get`. It panics at a branch when the key is used up. -/
def Node.get : Node → List Nibble → Option (List Nibble × Node)
  | .short k val _, key => if k <+: key then val.get (key.drop k.length) else some ([], .nil)
  | .full cs _, i :: key => (cs i).get key
  | .full _ _, [] => none
  | .hash h, key => some (key, .hash h)
  | .nil, key => some (key, .nil)
  | .value v, _ => some ([], .value v)

inductive ProofError where
  | missing (i : Nat) (hash : Hash)
  | bad (i : Nat)
  | indexOutOfRange
deriving DecidableEq

/-- The loop of `VerifyProof`, which has no bound of its own. -/
def verifyFrom (db : Hash → Option Bytes) :
    Nat → Nat → Hash → List Nibble → Option (Except ProofError (Option Bytes) × Nat)
  | 0, _, _, _ => none
  | f + 1, i, wantHash, key =>
    match db wantHash with
    | none => some (.error (.missing i wantHash), i)
    | some buf =>
      match mustDecodeNode wantHash 0 buf with
      | none => some (.error (.bad i), i)
      | some n =>
        match n.get key with
        | none => some (.error .indexOutOfRange, i)
        | some (_, .nil) => some (.ok none, i)
        | some (keyrest, .hash cld) => verifyFrom db f (i + 1) cld keyrest
        | some (_, .value v) => some (.ok (some v), i + 1)
        | some (_, _) => verifyFrom db f (i + 1) wantHash key

/-- `VerifyProof`, within so many rounds. -/
def verifyProof (db : Hash → Option Bytes) (rounds : Nat) (rootHash : Hash) (key : Bytes) :
    Option (Except ProofError (Option Bytes) × Nat) :=
  verifyFrom db rounds 0 rootHash (keybytesToHex key)

/-! ## What the prover writes -/

section
variable [Crypto] {P : Set Bytes} {get : Hash → Option Bytes} {bound : Nat}

/-- What is written for the trees on the way. -/
def treePuts : Bool → List TrieTree → List (Hash × Bytes)
  | _, [] => []
  | first, t :: rest =>
    if 32 ≤ (treeEncoding t).length ∨ first = true then
      (keccak256 (treeEncoding t), treeEncoding t) :: treePuts false rest
    else treePuts false rest

/-- A node on the way and the tree it stands for. -/
structure Passed (get : Hash → Option Bytes) (bound : Nat) (n : Node) (t : TrieTree) : Prop where
  stands : ∃ b, Stands get bound b n t
  good : Good t
  resolved : n.Resolved

variable {t : TrieTree}

theorem Stands.nodesOn (gen : UInt16) {n : Node} (hl : Loads (.ofStore get bound) n t) {b : Bool} {key : List Nibble}
    {f : Nat} (hs : Stands get bound b n t) (hg : Inner t → Good t) (hf : Fits t key) (hneed : n.need t ≤ f) :
    ∃ ns, Node.nodesOn (.ofStore get bound) gen f n key = .ok ns ∧
      List.Forall₂ (Passed get bound) ns (along t key) := by
  replace hl := hl.walks hneed
  clear hneed
  induction hl generalizing b key with
  | nil =>
    refine ⟨[], ?_, .nil⟩
    cases key with
    | nil => exact Node.nodesOn_nil ..
    | cons i key => rw [Node.nodesOn]
  | value hv =>
    rw [hf.leaf_key]
    exact ⟨[], Node.nodesOn_nil .., .nil⟩
  | @short f k val c flags hl _ ih =>
    have hgood := hg trivial
    obtain ⟨i, rest, rfl⟩ := exists_cons_of_ne_nil hf.key_ne_nil.1.ne_nil
    have hself : Passed get bound (.short k val flags) (.short k c) := ⟨⟨b, hs⟩, hgood, trivial⟩
    by_cases hp : k <+: i :: rest
    · obtain ⟨tail, htail⟩ := hp
      cases hs with
      | short hc _ =>
        obtain ⟨ns, hns, hpassed⟩ := ih hc (hgood.short) (Fits.short_child (htail ▸ hf))
        refine ⟨.short k val flags :: ns, ?_, ?_⟩
        · unfold Node.nodesOn
          rw [if_pos ⟨tail, htail⟩, ← htail, drop_left]
          exact except_bind_ok hns rfl
        · rw [← htail, along_short_append]
          exact .cons hself hpassed
    · refine ⟨[.short k val flags], ?_, ?_⟩
      · unfold Node.nodesOn
        rw [if_neg hp]
      · rw [along, if_neg hp]
        exact .cons hself .nil
  | @full f cs ts flags hl _ ih =>
    have hgood := hg trivial
    obtain ⟨i, rest, rfl⟩ := exists_cons_of_ne_nil hf.full_key.1.ne_nil
    have hself : Passed get bound (.full cs flags) (.full ts) := ⟨⟨b, hs⟩, hgood, trivial⟩
    cases hs with
    | full hc _ =>
      obtain ⟨ns, hns, hpassed⟩ := ih i (hc i) (hgood.full) hf.full_child
      exact ⟨.full cs flags :: ns, except_bind_ok hns rfl, .cons hself hpassed⟩
  | @hash f h t ld hload hl hne _ ih =>
    cases hs with
    | hash hh hst hlen =>
      subst hh
      have hld : ld gen = treeNode gen (some (keccak256 (treeEncoding t))) t := by
        have := hload gen
        rw [hst.load gen] at this
        exact (Option.some.inj this).symm
      have hst' := hst.stands gen hlen
      rw [← hld] at hst'
      obtain ⟨ns, hns, hpassed⟩ := ih gen hst' hg hf
      refine ⟨ns, ?_, hpassed⟩
      cases key with
      | nil =>
        rw [← hns, Node.nodesOn_nil, Node.nodesOn_nil]
      | cons i rest =>
        unfold Node.nodesOn
        rw [resolveHash_ok_iff.mpr (hload gen)]
        exact hns

/-- Hashing the children of a node gives the encoding of its tree. -/
theorem Passed.hashChildren (hP : Distinct P) (hget : Keyed P get) (h : Hasher) {n : Node}
    (hn : Passed get bound n t) (hk : ∀ bs ∈ treePreimages t, bs ∈ P) :
    Node.hashChildren h n = pure (treeEncoding t) := by
  obtain ⟨⟨b, hs⟩, hg, hr⟩ := hn
  have hw : Intact P (Writer.idle.over get) (Writer.idle.over get) := ⟨hget, le_rfl⟩
  cases hs with
  | nil | value hv => exact hg.inner.elim
  | hash _ _ _ => exact hr.elim
  | @short _ k val c flags hc hm =>
    have hgrows : Grows (Intact P (Writer.idle.over get)) (Hashed.ofVal val (Node.hashWith h false false val))
        (Ready bound false c) := ofVal_grows hg hk nofun hc
      fun hg' hk' hsize => Node.hashWith_grows hP h val hc hg' hk' hsize
    have hpure : ∃ r, Hashed.ofVal val (Node.hashWith h false false val) = pure r := by
      unfold Hashed.ofVal
      split
      · exact ⟨_, rfl⟩
      · exact Node.exists_pure_hashWith h val false
    obtain ⟨r, hr⟩ := hpure
    obtain ⟨_, _, href, _, _⟩ := hgrows.ok hw (by rw [hr]; rfl)
    unfold Node.hashChildren
    dsimp only
    rw [hr, pure_bind, encodeList_short href]
  | @full _ cs ts flags hc hm =>
    have hgrows : Grows (Intact P (Writer.idle.over get)) (forFin fun i : Nibble =>
        if i = Fin.last 16 then pure (.ofLast (cs i)) else Node.hashWith h false false (cs i))
        (fun g w => ∀ i, Ready bound false (ts i) (g i) w) := children_grows hg hk nofun hc
      fun i hg' hk' hsize => Node.hashWith_grows hP h (cs i) (hc i) hg' hk' hsize
    have hpure : ∀ i : Nibble, ∃ r, (if i = Fin.last 16 then (pure (.ofLast (cs i)) : EStateM PutError Writer Hashed)
        else Node.hashWith h false false (cs i)) = pure r := by
      intro i
      split
      · exact ⟨_, rfl⟩
      · exact Node.exists_pure_hashWith h (cs i) false
    obtain ⟨g, hg⟩ := exists_pure_forFin hpure
    obtain ⟨_, _, hready⟩ := hgrows.ok hw (by rw [hg]; rfl)
    unfold Node.hashChildren
    dsimp only
    rw [hg, pure_bind, encodeList_full fun i => (hready i).1]

/-- The hash that a node carries is the one of its tree. -/
theorem Passed.store_eq {n : Node} (hn : Passed get bound n t) :
    store false false n.cachedHash (treeEncoding t) =
      pure (if (treeEncoding t).length < 32 then none else some (keccak256 (treeEncoding t))) := by
  obtain ⟨⟨b, hs⟩, hg, hr⟩ := hn
  have hcached : n.cachedHash.getD (keccak256 (treeEncoding t)) = keccak256 (treeEncoding t) := by
    have hmarks : ∀ {flags : NodeFlag}, Marks get bound b flags t →
        flags.hash.getD (keccak256 (treeEncoding t)) = keccak256 (treeEncoding t) := by
      intro flags hm
      cases hh : flags.hash with
      | none => rfl
      | some h => exact (hm.hash h hh).1
    cases hs with
    | nil | value _ => rfl
    | hash _ _ _ => exact hr.elim
    | short _ hm | full _ hm => exact hmarks hm
  unfold store
  by_cases hlen : (treeEncoding t).length < 32
  · simp [hlen]
  · simp [hlen, hcached]

variable {ts : List TrieTree}

/-- What `Prove` puts, from a level on. -/
theorem proofPuts_eq (hP : Distinct P) (hget : Keyed P get) (h : Hasher) {ns : List Node}
    (hpassed : List.Forall₂ (Passed get bound) ns ts) (hk : ∀ t ∈ ts, ∀ bs ∈ treePreimages t, bs ∈ P) :
    ∀ first fromLevel, proofPuts h first fromLevel ns = pure ((treePuts first ts).drop fromLevel) := by
  induction hpassed with
  | nil =>
    intro first fromLevel
    rw [treePuts, drop_nil]
    rfl
  | @cons n t ns ts hn hpassed ih =>
    intro first fromLevel
    have ih := ih fun t ht => hk t (mem_cons_of_mem _ ht)
    unfold proofPuts
    rw [hn.hashChildren hP hget h (hk t mem_cons_self), pure_bind, hn.store_eq, pure_bind, treePuts]
    by_cases hlen : (treeEncoding t).length < 32
    · have hlen' : ¬ 32 ≤ (treeEncoding t).length := by omega
      cases first with
      | false => simp [ih, hlen, hlen']
      | true =>
        cases fromLevel with
        | zero | succ l => simp [ih, hlen]
    · have hlen' : 32 ≤ (treeEncoding t).length := by omega
      cases fromLevel with
      | zero | succ l => simp [ih, hlen, hlen']

theorem mem_treePuts (ht : t ∈ ts) (hlen : 32 ≤ (treeEncoding t).length) :
    ∀ first, (keccak256 (treeEncoding t), treeEncoding t) ∈ treePuts first ts := by
  induction ts with
  | nil => cases ht
  | cons s ts ih =>
    intro first
    rcases mem_cons.mp ht with rfl | ht
    · rw [treePuts, if_pos (.inl hlen)]
      exact mem_cons_self
    · rw [treePuts]
      split
      · exact mem_cons_of_mem _ (ih ht false)
      · exact ih ht false

theorem treePuts_spec : ∀ {first : Bool} {p : Hash × Bytes}, p ∈ treePuts first ts →
    ∃ t ∈ ts, p = (keccak256 (treeEncoding t), treeEncoding t) ∧
      (32 ≤ (treeEncoding t).length ∨ first = true ∧ ts.head? = some t) := by
  induction ts with
  | nil =>
    intro first p hp
    cases hp
  | cons s ts ih =>
    intro first p hp
    have hrest : p ∈ treePuts false ts → ∃ t ∈ s :: ts, p = (keccak256 (treeEncoding t), treeEncoding t) ∧
        (32 ≤ (treeEncoding t).length ∨ first = true ∧ (s :: ts).head? = some t) := by
      intro hp
      obtain ⟨t, ht, heq, hlen⟩ := ih hp
      exact ⟨t, mem_cons_of_mem _ ht, heq, .inl (hlen.resolve_right fun h => nomatch h.1)⟩
    rw [treePuts] at hp
    split at hp
    next hcond =>
      rcases mem_cons.mp hp with rfl | hp
      · exact ⟨s, mem_cons_self, rfl, hcond.imp_right fun h => ⟨h, rfl⟩⟩
      · exact hrest hp
    · exact hrest hp

/-- What has been put can be read, if no two strings have one hash. -/
theorem written_of_mem (hP : NoCollision P) {puts : List (Hash × Bytes)} :
    ∀ {get : Hash → Option Bytes}, (∀ p ∈ puts, p.2 ∈ P ∧ p.1 = keccak256 p.2) → ∀ bs,
      bs ∈ P → (keccak256 bs, bs) ∈ puts ∨ get (keccak256 bs) = some bs →
      written get puts (keccak256 bs) = some bs := by
  induction puts with
  | nil =>
    intro get _ bs _ hmem
    exact hmem.resolve_left nofun
  | cons p puts ih =>
    intro get hputs bs hbs hmem
    obtain ⟨hp, hhash⟩ := hputs p mem_cons_self
    refine ih (fun q hq => hputs q (mem_cons_of_mem _ hq)) bs hbs ?_
    dsimp only
    by_cases heq : p.1 = keccak256 bs
    · right
      rw [heq, Function.update_self, hP _ hp _ hbs (hhash ▸ heq)]
    · rcases hmem with hmem | hmem
      · rcases mem_cons.mp hmem with hp' | hmem
        · exact absurd (congrArg Prod.fst hp').symm heq
        · exact .inl hmem
      · right
        rw [Function.update_of_ne (Ne.symm heq)]
        exact hmem

/-! ## What the verifier reads -/

/-- Where `get` comes out: at the end of the way, or at the hash of a tree in which it
goes on. `strings` are the strings that have been vouched for, `passed` is the way. -/
def Leads (value : Option Bytes) (below : Nat) (strings : List Bytes) (passed : List TrieTree) (rest : List Nibble) :
    Node → Prop
  | .nil => value = none
  | .value v => value = some v
  | .hash h => ∃ d, h = keccak256 (treeEncoding d) ∧ Good d ∧ 32 ≤ (treeEncoding d).length ∧ Fits d rest ∧
      value = lookup d rest ∧ size d ≤ below ∧ treeEncoding d ∈ strings ∧ treePreimages d ⊆ strings ∧
      along d rest <:+ passed
  | _ => False

theorem Leads.mono {value : Option Bytes} {below below' : Nat} {strings strings' : List Bytes}
    {passed passed' : List TrieTree} {rest : List Nibble} {cld : Node} (h : Leads value below strings passed rest cld)
    (hb : below ≤ below') (hs : strings ⊆ strings') (hp : passed <:+ passed') :
    Leads value below' strings' passed' rest cld := by
  cases cld with
  | hash ref =>
    obtain ⟨d, hd, hg, hlen, hf, hv, hsize, hmem, hbelow, halong⟩ := h
    exact ⟨d, hd, hg, hlen, hf, hv, hsize.trans hb, hs hmem, fun _ hbs => hs (hbelow hbs), halong.trans hp⟩
  | nil | value v | short k val flags | full cs flags => exact h

variable {key : List Nibble}

/-- Where `get` comes out below a parent. -/
theorem get_refNode (gen : UInt16) {c : TrieTree} (hf : Fits c key) (hg : Inner c → Good c)
    (ih : Inner c → ∃ rest cld, (treeNode gen none c).get key = some (rest, cld) ∧
      Leads (lookup c key) (size c - 1) (treePreimages c) (along c key).tail rest cld) :
    ∃ rest cld, (refNode gen c).get key = some (rest, cld) ∧
      Leads (lookup c key) (size c) (childPreimages c (treeEncoding c) ++ treePreimages c) (along c key) rest cld := by
  have hinner : Inner c → ∃ rest cld, (refNode gen c).get key = some (rest, cld) ∧
      Leads (lookup c key) (size c) (childPreimages c (treeEncoding c) ++ treePreimages c) (along c key) rest cld := by
    intro hi
    rw [hi.refNode_eq]
    split
    · obtain ⟨rest, cld, hget, hleads⟩ := ih hi
      exact ⟨rest, cld, hget, hleads.mono (Nat.sub_le _ _) (subset_append_right _ _) (tail_suffix _)⟩
    next hlen =>
      have hmem := hi.mem_childPreimages (Nat.le_of_not_lt hlen)
      exact ⟨key, _, rfl, c, rfl, hg hi, by omega, hf, rfl, le_rfl, mem_append_left _ hmem,
        subset_append_right _ _, suffix_rfl⟩
  cases c with
  | nil => exact ⟨key, .nil, rfl, rfl⟩
  | leaf v =>
    rw [hf.leaf_key]
    exact ⟨[], .value v, rfl, rfl⟩
  | short k c | full cs => exact hinner trivial

/-- **`get` follows the way of the key through a node that has been read.** -/
theorem get_treeNode (gen : UInt16) (t : TrieTree) :
    ∀ {h : Option Hash} {key : List Nibble}, Good t → Fits t key →
      ∃ rest cld, (treeNode gen h t).get key = some (rest, cld) ∧
        Leads (lookup t key) (size t - 1) (treePreimages t) (along t key).tail rest cld := by
  induction t with
  | nil | leaf v =>
    intro h key hg
    exact hg.inner.elim
  | short k c ih =>
    intro h key hg hf
    by_cases hp : k <+: key
    · obtain ⟨tail, rfl⟩ := hp
      have hf' := hf.short_child
      obtain ⟨rest, cld, hget, hleads⟩ := get_refNode gen hf' (hg.short)
        fun hi => ih (hg.short hi) hf'
      refine ⟨rest, cld, ?_, ?_⟩
      · rw [treeNode, Node.get, if_pos (prefix_append _ _), drop_left]
        exact hget
      · rw [lookup_short_append, along_short_append, size]
        exact hleads
    · refine ⟨[], .nil, ?_, ?_⟩
      · rw [treeNode, Node.get, if_neg hp]
      · rw [lookup, if_neg hp]
        rfl
  | full cs ih =>
    intro h key hg hf
    obtain ⟨i, tail, rfl⟩ := exists_cons_of_ne_nil hf.full_key.1.ne_nil
    have hf' := hf.full_child
    obtain ⟨rest, cld, hget, hleads⟩ := get_refNode gen hf' (hg.full)
      fun hi => ih i (hg.full hi) hf'
    have hlt := size_child_lt cs i
    refine ⟨rest, cld, hget, hleads.mono (by omega) ?_ suffix_rfl⟩
    intro bs hbs
    exact mem_flatMap.mpr ⟨i, mem_finRange i, hbs⟩

omit [Crypto] in
/-- A tree is the first on the way below it. -/
theorem Inner.along_eq (hi : Inner t) (hf : Fits t key) : along t key = t :: (along t key).tail := by
  cases t with
  | nil | leaf v => exact hi.elim
  | short k c => rfl
  | full cs =>
    obtain ⟨i, rest, rfl⟩ := exists_cons_of_ne_nil hf.full_key.1.ne_nil
    rfl

variable {db : Hash → Option Bytes}

/-- One round of the verifier at a tree whose encoding it finds. -/
theorem verifyFrom_succ (hg : Good t)
    (hdb : db (keccak256 (treeEncoding t)) = some (treeEncoding t)) (f i : Nat) {rest : List Nibble}
    {cld : Node} : (treeNode 0 (some (keccak256 (treeEncoding t))) t).get key = some (rest, cld) →
    verifyFrom db (f + 1) i (keccak256 (treeEncoding t)) key =
      match cld with
      | .nil => some (.ok none, i)
      | .hash h => verifyFrom db f (i + 1) h rest
      | .value v => some (.ok (some v), i + 1)
      | _ => verifyFrom db f (i + 1) (keccak256 (treeEncoding t)) key := by
  intro hget
  rw [verifyFrom, hdb]
  dsimp only
  rw [hg.decoded]
  dsimp only
  rw [hget]
  cases cld <;> rfl

/-- **What the verifier accepts is what the tree holds.** -/
theorem verifyFrom_sound (hP : NoCollision P) (hdb : Keyed P db) {f : Nat} :
    ∀ {i n : Nat} {t : TrieTree} {key : List Nibble} {v : Option Bytes}, Good t → Fits t key → treeEncoding t ∈ P →
      (∀ bs ∈ treePreimages t, bs ∈ P) →
      verifyFrom db f i (keccak256 (treeEncoding t)) key = some (.ok v, n) → v = lookup t key := by
  induction f with
  | zero =>
    intro i n t key v _ _ _ _ h
    cases h
  | succ f ih =>
    intro i n t key v hg hf hmem hbelow h
    cases hread : db (keccak256 (treeEncoding t)) with
    | none =>
      rw [verifyFrom, hread] at h
      cases h
    | some buf =>
      -- nothing else can be stored under this hash
      rw [hP _ (hdb.mem _ _ hread) _ hmem (hdb.hash _ _ hread)] at hread
      obtain ⟨rest, cld, hget, hleads⟩ := get_treeNode 0 t hg hf
        (h := some (keccak256 (treeEncoding t)))
      rw [verifyFrom_succ hg hread f i hget] at h
      cases cld with
      | nil | value w =>
        cases h
        exact hleads.symm
      | hash ref =>
        obtain ⟨d, rfl, hgd, _, hfd, hv, _, hmemd, hbelowd, _⟩ := hleads
        rw [hv]
        exact ih hgd hfd (hbelow _ hmemd) (fun bs hbs => hbelow bs (hbelowd hbs)) h
      | short k val flags | full cs flags => exact hleads.elim

/-- **The verifier accepts the nodes on the way.** -/
theorem verifyFrom_complete {f : Nat} :
    ∀ {i : Nat} {t : TrieTree} {key : List Nibble}, Good t → Fits t key → size t ≤ f →
      db (keccak256 (treeEncoding t)) = some (treeEncoding t) →
      (∀ d ∈ (along t key).tail, 32 ≤ (treeEncoding d).length →
        db (keccak256 (treeEncoding d)) = some (treeEncoding d)) →
      ∃ n, verifyFrom db f i (keccak256 (treeEncoding t)) key = some (.ok (lookup t key), n) := by
  induction f with
  | zero =>
    intro i t key _ _ hsize
    have := size_pos t
    omega
  | succ f ih =>
    intro i t key hg hf hsize hown halong
    obtain ⟨rest, cld, hget, hleads⟩ := get_treeNode 0 t hg hf
      (h := some (keccak256 (treeEncoding t)))
    rw [verifyFrom_succ hg hown f i hget]
    cases cld with
    | nil => exact ⟨i, by rw [hleads]⟩
    | value w => exact ⟨i + 1, by rw [hleads]⟩
    | hash ref =>
      obtain ⟨d, rfl, hgd, hlen, hfd, hv, hsized, _, _, hsuffix⟩ := hleads
      rw [hv]
      rw [hgd.inner.along_eq hfd] at hsuffix
      exact ih hgd hfd (by omega) (halong d (hsuffix.subset mem_cons_self) hlen)
        fun e he => halong e (hsuffix.subset (mem_cons_of_mem _ he))
    | short k val flags | full cs flags => exact hleads.elim

/-! ## Proofs of a trie -/

/-- What is hashed for a tree on the way is hashed for the whole. -/
theorem preimages_of_mem_along {d : TrieTree} : ∀ {key : List Nibble}, d ∈ along t key →
    treePreimages d ⊆ treePreimages t ∧
      (32 ≤ (treeEncoding d).length → treeEncoding d ∈ childPreimages t (treeEncoding t) ++ treePreimages t) := by
  induction t with
  | nil | leaf v =>
    intro key hd
    cases hd
  | short k c ih =>
    intro key hd
    rw [along] at hd
    rcases mem_cons.mp hd with rfl | hd
    · exact ⟨List.Subset.refl _, fun hlen => mem_append_left _ (by simp [childPreimages]; omega)⟩
    · split at hd
      · obtain ⟨hsub, hmem⟩ := ih hd
        exact ⟨fun bs hbs => mem_append_right _ (hsub hbs), fun hlen => mem_append_right _ (hmem hlen)⟩
      · cases hd
  | full cs ih =>
    intro key hd
    cases key with
    | nil => cases hd
    | cons i key =>
      rcases mem_cons.mp hd with rfl | hd
      · exact ⟨List.Subset.refl _, fun hlen => mem_append_left _ (by simp [childPreimages]; omega)⟩
      · obtain ⟨hsub, hmem⟩ := ih i hd
        have hchild : ∀ bs ∈ childPreimages (cs i) (treeEncoding (cs i)) ++ treePreimages (cs i),
            bs ∈ treePreimages (.full cs) :=
          fun bs hbs => mem_flatMap.mpr ⟨i, mem_finRange i, hbs⟩
        exact ⟨fun bs hbs => hchild bs (mem_append_right _ (hsub hbs)),
          fun hlen => mem_append_right _ (hchild _ (hmem hlen))⟩

theorem Known.childPreimages (h : Known P true t) {bs : Bytes}
    (hbs : bs ∈ childPreimages t (treeEncoding t) ++ treePreimages t) : bs ∈ P := by
  rcases mem_append.mp hbs with hbs | hbs
  · have hself : bs ∈ (if (treeEncoding t).length < 32 then [] else [treeEncoding t]) → bs ∈ P := by
      intro hbs
      split at hbs
      · cases hbs
      · rw [mem_singleton.mp hbs]
        exact h.2 (.inl rfl)
    cases t with
    | nil | leaf v => cases hbs
    | short k c | full cs => exact hself hbs
  · exact h.1 bs hbs

/-- A trie over a database that has all its nodes. -/
structure Trie.Whole (P : Set Bytes) (t : Trie) (M : Bytes → Option Bytes) (disk : Disk) (tree : TrieTree) : Prop where
  db : t.db = disk.nodes
  keyed : Keyed P disk.get
  shape : Shape P disk.get disk.bound t.root M tree

/-- Every trie of a session is one. -/
theorem Runs.whole {pre : Bytes} {s : Session} {M : Bytes → Option Bytes} {c : List (Hash × (Bytes → Option Bytes))}
    (hP : Addressed P) (h : Runs P pre s M c) : ∃ tree, s.trie.Whole P M s.disk tree := by
  have hs := h.sound hP
  obtain ⟨tree, hshape⟩ := hs.shape
  exact ⟨tree, hs.db, hs.keyed, hshape⟩

namespace Trie.Whole

variable {t : Trie} {M : Bytes → Option Bytes} {disk : Disk} {tree : TrieTree}

theorem get_eq (h : t.Whole P M disk tree) (k : Bytes) : (t.get k).1 = M (t.prefix_ ++ k) := by
  obtain ⟨root, db, prefix_, gen⟩ := t
  obtain rfl : db = disk.nodes := h.db
  obtain ⟨n', r, hget, _⟩ := h.shape.tryGet gen (prefix_ ++ k) le_rfl
  unfold Trie.get Trie.tryGet
  dsimp only [Disk.nodes] at hget ⊢
  rw [hget]

theorem root_eq_nil_iff (h : t.Whole P M disk tree) : t.root = .nil ↔ tree = .nil := by
  have hs := h.shape.stands
  constructor
  · intro hroot
    rw [hroot] at hs
    cases hs
    rfl
  · intro htree
    subst htree
    cases hroot : t.root with
    | nil => rfl
    | hash ref =>
      rw [hroot] at hs
      cases hs with
      | hash _ hst _ => exact hst.inner.elim
    | _ =>
      rw [hroot] at hs
      cases hs

/-- What `Prove` writes are the nodes on the way, and nothing fails. -/
theorem prove_eq (hP : Distinct P) (h : t.Whole P M disk tree) (k : Bytes) (fromLevel : Nat) :
    t.prove k fromLevel = .ok ((treePuts true (along tree (keybytesToHex k))).drop fromLevel) := by
  obtain ⟨root, db, prefix_, gen⟩ := t
  obtain rfl : db = disk.nodes := h.db
  have hs := h.shape
  have hl := hs.stands.loads
  obtain ⟨ns, hns, hpassed⟩ := Stands.nodesOn gen hl hs.stands (hs.good hP)
    (hs.wf.fits (terminated_keybytesToHex k)) hl.need_le_fuel
  have hk : ∀ d ∈ along tree (keybytesToHex k), ∀ bs ∈ treePreimages d, bs ∈ P := by
    intro d hd bs hbs
    have hmem := (preimages_of_mem_along hd).1 hbs
    rcases hs.known with rfl | hknown
    · cases hmem
    · exact hknown.1 bs hmem
  refine except_bind_ok hns ?_
  rw [proofPuts_eq hP h.keyed ⟨0, 0⟩ hpassed hk]
  rfl

/-- The nodes on the way can be read once they are written. -/
theorem verify_written (hP : Distinct P) (h : t.Whole P M disk tree) (hi : Inner tree) (k : Bytes)
    (get : Hash → Option Bytes) {f : Nat} (hf : size tree ≤ f) :
    ∃ n, verifyProof (written get (treePuts true (along tree (keybytesToHex k)))) f (treeHash tree) k =
      some (.ok (M k), n) := by
  have hs := h.shape
  have hknown := hs.known.resolve_left hi.ne_nil
  have hfits := hs.wf.fits (terminated_keybytesToHex k)
  have hmemP : ∀ d ∈ along tree (keybytesToHex k),
      32 ≤ (treeEncoding d).length ∨ true = true ∧ (along tree (keybytesToHex k)).head? = some d → treeEncoding d ∈ P := by
    intro d hd hcond
    rcases hcond with hlen | ⟨_, hhead⟩
    · exact hknown.childPreimages ((preimages_of_mem_along hd).2 hlen)
    · rw [hi.along_eq hfits] at hhead
      cases hhead
      exact hknown.2 (.inl rfl)
  have hputs : ∀ p ∈ treePuts true (along tree (keybytesToHex k)), p.2 ∈ P ∧ p.1 = keccak256 p.2 := by
    intro p hp
    obtain ⟨d, hd, rfl, hcond⟩ := treePuts_spec hp
    exact ⟨hmemP d hd hcond, rfl⟩
  have hroot : (keccak256 (treeEncoding tree), treeEncoding tree) ∈
      treePuts true (along tree (keybytesToHex k)) := by
    rw [hi.along_eq hfits, treePuts, if_pos (.inr rfl)]
    exact mem_cons_self
  rw [hi.treeHash_eq, ← hs.represents.values k]
  refine verifyFrom_complete (hs.good hP hi) hfits hf ?_ ?_
  · exact written_of_mem hP.free hputs _ (hknown.2 (.inl rfl)) (.inl hroot)
  · intro d hd hlen
    have hd' := mem_of_mem_tail hd
    exact written_of_mem hP.free hputs _ (hmemP d hd' (.inl hlen)) (.inl (mem_treePuts hd' hlen true))

/-- **Merkle proofs are complete, but for the empty trie, and sound.** The nodes that
`Prove` writes, into whatever database, make `VerifyProof` return what `Get` returns; and
no database whose entries stand under their hashes makes it return anything else. -/
theorem proof_complete_and_sound (hP : Distinct P) (hempty : keccak256 (encodeString []) = emptyRoot)
    (hnil : encodeString [] ∈ P) (h : t.Whole P M disk tree) (hpre : t.prefix_ = []) (limit : UInt16) (k : Bytes) :
    ((∃ puts, t.prove k 0 = .ok puts ∧ ∀ get, ∃ rounds, ∀ f ≥ rounds, ∃ n,
        verifyProof (written get puts) f (t.hashNow limit).1 k = some (.ok (t.get k).1, n)) ↔ t.root ≠ .nil) ∧
      ∀ get f v n, Keyed P get → verifyProof get f (t.hashNow limit).1 k = some (.ok v, n) → v = (t.get k).1 := by
  have hs := h.shape
  have hfits := hs.wf.fits (terminated_keybytesToHex k)
  obtain ⟨root, hhash, _⟩ := hs.hashNow hP h.keyed limit
  rw [hhash, h.get_eq, hpre, nil_append, h.prove_eq hP, drop_zero]
  refine ⟨⟨?_, ?_⟩, ?_⟩
  · intro hcomplete hroot
    obtain ⟨puts, hputs, hverify⟩ := hcomplete
    -- nothing is written for the empty trie
    rw [h.root_eq_nil_iff.mp hroot] at hputs hverify
    cases hputs
    obtain ⟨rounds, hverify⟩ := hverify fun _ => none
    obtain ⟨n, hn⟩ := hverify (rounds + 1) (Nat.le_succ _)
    cases hn
  · intro hroot
    have hi := (wf_nil_or_inner hs.wf).resolve_left fun hn => hroot (h.root_eq_nil_iff.mpr hn)
    exact ⟨_, rfl, fun get => ⟨size tree, fun f hf => h.verify_written hP hi k get hf⟩⟩
  · intro get f v n hget hverify
    rw [← hs.represents.values k]
    rcases wf_nil_or_inner hs.wf with rfl | hi
    · -- all that can stand under the root of the empty trie is not a node
      cases f with
      | zero => cases hverify
      | succ f =>
        unfold verifyProof verifyFrom at hverify
        cases hread : get (treeHash .nil) with
        | none =>
          rw [hread] at hverify
          cases hverify
        | some buf =>
          have hbuf := hP.free _ (hget.mem _ _ hread) _ hnil ((hget.hash _ _ hread).trans hempty.symm)
          rw [hread, hbuf] at hverify
          cases hverify
    · have hknown := hs.known.resolve_left hi.ne_nil
      rw [hi.treeHash_eq] at hverify
      exact verifyFrom_sound hP.free hget (hs.good hP hi) hfits (hknown.2 (.inl rfl)) hknown.1 hverify

end Trie.Whole

end

namespace OneEntry

theorem entry_proved_and_verified :
    let t := (Trie.empty disk.nodes []).update [1] [2]
    t.root ≠ .nil ∧ ∃ puts, t.prove [1] 0 = .ok puts ∧ ∀ get, ∃ rounds, ∀ f ≥ rounds, ∃ n,
      verifyProof (written get puts) f (t.hashNow 0).1 [1] = some (.ok (t.get [1]).1, n) := by
  have hrun : Runs {bs | bs ∈ strings} [] ((Session.mk disk (.empty disk.nodes [])).update [1] [2]) _ [] :=
    .update [1] [2] (.start keyed_disk) (cons_ne_nil _ _) (involved_short known)
  obtain ⟨tree, hread⟩ := hrun.whole addressed
  have hroot : ((Trie.empty disk.nodes []).update [1] [2]).root ≠ .nil := nofun
  exact ⟨hroot, (hread.proof_complete_and_sound addressed.toDistinct rfl addressed.empty rfl 0 [1]).1.mpr hroot⟩

/-- The empty trie: nothing is written, and the verifier misses the root. -/
theorem empty_trie_not_proved :
    (Trie.empty disk.nodes []).prove [1] 0 = .ok [] ∧ ((Trie.empty disk.nodes []).get [1]).1 = none ∧
      ∀ f, verifyProof (written (fun _ => none) []) (f + 1) ((Trie.empty disk.nodes []).hashNow 0).1 [1] =
        some (.error (.missing 0 emptyRoot), 0) :=
  ⟨rfl, rfl, fun _ => rfl⟩

end OneEntry

end Bgmchain
