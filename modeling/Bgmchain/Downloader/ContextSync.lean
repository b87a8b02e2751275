import Bgmchain.Consensus.Dpos.MintCount
import Bgmchain.Core.State.Sync

/-! # Downloading the consensus context

`syncDposContextState` of `bgm/downloader/downloader.go` downloads the five tries of a
context one after the other with schedulers for account tries. Such a scheduler reads every
value that stands directly below a node it is given as an account; the values of a context
are none. A trie comes through exactly when all its values are written into nodes that are
written into their parents themselves. -/
namespace Bgmchain
open Common Lib Patricia Rlp Crypto TrieSync
open List hiding lookup insert

section
variable [Crypto]

/-! ## Values in sight -/

def isLeaf : TrieTree → Bool
  | .leaf _ => true
  | _ => false

/-- A value stands directly below a node that is stored on its own. -/
def valueInSight : TrieTree → Bool
  | .nil => false
  | .leaf _ => false
  | .short _ c => isLeaf c || decide (32 ≤ (treeEncoding c).length) && valueInSight c
  | .full cs => (List.finRange 17).any fun i =>
      isLeaf (cs i) || decide (32 ≤ (treeEncoding (cs i)).length) && valueInSight (cs i)

/-- A node with no value directly below it. -/
def Plain (e : TrieTree) : Prop := ∀ v, ¬ ChildOf (.leaf v) e

variable {P : Set Bytes} {t e : TrieTree}

omit [Crypto] in
theorem eq_leaf_of_isLeaf (h : isLeaf t = true) : ∃ v, t = .leaf v := by
  cases t with
  | leaf v => exact ⟨v, rfl⟩
  | _ => cases h

theorem valueInSight_iff_child :
    valueInSight t = true ↔ ∃ c, ChildOf c t ∧ (isLeaf c = true ∨ 32 ≤ (treeEncoding c).length ∧ valueInSight c = true) := by
  cases t with
  | nil | leaf v => exact ⟨nofun, fun ⟨_, hc, _⟩ => nomatch hc⟩
  | short k c =>
    simp only [valueInSight, Bool.or_eq_true, Bool.and_eq_true, decide_eq_true_eq]
    refine ⟨fun h => ⟨c, .short, h⟩, fun ⟨c', hc, h⟩ => ?_⟩
    cases hc
    exact h
  | full cs =>
    simp only [valueInSight, any_eq_true, mem_finRange, true_and, Bool.or_eq_true, Bool.and_eq_true,
      decide_eq_true_eq]
    refine ⟨fun ⟨i, h⟩ => ⟨cs i, .full i, h⟩, fun ⟨c', hc, h⟩ => ?_⟩
    cases hc with
    | full i => exact ⟨i, h⟩

/-- **No value is in sight when all nodes that are stored on their own are plain.** -/
theorem valueInSight_eq_false_iff : valueInSight t = false ↔ ∀ e, Own t e → Plain e := by
  constructor
  · intro h e ho
    have hnone : valueInSight e = false := by
      induction ho with
      | root => exact h
      | @child e c _ hc _ hlen ih =>
        by_contra hne
        have : valueInSight e = true :=
          valueInSight_iff_child.mpr ⟨c, hc, .inr ⟨hlen, Bool.eq_true_of_not_eq_false hne⟩⟩
        rw [ih] at this
        cases this
    intro v hc
    have : valueInSight e = true := valueInSight_iff_child.mpr ⟨_, hc, .inl rfl⟩
    rw [hnone] at this
    cases this
  · intro h
    by_contra hne
    -- follow the values in sight down to one
    have hfind : ∀ {e : TrieTree}, Own t e → valueInSight e = true → False := by
      intro e
      induction e with
      | nil | leaf v => exact nofun
      | short k c ih =>
        intro ho hv
        obtain ⟨c', hc, hleaf | ⟨hlen, hv'⟩⟩ := valueInSight_iff_child.mp hv
        · obtain ⟨v, rfl⟩ := eq_leaf_of_isLeaf hleaf
          exact h _ ho v hc
        · cases hc
          exact ih (.child ho .short (valueInSight_iff_child.mp hv').choose_spec.1.inner hlen) hv'
      | full cs ih =>
        intro ho hv
        obtain ⟨c', hc, hleaf | ⟨hlen, hv'⟩⟩ := valueInSight_iff_child.mp hv
        · obtain ⟨v, rfl⟩ := eq_leaf_of_isLeaf hleaf
          exact h _ ho v hc
        · cases hc with
          | full i => exact ih i (.child ho (.full i) (valueInSight_iff_child.mp hv').choose_spec.1.inner hlen) hv'
    exact hfind .root (Bool.eq_true_of_not_eq_false hne)

/-- A plain node refers to the children that are stored on their own, for any callback. -/
theorem Plain.mem_refs (hp : Plain e) (he : Good e) {callback : Option LeafCallback} {h c : Hash} :
    c ∈ refs (false, callback) h (treeEncoding e) ↔
      ∃ x, ChildOf x e ∧ Inner x ∧ 32 ≤ (treeEncoding x).length ∧ c = keccak256 (treeEncoding x) := by
  rw [Bgmchain.mem_refs he]
  refine exists_congr fun x => and_congr_right fun hx => ?_
  rcases hx.valued he with rfl | ⟨v, rfl⟩ | hi
  · exact ⟨nofun, fun ⟨hi, _⟩ => hi.elim⟩
  · exact absurd hx (hp v)
  · exact hi.mem_childRefs.trans ⟨fun hc => ⟨hi, hc⟩, And.right⟩

/-! ## Feeding one trie -/

/-- The nodes of a trie, each under its hash. -/
def Fed (t : TrieTree) (h : Hash) (d : Bytes) : Prop := d ∈ treeStrings t ∧ keccak256 d = h

/-- A database in which no child of a stored node of the tree is missing. -/
def ClosedBelow (t : TrieTree) (db : Hash → Option Bytes) : Prop :=
  ∀ e c, Own t e → ChildOf c e → Inner c → 32 ≤ (treeEncoding c).length →
    (db (keccak256 (treeEncoding e))).isSome → (db (keccak256 (treeEncoding c))).isSome

/-- **A trie comes through**: at whatever point of feeding its nodes, in any order and with
commits in between, a node that is waited for is taken without an error, one is waited for
as long as anything is pending, feeding can be brought to an end, and at the end all nodes
are in the database. -/
structure ComesThrough (t : TrieTree) (root : Hash) (db : Hash → Option Bytes) : Prop where
  taken : ∀ {s handed}, SyncRun (Fed t) (newStateSync root db, []) (s, handed) →
    ∀ r ∈ s.requests, r.data = none → ∀ d, Fed t r.hash d → (s.process [(r.hash, d)]).1.2.2 = none
  waits : ∀ {s handed}, SyncRun (Fed t) (newStateSync root db, []) (s, handed) → s.pending ≠ 0 →
    ∃ r ∈ s.requests, r.data = none ∧ ∃ d, Fed t r.hash d
  ends : ∀ {s handed}, SyncRun (Fed t) (newStateSync root db, []) (s, handed) →
    ∃ s' handed', SyncRun (Fed t) (s, handed) (s', handed') ∧ s'.pending = 0
  stored : ∀ {s handed}, SyncRun (Fed t) (newStateSync root db, []) (s, handed) → s.pending = 0 → s.order = [] →
    ∀ bs ∈ treeStrings t, s.database (keccak256 bs) = some bs

/-- The nodes of the tree, as an account trie. -/
def AskedOf (t : TrieTree) (h : Hash) (kind : Kind) : Prop :=
  kind = (false, some accountLeaf) ∧ ∃ e, Own t e ∧ h = keccak256 (treeEncoding e)

/-- What is stored for a node of the tree. -/
def KeepsOf (t : TrieTree) (h : Hash) (d : Bytes) (c : Hash) : Prop :=
  (∃ e, Own t e ∧ h = keccak256 (treeEncoding e)) ∧ c ∈ refs (false, none) h d

/-- Data for the plain nodes of the tree only. -/
def PlainData (t : TrieTree) (right : Hash → Bytes → Prop) : Prop :=
  ∀ e d, Own t e → right (keccak256 (treeEncoding e)) d → d = treeEncoding e ∧ Plain e

variable {right : Hash → Bytes → Prop}

theorem sound_ofPlain (hP : Addressed P) (ht : Part P t) (hright : PlainData t right) :
    (runPlan (AskedOf t) right right (KeepsOf t) []).Sound := by
  refine sound_of_suits fun h kind d hasked hd => ?_
  obtain ⟨rfl, e, ho, rfl⟩ := hasked
  obtain ⟨rfl, hp⟩ := hright e d ho hd
  have he := ho.part ht
  refine ⟨?_, fun _ => hP.zero _ (he.known.2 (.inl rfl)), fun _ => ?_⟩
  · intro c hc
    exact (hp.mem_refs he.good).mpr ((hp.mem_refs he.good).mp hc.2)
  · refine he.good.suits (fun v hc => absurd hc (hp v)) ?_ _
    exact fun c hc hi hlen => ⟨rfl, c, .child ho hc hi hlen, rfl⟩

/-- As long as something is open, some data is waited for. -/
theorem exists_waiting_ofPlain (ht : Part P t) (hright : PlainData t right) {s : TrieSync} {handed : List Hash}
    (hs : s.Steady (runPlan (AskedOf t) right right (KeepsOf t) handed)) (hpending : s.pending ≠ 0) :
    ∃ r ∈ s.requests, r.data = none := by
  obtain ⟨r, hr⟩ := exists_mem_of_ne_nil s.requests fun hn => hpending (length_eq_zero_iff.mpr hn)
  obtain ⟨_, e, ho, hhash⟩ := hs.asked r hr
  let place (e : TrieTree) (h : Hash) (kind : Kind) : Prop :=
    AskedOf t h kind ∧ Own t e ∧ h = keccak256 (treeEncoding e)
  have hplace : place e r.hash r.kind := ⟨hs.asked r hr, ho, hhash⟩
  refine hs.exists_waiting (measure size).wf ?_ e hr hplace
  intro e h kind d c kind' hplace hd href _ hasked
  obtain ⟨⟨rfl, _⟩, ho, rfl⟩ := hplace
  obtain ⟨rfl, hp⟩ := hright e d ho hd
  obtain ⟨x, hx, hi, hlen, rfl⟩ := (hp.mem_refs (ho.part ht).good).mp href
  exact ⟨x, hx.size_lt, hasked, .child ho hx hi hlen, rfl⟩

theorem Part.treeStrings_mem (ht : Part P t) : ∀ bs ∈ treeStrings t, bs ∈ P := by
  intro bs hbs
  rw [ht.good.inner.treeStrings_eq] at hbs
  rcases mem_cons.mp hbs with rfl | hbs
  · exact ht.known.2 (.inl rfl)
  · exact ht.known.1 bs hbs

theorem Own.fed (ho : Own t e) (ht : Part P t) : Fed t (keccak256 (treeEncoding e)) (treeEncoding e) := by
  refine ⟨ho.treeStrings _ ?_, rfl⟩
  rw [(ho.part ht).good.inner.treeStrings_eq]
  exact mem_cons_self

theorem Fed.correct (ht : Part P t) {h : Hash} {d : Bytes} (hd : Fed t h d) : Correct P h d :=
  ⟨hd.2, ht.treeStrings_mem d hd.1⟩

/-- The hashes that can be asked for are finitely many. -/
theorem mem_hashes_of_asked (ht : Part P t) {h : Hash} {kind : Kind} (hasked : AskedOf t h kind) :
    h ∈ ((treeStrings t).map keccak256).toFinset := by
  obtain ⟨_, e, ho, rfl⟩ := hasked
  exact mem_toFinset.mpr (mem_map_of_mem (ho.fed ht).1)

/-- **A trie of plain nodes comes through.** -/
theorem comesThrough_of_plain (hP : Addressed P) (ht : Part P t) (hplain : ∀ e, Own t e → Plain e)
    {db : Hash → Option Bytes} (hdb : Keyed P db) (hclosed : ClosedBelow t db) : ComesThrough t (treeHash t) db := by
  have hi := ht.good.inner
  have hright : PlainData t (Correct P) := fun e d ho hd => ⟨Correct.eq hP.free (ho.part ht) hd, hplain e ho⟩
  have hW := sound_ofPlain hP ht hright
  have hcorrect : ∀ h d, db h = some d → Correct P h d := fun h d hd => ⟨hdb.hash h d hd, hdb.mem h d hd⟩
  obtain ⟨hstart, hroot⟩ := steady_newTrieSync hW hcorrect
    (fun h d hd c hc => by
      obtain ⟨⟨e, ho, rfl⟩, hc⟩ := hc
      obtain ⟨rfl, hp⟩ := hright e d ho (hcorrect _ _ hd)
      obtain ⟨x, hx, hix, hlen, rfl⟩ := (hp.mem_refs (ho.part ht).good).mp hc
      exact hclosed e x ho hx hix hlen (by rw [hd]; rfl))
    ⟨rfl, t, .root, hi.treeHash_eq⟩
  have hroot := hroot (hi.treeHash_ne_emptyRoot hP.toDistinct hP.emptyRoot hP.empty (ht.known.2 (.inl rfl)))
  have hrun : ∀ {s handed}, SyncRun (Fed t) (newStateSync (treeHash t) db, []) (s, handed) →
      s.Steady (runPlan (AskedOf t) (Correct P) (Correct P) (KeepsOf t) handed) ∧ (newStateSync (treeHash t) db).Advances s :=
    fun h => (h.mono fun _ _ hd => hd.correct ht).steady hW hstart
  have hwaits : ∀ {s handed}, SyncRun (Fed t) (newStateSync (treeHash t) db, []) (s, handed) → s.pending ≠ 0 →
      ∃ r ∈ s.requests, r.data = none ∧ ∃ d, Fed t r.hash d := by
    intro s handed h hpending
    obtain ⟨hs, _⟩ := hrun h
    obtain ⟨r, hr, hdata⟩ := exists_waiting_ofPlain ht hright hs hpending
    obtain ⟨_, e, ho, hhash⟩ := hs.asked r hr
    exact ⟨r, hr, hdata, _, hhash ▸ ho.fed ht⟩
  refine ⟨?_, hwaits, ?_, ?_⟩
  · intro s handed h r hr hdata d hd
    obtain ⟨hs, _⟩ := hrun h
    obtain ⟨b, s', hitem, _⟩ := hs.processItem_waiting (sound_runPlan hW handed) hr hdata (hd.correct ht)
    rw [process_singleton hitem]
  · intro s handed h
    obtain ⟨s', hfed, hend⟩ := SyncRun.exists_fed hW (fun _ _ hd => Fed.correct ht hd) (hrun h).1
      (fun _ _ hasked _ => mem_hashes_of_asked ht hasked) le_rfl
    refine ⟨s', handed, hfed, ?_⟩
    by_contra hpending
    obtain ⟨r, hr, hdata, d, hd⟩ := hwaits (h.trans hfed) hpending
    exact hend r hr hdata d hd
  · intro s handed h hpending horder
    obtain ⟨hs, hadv⟩ := hrun h
    obtain ⟨d, hd⟩ := Option.isSome_iff_exists.mp (hs.stored_of_done hadv hroot hpending horder)
    rw [hi.treeHash_eq] at hd
    obtain rfl := Correct.eq hP.free ht (hs.rightStore _ _ hd)
    have hkeyed : Keyed P s.database := ⟨fun h d hd => (hs.rightStore h d hd).1, fun h d hd => (hs.rightStore h d hd).2⟩
    have hbelow : StoredBelow s.database t := Own.storedBelow hP.free hkeyed ht (fun {e c} ho hown hc hic hlen =>
      hs.closed _ _ hown _ ⟨⟨e, ho, rfl⟩, ((hplain e ho).mem_refs (ho.part ht).good).mpr ⟨c, hc, hic, hlen, rfl⟩⟩) .root hd
    intro bs hbs
    rw [hi.treeStrings_eq] at hbs
    rcases mem_cons.mp hbs with rfl | hbs
    · exact hd
    · exact hbelow bs hbs

/-! ## A value that is no account -/

theorem children_of_bad {req : Request} {f : LeafCallback} (hcb : req.callback = some f) {kids : List (Node × Nat)} :
    ∀ {s : TrieSync}, (∃ child ∈ kids, ∃ v, child.1 = .value v ∧ f v = none) →
      ∃ e s', children req kids s = .error e s' := by
  induction kids with
  | nil =>
    intro s hbad
    obtain ⟨_, hmem, _⟩ := hbad
    cases hmem
  | cons child kids ih =>
    intro s hbad
    unfold children
    cases hleaf : s.leaf req child.1 with
    | error e => exact ⟨e, s, rfl⟩
    | ok s1 =>
      have hrest : ∃ child ∈ kids, ∃ v, child.1 = .value v ∧ f v = none := by
        obtain ⟨bad, hmem, v, hv, hf⟩ := hbad
        rcases mem_cons.mp hmem with rfl | hmem
        · -- the callback refuses this one
          unfold leaf at hleaf
          rw [hcb, hv] at hleaf
          dsimp only at hleaf
          rw [hf] at hleaf
          cases hleaf
        · exact ⟨bad, hmem, v, hv, hf⟩
      obtain ⟨e, s', hchildren⟩ := ih (s := s1) hrest
      exact ⟨e, s', by dsimp only; rw [hchildren]⟩

/-- A node with a value that the callback refuses is not taken. -/
theorem processItem_of_bad {s : TrieSync} (hnd : (s.requests.map Request.hash).Nodup) {r : Request} (hr : r ∈ s.requests)
    (hdata : r.data = none) {f : LeafCallback} (hkind : r.kind = (false, some f)) (he : Good e) {v : Bytes}
    (hc : ChildOf (.leaf v) e) (hf : f v = none) : (s.process [(r.hash, treeEncoding e)]).1.2.2 ≠ none := by
  have hitem : ∃ err s', s.processItem (r.hash, treeEncoding e) = .error err s' := by
    have hraw : r.raw = false := congrArg Prod.fst hkind
    unfold processItem request
    rw [Table.find_of_mem hnd hr]
    dsimp only
    rw [if_neg (by simp [hdata]), if_neg (by simp [hraw]),
      he.decoded _ 0]
    dsimp only
    obtain ⟨child, hmem, hchild⟩ := @ChildOf.kid _ _ _ hc 0 (some r.hash) r.depth rfl
    obtain ⟨err, s', herr⟩ := children_of_bad (congrArg Prod.snd hkind)
      (s := s.modify r.hash fun r => { r with data := some (treeEncoding e) }) ⟨child, hmem, v, hchild, hf⟩
    rw [herr]
    exact ⟨err, s', rfl⟩
  obtain ⟨err, s', hitem⟩ := hitem
  unfold process processFrom
  rw [hitem]
  exact Option.some_ne_none _

/-- **A trie that comes through has plain nodes**, if none of its values is an account. -/
theorem plain_of_comesThrough (hP : Addressed P) (ht : Part P t)
    (hvalues : ∀ e v, Own t e → ChildOf (.leaf v) e → decodeAccount v = none)
    (h : ComesThrough t (treeHash t) fun _ => none) : ∀ e, Own t e → Plain e := by
  have hi := ht.good.inner
  -- deliver what is plain, as long as it is waited for
  have hright : PlainData t fun h d => Fed t h d ∧ ∀ e, Own t e → h = keccak256 (treeEncoding e) → Plain e :=
    fun e d ho hd => ⟨Correct.eq hP.free (ho.part ht) (hd.1.correct ht), hd.2 e ho rfl⟩
  have hW := sound_ofPlain hP ht hright
  obtain ⟨hstart, _⟩ := @steady_newTrieSync _ _ _ (fun _ => none) _ hW nofun
    nofun ⟨rfl, t, .root, hi.treeHash_eq⟩
  obtain ⟨s, hrun, hend⟩ := SyncRun.exists_fed hW (fun _ _ hd => hd) hstart
    (fun _ _ hasked _ => mem_hashes_of_asked ht hasked) le_rfl
  have hfed : SyncRun (Fed t) (newStateSync (treeHash t) (fun _ => none), []) (s, []) := hrun.mono fun _ _ hd => hd.1
  obtain ⟨hs, _⟩ := hrun.steady hW hstart
  by_cases hpending : s.pending = 0
  · -- everything is stored, and only plain nodes are
    intro e ho
    have hcommit := SyncRun.steady hW (.tail hrun (.commit none)) hstart
    have hstored := h.stored (.tail hfed (.commit none)) hpending rfl _ (ho.fed ht).1
    exact (hcommit.1.rightStore _ _ hstored).2 e ho rfl
  · obtain ⟨r, hr, hdata⟩ := exists_waiting_ofPlain ht hright hs hpending
    obtain ⟨hkind, e, ho, hhash⟩ := hs.asked r hr
    have hbad : ∃ e, Own t e ∧ r.hash = keccak256 (treeEncoding e) ∧ ¬ Plain e := by
      by_contra hnone
      push Not at hnone
      exact hend r hr hdata _ ⟨hhash ▸ ho.fed ht, hnone⟩
    obtain ⟨e, ho, hhash, hbad⟩ := hbad
    unfold Plain at hbad
    push Not at hbad
    obtain ⟨v, hc⟩ := hbad
    have hleaf : accountLeaf v = none := by
      unfold accountLeaf
      rw [hvalues e v ho hc]
    exact absurd (h.taken hfed r hr hdata _ (hhash ▸ ho.fed ht))
      (processItem_of_bad hs.nodup hr hdata hkind (ho.part ht).good hc hleaf)

theorem comesThrough_nil (db : Hash → Option Bytes) : ComesThrough .nil (treeHash .nil) db := by
  -- the scheduler has nothing to do, whatever comes
  have hW : (runPlan (fun _ _ => False) (fun _ _ => True) (fun _ _ => True) (fun _ _ _ => False) []).Sound :=
    sound_of_suits fun _ _ _ hasked _ => hasked.elim
  have hstart : (newStateSync (treeHash .nil) db).Steady
      (runPlan (fun _ _ => False) (fun _ _ => True) (fun _ _ => True) (fun _ _ _ => False) []) :=
    steady_idle (fun _ _ _ => trivial) fun _ _ _ _ hc => hc.elim
  have hrun : ∀ {s handed}, SyncRun (Fed .nil) (newStateSync (treeHash .nil) db, []) (s, handed) → s.requests = [] := by
    intro s handed h
    obtain ⟨hs, _⟩ := (h.mono fun _ _ _ => trivial).steady hW hstart
    by_contra hne
    obtain ⟨r, hr⟩ := exists_mem_of_ne_nil s.requests hne
    exact hs.asked r hr
  refine ⟨?_, ?_, ?_, nofun⟩
  · intro s handed h r hr
    rw [hrun h] at hr
    cases hr
  · intro s handed h hpending
    exact absurd (congrArg List.length (hrun h)) hpending
  · intro s handed h
    exact ⟨s, handed, .refl, congrArg List.length (hrun h)⟩

end

/-! ## Contexts -/

section
variable {ok : Bytes → Prop} {n : Node}

theorem Node.Filled.allValues (h : n.Filled ok) : AllValues ok n.tree := by
  induction n with
  | nil => trivial
  | value v => exact h
  | hash _ => exact h.elim
  | short k val flags ih => exact ih h.2
  | full cs flags ih => exact fun i => ih i (h.2 i)

/-- The tree of such a trie. -/
theorem Trie.Holding.tree {t : Trie} (h : t.Holding ok) :
    WF t.root.tree ∧ Valued t.root.tree ∧ AllValues ok t.root.tree := by
  obtain ⟨m, tree, hl, hw, _⟩ := h.readable
  obtain ⟨rfl, hv⟩ := hl.eq_tree h.filled.fresh
  exact ⟨hw, hv, h.filled.allValues⟩

end

namespace DposContext

/-- The contexts that the operations lead to from genesis: votes, new validators, a new
epoch and a minted block. -/
inductive Reached (nodes : NodeDatabase) : DposContext → Prop
  | genesis (validators : Option (List Address)) : Reached nodes (initGenesisDposContext nodes validators)
  | vote {d} (op : Poll.Op Address) : Reached nodes d → Reached nodes (d.apply op).2
  | setValidators {d} (validators : List Address) : Reached nodes d → Reached nodes (d.setValidators validators)
  | newEpoch {d} : Reached nodes d → Reached nodes { d with epochTrie := .empty nodes epochPrefix }
  | mint {d d'} (parentTime time : Int) (validator : Address) : Reached nodes d →
      Dpos.updateMintCnt parentTime time validator d = .ok () d' → Reached nodes d'

/-- The values of the five tries. -/
structure Filled (d : DposContext) : Prop where
  votes : d.Votes (Trie.Holding (·.length = 20))
  epoch : d.epochTrie.Holding fun v => ∃ validators, v = encodeValidators validators
  mintCnt : d.mintCntTrie.Holding (·.length = 8)

theorem invariant_address : TrieInvariant (·.length = 20) (Trie.Holding (·.length = 20)) :=
  Trie.holding_invariant fun v hv he => by
    rw [he] at hv
    cases hv

theorem invariant_count : TrieInvariant (·.length = 8) (Trie.Holding (·.length = 8)) :=
  Trie.holding_invariant fun v hv he => by
    rw [he] at hv
    cases hv

theorem invariant_validators : TrieInvariant (fun v => ∃ validators, v = encodeValidators validators)
    (Trie.Holding fun v => ∃ validators, v = encodeValidators validators) :=
  Trie.holding_invariant fun v hv he => by
    obtain ⟨validators, rfl⟩ := hv
    exact encodeValidators_ne_nil validators he

theorem filled_new (nodes : NodeDatabase) : (DposContext.new nodes).Filled :=
  ⟨⟨Trie.holding_empty _ _, Trie.holding_empty _ _, Trie.holding_empty _ _⟩, Trie.holding_empty _ _, Trie.holding_empty _ _⟩

variable {d : DposContext}

theorem Filled.setEpoch (h : d.Filled) {t : Trie} (ht : t.Holding fun v => ∃ validators, v = encodeValidators validators) :
    ({ d with epochTrie := t } : DposContext).Filled :=
  ⟨⟨h.votes.candidates, h.votes.delegates, h.votes.votes⟩, ht, h.mintCnt⟩

theorem Filled.setMintCnt (h : d.Filled) {t : Trie} (ht : t.Holding (·.length = 8)) :
    ({ d with mintCntTrie := t } : DposContext).Filled :=
  ⟨⟨h.votes.candidates, h.votes.delegates, h.votes.votes⟩, h.epoch, ht⟩

theorem Filled.setValidators (h : d.Filled) (validators : List Address) : (d.setValidators validators).Filled :=
  h.setEpoch (invariant_validators.update validatorKey ⟨validators, rfl⟩ h.epoch)

theorem Filled.genesisValidator (h : d.Filled) (v : Address) : (genesisValidator d v).Filled :=
  ⟨⟨invariant_address.update _ v.length_eq h.votes.candidates, invariant_address.update _ v.length_eq h.votes.delegates,
    h.votes.votes⟩, h.epoch, h.mintCnt⟩

theorem filled_genesis (nodes : NodeDatabase) (validators : Option (List Address)) :
    (initGenesisDposContext nodes validators).Filled := by
  have hfold : ∀ (vs : List Address) {d : DposContext}, d.Filled → (vs.foldl Bgmchain.genesisValidator d).Filled := by
    intro vs
    induction vs with
    | nil => exact fun h => h
    | cons v vs ih => exact fun h => ih (h.genesisValidator v)
  cases validators with
  | none => exact filled_new nodes
  | some vs => exact hfold vs ((filled_new nodes).setValidators vs)

theorem Filled.updateMintCnt (h : d.Filled) {parentTime time : Int} {validator : Address} {d' : DposContext}
    (hmint : Dpos.updateMintCnt parentTime time validator d = .ok () d') : d'.Filled := by
  refine (Dpos.updateMintCnt_keeps ?_ ?_ parentTime time validator).ok h hmint
  · exact fun d k h => h.setMintCnt (invariant_count.get k h.mintCnt)
  · exact fun d k n h => h.setMintCnt (invariant_count.update k (BigEndian.length_encode _ _) h.mintCnt)

/-- **What the operations write into the five tries.** -/
theorem Reached.filled {nodes : NodeDatabase} (h : Reached nodes d) : d.Filled := by
  induction h with
  | genesis validators => exact filled_genesis nodes validators
  | @vote d op _ ih =>
    have hsame := apply_sameBooks d op
    refine ⟨(kept_votes invariant_address).apply ih.votes op, ?_, ?_⟩
    · rw [hsame.epoch]
      exact ih.epoch
    · rw [hsame.mintCnt]
      exact ih.mintCnt
  | setValidators validators _ ih => exact ih.setValidators validators
  | newEpoch _ ih => exact ih.setEpoch (Trie.holding_empty _ _)
  | mint parentTime time validator _ hmint ih => exact ih.updateMintCnt hmint

/-- The tries of a context, in the order of `syncDposContextState`. -/
def tries (d : DposContext) : List Trie := [d.candidateTrie, d.delegateTrie, d.voteTrie, d.epochTrie, d.mintCntTrie]

/-- A value that a scheduler for account tries refuses. -/
def NoAccount (v : Bytes) : Prop := v.length < 256 ^ 8 → decodeAccount v = none

theorem noAccount_of_short {v : Bytes} (h : v.length ≤ 36) : NoAccount v := by
  intro _
  cases hdec : decodeAccount v with
  | none => rfl
  | some obj =>
    have := length_of_decodeAccount hdec
    omega

theorem noAccount_encodeValidators (validators : List Address) : NoAccount (encodeValidators validators) := by
  intro hlen
  cases validators with
  | nil => decide +kernel
  | cons v vs =>
    have h20 : v.bytes.length = 20 := v.length_eq
    have h8 : 8 < v.bytes.length := by omega
    have hshort : v.bytes.length < 256 ^ 8 := by omega
    exact decodeAccount_of_long h8 hshort ((length_le_encodeList _).trans_lt hlen)

/-- No trie of a context holds an account. -/
theorem Filled.mem_tries (h : d.Filled) {t : Trie} (ht : t ∈ d.tries) : t.Holding NoAccount := by
  have haddress : ∀ v : Bytes, v.length = 20 → NoAccount v := fun v hv => noAccount_of_short (by omega)
  simp only [tries, mem_cons, not_mem_nil, or_false] at ht
  rcases ht with rfl | rfl | rfl | rfl | rfl
  · exact h.votes.candidates.mono haddress
  · exact h.votes.delegates.mono haddress
  · exact h.votes.votes.mono haddress
  · refine h.epoch.mono fun v hv => ?_
    obtain ⟨validators, rfl⟩ := hv
    exact noAccount_encodeValidators validators
  · exact h.mintCnt.mono fun v hv => noAccount_of_short (by omega)

section
variable [Crypto] {P : Set Bytes}

/-- A value is shorter than the node it stands in. -/
theorem noAccount_of_own {t e : TrieTree} (ht : Part P t) (hall : AllValues NoAccount t) {v : Bytes} (ho : Own t e)
    (hc : ChildOf (.leaf v) e) : decodeAccount v = none := by
  have hv : AllValues NoAccount (.leaf v) := hc.allValues (ho.allValues hall)
  have he := (ho.part ht).good
  have hlt := he.inner.length_items_lt hc.treeRef_mem
  have hle := length_le_encodeString v
  have hsize := he.sized.1
  exact hv (hle.trans_lt (hlt.trans hsize))

/-- **The tries of a context come through exactly when no value in them is in sight**: each
with a scheduler of its own, from any database that is closed below it. -/
theorem comesThrough_iff (hP : Addressed P) {nodes : NodeDatabase} (hd : Reached nodes d)
    (hknown : ∀ t ∈ d.tries, t.root.tree = .nil ∨ Known P true t.root.tree) :
    (∀ t ∈ d.tries, ∀ db, Keyed P db → ClosedBelow t.root.tree db → ComesThrough t.root.tree t.hash db) ↔
      ∀ t ∈ d.tries, valueInSight t.root.tree = false := by
  refine forall₂_congr fun t ht => ?_
  have hholding := hd.filled.mem_tries ht
  obtain ⟨hw, hv, hall⟩ := hholding.tree
  rw [Trie.hash_eq_treeHash hholding.filled.fresh hw]
  rcases hknown t ht with hnil | hk
  · rw [hnil]
    exact ⟨fun _ => rfl, fun _ db _ _ => comesThrough_nil db⟩
  · rcases wf_nil_or_inner hw with hnil | hi
    · rw [hnil]
      exact ⟨fun _ => rfl, fun _ db _ _ => comesThrough_nil db⟩
    · have hpart : Part P t.root.tree := ⟨⟨hw, hi, hv, hk.sized hP.toDistinct⟩, hk⟩
      rw [valueInSight_eq_false_iff]
      constructor
      · intro h
        exact plain_of_comesThrough hP hpart (fun e v ho hc => noAccount_of_own hpart hall ho hc)
          (h _ ⟨nofun, nofun⟩ nofun)
      · intro hplain db hdb hclosed
        exact comesThrough_of_plain hP hpart hplain hdb hclosed

end

end DposContext

/-! ## Candidates -/

namespace Candidates

/-- The first bytes as hash, but for the string whose hash is the root of the empty trie. -/
scoped instance : Crypto where
  keccak256 b := if b = encodeString [] then emptyRoot else .ofBytes 32 (b.take 32)
  keccak512 b := .ofBytes 64 b
  ecrecover _ _ := none

def nodes : NodeDatabase := ⟨fun _ _ => none, 0⟩

/-- A new context with one candidate. -/
def one : DposContext := ((initGenesisDposContext nodes none).apply (.becomeCandidate (bytesToAddress [1]))).2

/-- Its candidate trie has one node, and the scheduler for it refuses this node. -/
theorem one_candidate_refused : DposContext.Reached nodes one ∧
      Fed one.candidateTrie.root.tree one.candidateTrie.hash (treeEncoding one.candidateTrie.root.tree) ∧
      ((newStateSync one.candidateTrie.hash fun _ => none).process
        [(one.candidateTrie.hash, treeEncoding one.candidateTrie.root.tree)]).1 = (false, 0, some .leaf) :=
  ⟨.vote _ (.genesis none), ⟨by decide +kernel, by decide +kernel⟩, by decide +kernel⟩

/-- Two candidates whose addresses differ in the last digit only. -/
def two : DposContext := (one.apply (.becomeCandidate (bytesToAddress [2]))).2

/-- All that is hashed. -/
def strings : List Bytes := encodeString [] :: treeStrings two.candidateTrie.root.tree

theorem addressed : Addressed {bs | bs ∈ strings} := by
  have hfree : ∀ a ∈ strings, ∀ b ∈ strings, keccak256 a = keccak256 b → a = b := by decide +kernel
  have hsize : ∀ bs ∈ strings, bs.length < 256 ^ 8 := by decide +kernel
  have hzero : ∀ bs ∈ strings, keccak256 bs ≠ .zero 32 := by decide +kernel
  exact ⟨⟨hfree, hsize⟩, mem_cons_self, rfl, hzero⟩

theorem two_candidates_come_through :
    ComesThrough two.candidateTrie.root.tree two.candidateTrie.hash fun _ => none := by
  have hreached : DposContext.Reached nodes two := .vote _ (.vote _ (.genesis none))
  have hbelow : ∀ bs ∈ treePreimages two.candidateTrie.root.tree, bs ∈ strings := by decide +kernel
  have hown : treeEncoding two.candidateTrie.root.tree ∈ strings := by decide +kernel
  have hknown : ∀ t ∈ two.tries, t.root.tree = .nil ∨ Known {bs | bs ∈ strings} true t.root.tree := by
    intro t ht
    simp only [DposContext.tries, mem_cons, not_mem_nil, or_false] at ht
    rcases ht with rfl | rfl | rfl | rfl | rfl
    · exact .inr ⟨hbelow, fun _ => hown⟩
    · exact .inl rfl
    · exact .inl rfl
    · exact .inl rfl
    · exact .inl rfl
  have hsight : ∀ t ∈ two.tries, valueInSight t.root.tree = false := by decide +kernel
  exact (DposContext.comesThrough_iff addressed hreached hknown).mpr hsight _ mem_cons_self _
    ⟨nofun, nofun⟩ nofun

end Candidates

end Bgmchain
