import Bgmchain.Trie.Iterator

/-! # What the iterators visit

The stack of an iterator determines the list of nodes still to come
(`Pending`): below every node on it, the part of its subtree that starts at its
index. One step of the walk takes the head of that list, seeking drops the
nodes before a key, and so a prefix iterator yields the entries of the map
whose keys have the prefix, in key order. -/
namespace Bgmchain
open Common Lib.Patricia LeafIterator
open List hiding lookup insert

/-- A node of the walk with its path. -/
abbrev Visit := List Nibble × TrieTree

/-- The nodes the walk still has to visit, with the stack and current path. -/
inductive Pending (db : NodeDatabase) : List IteratorState → List Nibble → List Visit → Prop
  | nil {path} : Pending db [] path []
  | cons {s rest path t L} : Loads db s.node t → s.node.Resolved → (WF t ∨ ∃ v, t = .leaf v) →
      Pending db rest (path.take s.pathlen) L → Pending db (s :: rest) path (below s.next path t ++ L)

variable {L : List Visit} {t : Trie}

namespace NodeIterator

variable {s : IteratorState} {tree : TrieTree} {p : List Nibble}

section
variable {t : Trie}

/-- What `nextChild` finds in a node, in terms of the nodes below it. -/
theorem nextChild_spec (hl : Loads t.db s.node tree)
    (hr : s.node.Resolved) (hw : WF tree ∨ ∃ v, tree = .leaf v) (path : List Nibble) :
    (nextChild s path = none ∧ below s.next path tree = []) ∨
    ∃ n x c next', nextChild s path = some (⟨n, 0, path.length⟩, path ++ x, { s with next := next' }) ∧
      Loads t.db n c ∧ (WF c ∨ ∃ v, c = .leaf v) ∧
      below s.next path tree = below next' path tree ∧
      below next' path tree =
        (path ++ x, c) :: (below 0 (path ++ x) c ++ below (next' + 1) path tree) := by
  obtain ⟨node, next, pathlen⟩ := s
  cases hl with
  | nil | value _ => exact .inl ⟨rfl, rfl⟩
  | @short k val c flags hc =>
    by_cases hn : next = 0
    · subst hn
      obtain ⟨_, hne, hcw⟩ := (hw.resolve_right (by simp)).short_below
      refine .inr ⟨val, k, c, 0, by simp [nextChild], hc, hcw, rfl, ?_⟩
      simp [below, preorder_eq _ hne]
    · exact .inl ⟨by simp [nextChild, hn], by simp [below, hn]⟩
  | @full cs ts flags hc =>
    have hnil : (fun i => !(cs i).isNil) = fun i => !Lib.Patricia.isNil (ts i) :=
      funext fun i => by rw [(hc i).isNil_iff]
    cases hf : ((List.finRange 17).drop next).find? fun i => !(cs i).isNil with
    | none => exact .inl ⟨by simp [nextChild, hf], below_full_none path (hnil ▸ hf)⟩
    | some i =>
      obtain ⟨hne, hskip, hstep⟩ := below_full_some path (hnil ▸ hf)
      refine .inr ⟨cs i, [i], ts i, i.val, by simp [nextChild, hf], hc i,
        (hw.resolve_right (by simp)).full_below i, hskip, ?_⟩
      rw [hstep, preorder_eq _ hne]
      rfl
  | hash _ _ _ _ _ => exact hr.elim

/-- The loop of `peek` finds the head of the pending list. -/
theorem peekLoop_nil {st path L} (h : Pending t.db st path L) (hL : L = []) :
    ∃ path', peekLoop t st path = (.error .iteratorEnd, [], path') := by
  induction h with
  | @nil path => exact ⟨path, rfl⟩
  | @cons s rest path tree L hl hr hw _ ih =>
    obtain ⟨hb, hL⟩ := append_eq_nil_iff.mp hL
    rcases nextChild_spec hl hr hw path with ⟨hn, _⟩ | ⟨n, x, c, next', _, _, _, heq, hc⟩
    · obtain ⟨path', hp⟩ := ih hL
      exact ⟨path', by simp [peekLoop, hn, hp]⟩
    · rw [heq, hc] at hb
      cases hb

theorem peekLoop_cons {st path L} (h : Pending t.db st path L) {p tree L'} (hL : L = (p, tree) :: L') :
    ∃ s st' path', peekLoop t st path = (.ok (s, p), st', path') ∧ st' ≠ [] ∧
      Loads t.db s.node tree ∧ Pending t.db st' path' L ∧ Pending t.db (s :: bump st') p L' := by
  induction h with
  | nil => cases hL
  | @cons s rest path tr L hl hr hw hrest ih =>
    rcases nextChild_spec hl hr hw path with ⟨hn, hb⟩ | ⟨n, x, c, next', hn, hln, hcw, heq, hc⟩
    · rw [hb] at hL ⊢
      obtain ⟨s', st', path', hp, hst, hls, hpend, hpush⟩ := ih hL
      exact ⟨s', st', path', by simp [peekLoop, hn, hp], hst, hls, hpend, hpush⟩
    · obtain ⟨n', hres, hln', hrn'⟩ := hln.resolve t.cachegen (path ++ x)
      rw [heq, hc] at hL
      obtain ⟨hhead, rfl⟩ := List.cons.inj hL
      obtain ⟨rfl, rfl⟩ := Prod.mk.inj hhead
      refine ⟨⟨n', 0, path.length⟩, { s with next := next' } :: rest, path,
        by simp [peekLoop, hn, hres], by simp, hln', ?_, ?_⟩
      · rw [heq]
        exact .cons hl hr hw hrest
      · have hbump : Pending t.db ({ s with next := next' + 1 } :: rest) path
            (below (next' + 1) path tr ++ L) := .cons hl hr hw hrest
        have hpush : Pending t.db (⟨n', 0, path.length⟩ :: { s with next := next' + 1 } :: rest)
            (path ++ x) (below 0 (path ++ x) c ++ (below (next' + 1) path tr ++ L)) :=
          .cons hln' hrn' hcw (by simpa using hbump)
        simpa [bump] using hpush

/-- `peek` without descending skips what is pending below the top node. -/
theorem peek_eq {it : NodeIterator} {L} (hst : it.stack ≠ []) (h : Pending t.db it.stack it.path L)
    (descend : Bool) : ∃ st path L', Pending t.db st path L' ∧
      (peek t it descend = ((peekLoop t st path).1,
        { it with stack := (peekLoop t st path).2.1, path := (peekLoop t st path).2.2 })) ∧
      (descend = true → L' = L) ∧ ∃ skipped, L = skipped ++ L' ∧ ∀ e ∈ skipped, it.path <+: e.1 := by
  obtain ⟨stack, path, err, fuel⟩ := it
  cases h with
  | nil => exact absurd rfl hst
  | @cons s rest _ tr L hl hr hw hrest =>
    cases descend with
    | true => exact ⟨_, _, _, .cons hl hr hw hrest, rfl, fun _ => rfl, [], rfl, by simp⟩
    | false =>
      refine ⟨_, _, _, hrest, rfl, by simp, below s.next path tr, rfl, ?_⟩
      intro e he
      exact prefix_of_mem_below he

end

/-! ## Seeking -/

theorem filter_not_lt_eq_self {key : List Nibble}
    (hs : ((p, tree) :: L).Pairwise fun a b => a.1 < b.1) (hp : ¬ p < key) :
    ((p, tree) :: L).filter (fun e => !decide (e.1 < key)) = (p, tree) :: L := by
  rw [filter_eq_self]
  intro e he
  rcases mem_cons.mp he with rfl | he
  · simpa using hp
  · have hlt := (pairwise_cons.mp hs).1 e he
    simp only [Bool.not_eq_eq_eq_not, Bool.not_true, decide_eq_false_iff_not]
    intro hek
    exact hp (List.lt_trans hlt hek)

section
variable {t : Trie} {pre : Bytes} {f : Nat} {it it' : NodeIterator}

theorem seek_end (h : peek t it (it.path <+: nibbles pre) = (.error .iteratorEnd, it')) :
    seek t pre (f + 1) it = (it', some .iteratorEnd) := by
  simp only [seek, h]

theorem seek_push (h : peek t it (it.path <+: nibbles pre) = (.ok (s, p), it')) (hp : p < nibbles pre) :
    seek t pre (f + 1) it = seek t pre f (it'.push s p) := by
  conv_lhs => unfold seek
  simp only [h, if_pos hp]

theorem seek_stop (h : peek t it (it.path <+: nibbles pre) = (.ok (s, p), it')) (hp : ¬ p < nibbles pre) :
    seek t pre (f + 1) it = (it', none) := by
  simp only [seek, h, if_neg hp]

end

/-- **Seeking drops the nodes before the key.** -/
theorem seek_spec (pre : Bytes) (f : Nat) :
    ∀ (it : NodeIterator) {L}, Pending t.db it.stack it.path L → it.stack ≠ [] →
      L.Pairwise (fun a b => a.1 < b.1) → it.path < nibbles pre → L.length < f →
      ∃ it' e, seek t pre f it = (it', e) ∧ it'.fuel = it.fuel ∧
        ((e = some .iteratorEnd ∧ L.filter (fun e => !decide (e.1 < nibbles pre)) = []) ∨
         (e = none ∧ it'.stack ≠ [] ∧
          Pending t.db it'.stack it'.path (L.filter fun e => !decide (e.1 < nibbles pre)))) := by
  induction f with
  | zero => intro it L _ _ _ _ hf; cases hf
  | succ f ih =>
    intro it L hpend hst hsort hlt hlen
    obtain ⟨st, path, L', hp', hpeek, hdesc, skipped, hskip, hpre⟩ :=
      peek_eq hst hpend (it.path <+: nibbles pre)
    -- what is skipped lies before the key
    have hfilter : L.filter (fun e => !decide (e.1 < nibbles pre)) =
        L'.filter fun e => !decide (e.1 < nibbles pre) := by
      by_cases hd : it.path <+: nibbles pre
      · rw [hdesc (by simpa using hd)]
      · have hnone : skipped.filter (fun e => !decide (e.1 < nibbles pre)) = [] := by
          rw [filter_eq_nil_iff]
          intro e he
          obtain ⟨x, hx⟩ := hpre e he
          simpa [← hx] using append_lt_of_lt hlt hd x
        rw [hskip, filter_append, hnone, nil_append]
    have hsort' : L'.Pairwise fun a b => a.1 < b.1 := by
      rw [hskip] at hsort
      exact (pairwise_append.mp hsort).2.1
    have hlen' : L'.length ≤ L.length := by
      rw [hskip]
      simp
    rw [hfilter]
    cases L' with
    | nil =>
      obtain ⟨path', hend⟩ := peekLoop_nil hp' rfl
      rw [hend] at hpeek
      exact ⟨_, _, seek_end hpeek, rfl, .inl ⟨rfl, rfl⟩⟩
    | cons head L' =>
      obtain ⟨p, tree⟩ := head
      obtain ⟨s, st', path', hloop, hne, _, hpend', hpush⟩ := peekLoop_cons hp' rfl
      rw [hloop] at hpeek
      by_cases hpk : p < nibbles pre
      · obtain ⟨it', e, hseek, hfuel, hres⟩ := ih
          (push { it with stack := st', path := path' } s p) hpush (by simp [push]) (pairwise_cons.mp hsort').2 hpk
          (by simp only [length_cons] at hlen'; omega)
        refine ⟨it', e, (seek_push hpeek hpk).trans hseek, by simpa [push] using hfuel, ?_⟩
        rw [filter_cons_of_neg (by simpa using hpk)]
        exact hres
      · refine ⟨{ it with stack := st', path := path' }, none, seek_stop hpeek hpk, rfl,
          .inr ⟨rfl, hne, ?_⟩⟩
        rw [filter_not_lt_eq_self hsort' hpk]
        exact hpend'

/-- The iterator has these nodes ahead of it. -/
def Ahead (db : NodeDatabase) (it : NodeIterator) (L : List Visit) : Prop :=
  (it.err = some .iteratorEnd ∧ L = []) ∨
    (it.err = none ∧ it.stack ≠ [] ∧ Pending db it.stack it.path L)

/-- A new iterator has all nodes from its start key on ahead of it. -/
theorem new_ahead (hl : Loads t.db t.root tree) (hw : WF tree) (start : Bytes) (hs : start ≠ []) :
    Ahead t.db (new t start) ((below 0 [] tree).filter fun e => !decide (e.1 < nibbles start)) ∧
      (below 0 [] tree).length < (new t start).fuel := by
  obtain ⟨n, hres, hln, hrn⟩ := hl.resolve t.cachegen []
  have hpend : Pending t.db [⟨n, 0, 0⟩] [] (below 0 [] tree ++ []) := .cons hln hrn (.inl hw) .nil
  rw [append_nil] at hpend
  obtain ⟨b, bs, rfl⟩ := exists_cons_of_ne_nil hs
  have hroot : ([] : List Nibble) < nibbles (b :: bs) := nil_lt_cons _ _
  have hlen : (below 0 [] tree).length ≤ t.root.weight t.db := by
    by_cases hn : tree = .nil
    · simp [hn, below]
    · have := length_preorder_le tree []
      rw [preorder_eq _ hn, length_cons] at this
      have := hl.size_le
      omega
  have hsort : (below 0 [] tree).Pairwise fun a b => a.1 < b.1 := below_sorted (.inl hw) []
  obtain ⟨it', e, hseek, hfuel, hres'⟩ := seek_spec (b :: bs) (t.root.weight t.db + 1)
    (push ⟨[], [], none, t.root.weight t.db + 2⟩ ⟨n, 0, 0⟩ []) hpend (by simp [push]) hsort
    hroot (by omega)
  have hnew : new t (b :: bs) = { it' with err := e } := by
    have hpeek : peek t ⟨[], [], none, t.root.weight t.db + 2⟩ ([] <+: nibbles (b :: bs)) =
        (.ok (⟨n, 0, 0⟩, []), ⟨[], [], none, t.root.weight t.db + 2⟩) := by
      simp only [peek, hres]
    simp only [new, seek_push hpeek hroot, hseek]
  rw [hnew]
  refine ⟨?_, by simp only [hfuel, push]; omega⟩
  rcases hres' with ⟨he, hL⟩ | ⟨he, hst, hp⟩
  · exact .inl ⟨he, hL⟩
  · exact .inr ⟨he, hst, hp⟩

/-- One step of the walk, with the trie possibly changed since the last. -/
theorem next_ahead {it : NodeIterator} {L} (h : Ahead t.db it L) :
    match L with
    | [] => ∃ it', next t it true = (false, it') ∧ Ahead t.db it' [] ∧ it'.fuel = it.fuel
    | (p, tree) :: L' => ∃ it', next t it true = (true, it') ∧ Ahead t.db it' L' ∧ it'.path = p ∧
        it'.fuel = it.fuel ∧ ∀ v, tree = .leaf v → it'.leafBlob = some v := by
  rcases h with ⟨he, rfl⟩ | ⟨he, hst, hpend⟩
  · exact ⟨it, by simp [next, he], .inl ⟨he, rfl⟩, rfl⟩
  · obtain ⟨st, path, L', hp, hpeek, hdesc, _⟩ := peek_eq hst hpend true
    rw [hdesc rfl] at hp
    cases L with
    | nil =>
      obtain ⟨path', hend⟩ := peekLoop_nil hp rfl
      rw [hend] at hpeek
      exact ⟨{ it with stack := [], path := path', err := some .iteratorEnd },
        by simp only [next, he, advance, hpeek], .inl ⟨rfl, rfl⟩, rfl⟩
    | cons head L =>
      obtain ⟨p, tree⟩ := head
      obtain ⟨s, st', path', hloop, _, hls, _, hpush⟩ := peekLoop_cons hp rfl
      rw [hloop] at hpeek
      refine ⟨{ push { it with stack := st', path := path' } s p with err := none },
        by simp only [next, he, advance, hpeek], .inr ⟨rfl, by simp [push], hpush⟩, rfl, rfl, ?_⟩
      intro v hv
      subst hv
      have hres : s.node.Resolved := by
        cases hpush with
        | cons _ hr _ _ => exact hr
      obtain ⟨node, n, k⟩ := s
      cases hls with
      | value _ => rfl
      | hash _ _ _ _ _ => exact hres.elim

end NodeIterator

/-! ## Leaf iterators -/

def leafValue : TrieTree → Option Bytes
  | .leaf v => some v
  | _ => none

/-- The values among the nodes whose path has the prefix. -/
def leafValues (within : List Nibble) (L : List Visit) : List Bytes :=
  (L.filter fun e => decide (within <+: e.1)).filterMap fun e => leafValue e.2

/-- The values a leaf iterator still has to yield. -/
def LeafIterator.Yields (db : NodeDatabase) (it : LeafIterator) (vs : List Bytes) : Prop :=
  ∃ L : List Visit, it.nodeIt.Ahead db L ∧ L.length < it.nodeIt.fuel ∧
    L.Pairwise (fun a b => a.1 < b.1) ∧ (∀ e ∈ L, ¬ e.1 < it.within) ∧
    (∀ e ∈ L, hasTerm e.1 = true ↔ ∃ v, e.2 = .leaf v) ∧ vs = leafValues it.within L

variable {p : List Nibble} {tree : TrieTree}

/-- A node that is not a leaf with the prefix adds no value. -/
theorem leafValues_skip {within : List Nibble} (h : ¬ (within <+: p ∧ ∃ v, tree = .leaf v)) :
    leafValues within ((p, tree) :: L) = leafValues within L := by
  by_cases hp : within <+: p
  · cases tree with
    | leaf v => exact absurd ⟨hp, v, rfl⟩ h
    | nil | short | full => simp [leafValues, hp, leafValue]
  · simp [leafValues, hp]

/-- Once a path is outside the prefix, so are all later ones. -/
theorem leafValues_outside {within : List Nibble}
    (hs : ((p, tree) :: L).Pairwise fun a b => a.1 < b.1) (hlt : ¬ p < within)
    (hp : ¬ within <+: p) : leafValues within ((p, tree) :: L) = [] ∧ leafValues within L = [] := by
  have hL : L.filter (fun e => decide (within <+: e.1)) = [] := by
    rw [filter_eq_nil_iff]
    intro e he
    have hpe := (pairwise_cons.mp hs).1 e he
    simp only [decide_eq_true_eq]
    intro hw
    exact hp (prefix_of_between hlt hpe hw)
  constructor
  · rw [leafValues, filter_cons_of_neg (by simpa using hp), hL]
    rfl
  · rw [leafValues, hL]
    rfl

/-- A computation ends in a state with `P`, or fails with an error that has `Q`. -/
def Ends {σ ε : Type} (P : σ → Prop) (Q : ε → Prop) : Except ε σ → Prop
  | .ok s => P s
  | .error e => Q e

/-- What `Next` answers when these values are left. -/
def stepOf : List Bytes → IteratorStep
  | [] => .done
  | v :: _ => .item v

namespace LeafIterator

theorem nextLoop_yields (f : Nat) :
    ∀ (it : LeafIterator) {L : List Visit}, it.nodeIt.Ahead t.db L → L.length < f →
      L.length < it.nodeIt.fuel → L.Pairwise (fun a b => a.1 < b.1) →
      (∀ e ∈ L, ¬ e.1 < it.within) → (∀ e ∈ L, hasTerm e.1 = true ↔ ∃ v, e.2 = .leaf v) →
      ∃ it', nextLoop t f it = (stepOf (leafValues it.within L), it') ∧
        it'.nodeIt.fuel = it.nodeIt.fuel ∧ it'.Yields t.db (leafValues it.within L).tail := by
  induction f with
  | zero => intro it L _ hf; cases hf
  | succ f ih =>
    intro it L ha hf hfuel hs hge hterm
    have hn := NodeIterator.next_ahead ha
    cases L with
    | nil =>
      obtain ⟨nodeIt, hnext, ha', hfu⟩ := hn
      refine ⟨{ it with nodeIt := nodeIt }, ?_, hfu, [], ha', ?_, .nil, by simp, by simp, rfl⟩
      · simp [nextLoop, nodeNext, hnext, leafValues, stepOf]
      · simpa [hfu] using hfuel
    | cons head L =>
      obtain ⟨p, tree⟩ := head
      obtain ⟨nodeIt, hnext, ha', hpath, hfu, hblob⟩ := hn
      have hs' := (pairwise_cons.mp hs).2
      have hge' : ∀ e ∈ L, ¬ e.1 < it.within := fun e he => hge e (mem_cons_of_mem _ he)
      have hterm' : ∀ e ∈ L, hasTerm e.1 = true ↔ ∃ v, e.2 = .leaf v :=
        fun e he => hterm e (mem_cons_of_mem _ he)
      have hlen : L.length < nodeIt.fuel := by
        simp only [length_cons] at hfuel
        omega
      by_cases hp : it.within <+: p
      · by_cases hv : ∃ v, tree = .leaf v
        · obtain ⟨v, rfl⟩ := hv
          have ht := (hterm _ mem_cons_self).mpr ⟨v, rfl⟩
          have hvals : leafValues it.within ((p, .leaf v) :: L) = v :: leafValues it.within L := by
            simp [leafValues, hp, leafValue]
          refine ⟨{ it with nodeIt := nodeIt }, ?_, hfu, L, ha', hlen, hs', hge', hterm', ?_⟩
          · simp [nextLoop, nodeNext, hnext, hpath, hp, ht, hblob v rfl, hvals, stepOf]
          · rw [hvals]
            rfl
        · have ht : ¬ hasTerm p = true := fun h => hv ((hterm _ mem_cons_self).mp h)
          have hvals : leafValues it.within ((p, tree) :: L) = leafValues it.within L :=
            leafValues_skip fun h => hv h.2
          obtain ⟨it', hrec, hfu', hy⟩ := ih { it with nodeIt := nodeIt } ha'
            (by simp only [length_cons] at hf; omega) hlen hs' hge' hterm'
          refine ⟨it', ?_, hfu'.trans hfu, by rw [hvals]; exact hy⟩
          rw [hvals, ← hrec]
          simp [nextLoop, nodeNext, hnext, hpath, hp, ht]
      · obtain ⟨hvals, hvals'⟩ := leafValues_outside hs (hge _ mem_cons_self) hp
        rw [hvals]
        refine ⟨{ it with nodeIt := nodeIt }, ?_, hfu, L, ha', hlen, hs', hge', hterm', hvals'.symm⟩
        simp [nextLoop, nodeNext, hnext, hpath, hp, stepOf]

variable {it : LeafIterator} {vs : List Bytes}

/-- One call of `Next` yields the first value left, or ends. -/
theorem Yields.next (h : it.Yields t.db vs) : ∃ it', next t it = (stepOf vs, it') ∧
      it'.nodeIt.fuel = it.nodeIt.fuel ∧ it'.Yields t.db vs.tail := by
  obtain ⟨L, ha, hlen, hs, hge, hterm, rfl⟩ := h
  exact nextLoop_yields it.nodeIt.fuel it ha hlen hlen hs hge hterm

theorem Yields.length_lt {db : NodeDatabase} (h : it.Yields db vs) : vs.length < it.nodeIt.fuel := by
  obtain ⟨L, _, hlen, _, _, _, rfl⟩ := h
  calc (leafValues it.within L).length
      ≤ (L.filter fun e => decide (it.within <+: e.1)).length := length_filterMap_le _ _
    _ ≤ L.length := length_filter_le _ _
    _ < it.nodeIt.fuel := hlen

/-- What every turn of a loop keeps, the loop keeps, however it ends. -/
theorem each_ends {σ ε : Type} (trieOf : σ → Trie) (panicked : σ → ε)
    {body : Bytes → σ → Except ε σ} {P : σ → Prop} {Q : ε → Prop}
    (hbody : ∀ v s, P s → Ends P Q (body v s)) (hpanic : ∀ s, P s → Q (panicked s)) (f : Nat) :
    ∀ (it : LeafIterator) (s : σ), P s → Ends P Q (each trieOf panicked body f it s) := by
  induction f with
  | zero => intro it s hs; exact hpanic s hs
  | succ f ih =>
    intro it s hs
    unfold each
    split
    next v it' _ =>
      have hv := hbody v s hs
      cases hb : body v s with
      | ok s' =>
        rw [hb] at hv
        exact ih it' s' hv
      | error e =>
        rw [hb] at hv
        exact hv
    · exact hs
    · exact hpanic s hs

/-- **A loop over an iterator is a fold over the values it yields**, whatever
the body does to the trie meanwhile. -/
theorem Yields.each {σ ε : Type} {trieOf : σ → Trie} {body : Bytes → σ → Except ε σ}
    {db : NodeDatabase} (hy : it.Yields db vs) (panicked : σ → ε)
    (hbody : ∀ v s s', (trieOf s).db = db → body v s = .ok s' → (trieOf s').db = db) :
    ∀ (s : σ) (f : Nat), (trieOf s).db = db → vs.length < f →
      each trieOf panicked body f it s = vs.foldlM (fun s v => body v s) s := by
  induction vs generalizing it with
  | nil =>
    intro s f hdb hf
    obtain _ | f := f
    · omega
    subst hdb
    obtain ⟨it', hn, _⟩ := hy.next
    simp [each, hn, stepOf, pure, Except.pure]
  | cons v vs ih =>
    intro s f hdb hf
    obtain _ | f := f
    · omega
    simp only [length_cons] at hf
    have hy' := hy
    rw [← hdb] at hy'
    obtain ⟨it', hn, _, hyt⟩ := hy'.next
    rw [hdb] at hyt
    simp only [each, hn, stepOf, foldlM_cons]
    cases hb : body v s with
    | error e => rfl
    | ok s' => exact ih hyt s' f (hbody v s s' hdb hb) (by omega)

theorem Yields.toList_eq (hy : it.Yields t.db vs) : it.toList t = vs := by
  have hfold : ∀ (vs acc : List Bytes),
      vs.foldlM (fun acc v => (Except.ok (acc ++ [v]) : Except (List Bytes) (List Bytes))) acc =
        .ok (acc ++ vs) := by
    intro vs
    induction vs with
    | nil => intro acc; simp [pure, Except.pure]
    | cons v vs ih => intro acc; simpa [foldlM_cons, bind, Except.bind] using ih (acc ++ [v])
  have he : it.each (fun _ => t) id (fun v vs => Except.ok (vs ++ [v])) it.nodeIt.fuel [] =
      vs.foldlM (fun acc v => (Except.ok (acc ++ [v]) : Except (List Bytes) (List Bytes))) [] :=
    hy.each id (fun _ _ _ h _ => h) [] _ rfl hy.length_lt
  rw [toList, he, hfold]
  rfl

end LeafIterator

/-! ## Entries of a map -/

/-- The entries of a map that satisfy a condition on the key, in the order of
the walk. -/
structure Entries (m : Bytes → Option Bytes) (sel : Bytes → Prop) (es : List (Bytes × Bytes)) :
    Prop where
  mem_iff : ∀ k v, (k, v) ∈ es ↔ sel k ∧ m k = some v
  sorted : es.Pairwise fun a b => keybytesToHex a.1 < keybytesToHex b.1

theorem Entries.nodup_keys {m sel es} (h : Entries m sel es) : (es.map Prod.fst).Nodup := by
  rw [List.Nodup, pairwise_map]
  refine h.sorted.imp fun {a b} hab heq => ?_
  rw [heq] at hab
  exact List.lt_irrefl _ hab

/-- Entries that are told apart by something are told apart by it in the list. -/
theorem Entries.nodup_map {α : Type} {m sel es} (h : Entries m sel es) {f : Bytes × Bytes → α}
    (hf : ∀ e ∈ es, ∀ e' ∈ es, f e = f e' → e.1 = e'.1) : (es.map f).Nodup := by
  have hkeys := h.nodup_keys
  rw [List.Nodup, pairwise_map] at hkeys ⊢
  exact hkeys.imp_of_mem fun {e e'} he he' hne heq => hne (hf e he e' he' heq)

/-- A map has one list of entries. -/
theorem Entries.unique {m sel es es'} (h : Entries m sel es) (h' : Entries m sel es') : es = es' := by
  have : Std.Irrefl fun a b : Bytes × Bytes => keybytesToHex a.1 < keybytesToHex b.1 :=
    ⟨fun a => List.lt_irrefl _⟩
  refine h.sorted.eq_of_mem_iff h'.sorted fun {e} => ?_
  rw [h.mem_iff, h'.mem_iff]

theorem append_lt_append_left {a b : List Nibble} : p ++ a < p ++ b ↔ a < b := by
  induction p with
  | nil => rfl
  | cons i p ih => simp [ih]

/-- The leaves of a walk are entries, when every leaf sits at the path of a key. -/
theorem exists_entries (pre : Bytes) (within : List Nibble) (hs : L.Pairwise fun a b => a.1 < b.1)
    (hk : ∀ p v, (p, .leaf v) ∈ L → ∃ k, p = keybytesToHex (pre ++ k)) :
    ∃ es : List (Bytes × Bytes), leafValues within L = es.map Prod.snd ∧ (∀ k v, (k, v) ∈ es ↔
        within <+: keybytesToHex (pre ++ k) ∧ (keybytesToHex (pre ++ k), .leaf v) ∈ L) ∧
      es.Pairwise fun a b => keybytesToHex a.1 < keybytesToHex b.1 := by
  induction L with
  | nil => exact ⟨[], rfl, by simp, .nil⟩
  | cons head L ih =>
    obtain ⟨p, tree⟩ := head
    obtain ⟨hlt, hs'⟩ := pairwise_cons.mp hs
    obtain ⟨es, hes, hmem, hsort⟩ := ih hs' fun p v h => hk p v (mem_cons_of_mem _ h)
    by_cases hv : within <+: p ∧ ∃ v, tree = .leaf v
    · obtain ⟨hp, v, rfl⟩ := hv
      obtain ⟨k, rfl⟩ := hk p v mem_cons_self
      refine ⟨(k, v) :: es, by simp [leafValues, hp, leafValue, ← hes], ?_, ?_⟩
      · intro k' v'
        simp only [mem_cons, Prod.mk.injEq, Tree.leaf.injEq, hmem, keybytesToHex_inj,
          append_cancel_left_eq]
        constructor
        · rintro (⟨rfl, rfl⟩ | ⟨hw, hin⟩)
          · exact ⟨hp, .inl ⟨rfl, rfl⟩⟩
          · exact ⟨hw, .inr hin⟩
        · rintro ⟨hw, he | hin⟩
          · exact .inl he
          · exact .inr ⟨hw, hin⟩
      · refine pairwise_cons.mpr ⟨?_, hsort⟩
        intro e he
        have hin := ((hmem e.1 e.2).mp he).2
        have := hlt _ hin
        simpa only [keybytesToHex, nibbles_append, append_assoc, append_lt_append_left] using this
    · refine ⟨es, ?_, ?_, hsort⟩
      · rw [← hes, leafValues_skip hv]
      · intro k v
        rw [hmem]
        refine and_congr_right fun hw => ⟨mem_cons_of_mem _, fun h => ?_⟩
        rcases mem_cons.mp h with heq | h
        · obtain ⟨rfl, rfl⟩ := Prod.mk.inj heq
          exact absurd ⟨hw, v, rfl⟩ hv
        · exact h

/-- Below the root of a tree in normal form the leaves are the entries of the map. -/
theorem leaf_mem_below (hw : WF tree) {v : Bytes} :
    (p, .leaf v) ∈ below 0 [] tree ↔ lookup tree p = some v := by
  by_cases hn : tree = .nil
  · simp [hn, below, lookup]
  · have h : (p, .leaf v) ∈ preorder [] tree ↔ ∃ key, p = [] ++ key ∧ lookup tree key = some v :=
      leaf_mem_preorder
    rw [preorder_eq _ hn, mem_cons] at h
    have hroot : (p, Tree.leaf v) ≠ ([], tree) := by
      intro he
      obtain ⟨_, rfl⟩ := Prod.mk.inj he
      cases hw
    simpa [hroot] using h

theorem hasTerm_iff_leaf (hw : WF tree) (hk : ∀ path v, lookup tree path = some v → ∃ k, path = keybytesToHex k)
    {e : Visit} (he : e ∈ below 0 [] tree) : hasTerm e.1 = true ↔ ∃ v, e.2 = .leaf v := by
  obtain ⟨p, s⟩ := e
  constructor
  · intro ht
    have hp : (p, s) ∈ preorder [] tree := by
      rw [preorder_eq _ (by rintro rfl; cases he)]
      exact mem_cons_of_mem _ he
    rcases inner_of_mem_preorder (.inl hw) hp with hv | ⟨x, hx, hlast⟩
    · exact hv
    · simp only [hasTerm, beq_iff_eq] at ht
      simp only [nil_append] at hx
      rw [hx] at ht
      exact absurd (mem_of_getLast? ht) hlast
  · rintro ⟨v, rfl⟩
    obtain ⟨k, rfl⟩ := hk p v ((leaf_mem_below hw).mp he)
    exact hasTerm_keybytesToHex k

/-- An extension of a key is not smaller than the key. -/
theorem not_hex_lt_of_prefix {pre start k : Bytes} (h : start <+: k) :
    ¬ keybytesToHex (pre ++ k) < nibbles (pre ++ start) := by
  obtain ⟨x, rfl⟩ := h
  rw [keybytesToHex, ← append_assoc, nibbles_append, append_assoc]
  intro hlt
  exact List.lt_irrefl _ (List.lt_of_le_of_lt List.le_append_left hlt)

variable {t : Trie}

/-- A leaf iterator that starts at a key yields the entries from there on that
lie within its prefix. -/
theorem Trie.Holds.yields {m} (h : t.Holds m) (start : Bytes)
    (hp : t.prefix_ ++ start ≠ []) {within : List Nibble} (hwithin : within = [] ∨ within = nibbles (t.prefix_ ++ start)) :
    ∃ es, Entries m (fun k => ¬ keybytesToHex (t.prefix_ ++ k) < nibbles (t.prefix_ ++ start) ∧
        within <+: keybytesToHex (t.prefix_ ++ k)) es ∧
      LeafIterator.Yields t.db ⟨.new t (t.prefix_ ++ start), within⟩ (es.map Prod.snd) := by
  obtain ⟨tree, hl, hw, hk, hm⟩ := h
  have hk' : ∀ path v, lookup tree path = some v → ∃ k, path = keybytesToHex k :=
    fun path v hpv => let ⟨k, hk⟩ := hk path v hpv; ⟨_, hk⟩
  obtain ⟨hahead, hlen⟩ := NodeIterator.new_ahead hl hw (t.prefix_ ++ start) hp
  have hsort : (below 0 [] tree).Pairwise fun a b => a.1 < b.1 := below_sorted (.inl hw) []
  obtain ⟨es, hes, hmem, hsorted⟩ := exists_entries t.prefix_ within (hsort.filter
    fun e => !decide (e.1 < nibbles (t.prefix_ ++ start))) fun p v hpv =>
      hk p v ((leaf_mem_below hw).mp (mem_of_mem_filter hpv))
  refine ⟨es, ⟨?_, hsorted⟩, _, hahead, ?_, hsort.filter _, ?_, ?_, hes.symm⟩
  · intro k v
    rw [hmem, mem_filter, leaf_mem_below hw, hm]
    simp only [Bool.not_eq_eq_eq_not, Bool.not_true, decide_eq_false_iff_not]
    tauto
  · exact (length_filter_le _ _).trans_lt hlen
  · intro e he
    have := (mem_filter.mp he).2
    rcases hwithin with rfl | rfl
    · exact List.not_lt_nil _
    · simpa using this
  · intro e he
    exact hasTerm_iff_leaf hw hk' (mem_of_mem_filter he)

/-- **A prefix iterator yields the entries whose keys have the prefix.** -/
theorem Trie.Holds.newPrefix {m} (h : t.Holds m) {pre : Bytes} (hp : pre ≠ []) :
    ∃ es, Entries m (pre <+: ·) es ∧ (newPrefix t pre).Yields t.db (es.map Prod.snd) := by
  obtain ⟨es, hes, hy⟩ := h.yields pre (by simp [hp]) (.inr rfl)
  refine ⟨es, ⟨fun k v => ?_, hes.sorted⟩, hy⟩
  rw [hes.mem_iff, nibbles_prefix_hex, prefix_append_right_inj]
  exact and_congr_left fun _ => ⟨And.right, fun hpre => ⟨ not_hex_lt_of_prefix hpre, hpre⟩⟩

/-- An iterator over the whole trie yields every entry. -/
theorem Trie.Holds.newIterator {m} (h : t.Holds m) (hp : t.prefix_ ≠ []) :
    ∃ es, Entries m (fun _ => True) es ∧ (LeafIterator.new t []).Yields t.db (es.map Prod.snd) := by
  obtain ⟨es, hes, hy⟩ := h.yields [] (by simpa using hp) (.inl rfl)
  refine ⟨es, ⟨fun k v => ?_, hes.sorted⟩, hy⟩
  rw [hes.mem_iff]
  simp only [ nil_prefix, and_true, true_and, and_iff_right_iff_imp]
  exact fun _ => not_hex_lt_of_prefix nil_prefix

/-- How many entries there are does not depend on the order they come in. -/
theorem Entries.length_le {m m' : Bytes → Option Bytes} {sel sel' : Bytes → Prop}
    {es es' : List (Bytes × Bytes)} (h : Entries m sel es) (h' : Entries m' sel' es') (extra : List Bytes)
    (hsub : ∀ k v, sel k → m k = some v → (∃ w, sel' k ∧ m' k = some w) ∨ k ∈ extra) :
    es.length ≤ es'.length + extra.length := by
  have hincl : es.map Prod.fst ⊆ es'.map Prod.fst ++ extra := by
    intro k hk
    obtain ⟨e, he, rfl⟩ := mem_map.mp hk
    obtain ⟨hsel, hm⟩ := (h.mem_iff e.1 e.2).mp he
    rcases hsub e.1 e.2 hsel hm with ⟨w, hw⟩ | hx
    · exact mem_append_left _ (mem_map.mpr ⟨(e.1, w), (h'.mem_iff e.1 w).mpr hw, rfl⟩)
    · exact mem_append_right _ hx
  have hlen := (h.nodup_keys.subperm hincl).length_le
  simpa using hlen

/-- The number of entries is that of the keys that have one. -/
theorem Entries.length_eq {m : Bytes → Option Bytes} {sel : Bytes → Prop} {es : List (Bytes × Bytes)}
    (h : Entries m sel es) {keys : List Bytes} (hnodup : keys.Nodup)
    (hkeys : ∀ k, k ∈ keys ↔ sel k ∧ m k ≠ none) : es.length = keys.length := by
  have hperm : (es.map Prod.fst).Perm keys := by
    refine (perm_ext_iff_of_nodup h.nodup_keys hnodup).mpr fun k => ?_
    rw [hkeys, mem_map]
    constructor
    · intro ⟨e, he, hk⟩
      obtain ⟨hsel, hm⟩ := (h.mem_iff e.1 e.2).mp he
      rw [hk] at hsel hm
      exact ⟨hsel, by rw [hm]; exact Option.some_ne_none _⟩
    · intro ⟨hsel, hm⟩
      obtain ⟨v, hv⟩ := Option.ne_none_iff_exists'.mp hm
      exact ⟨(k, v), (h.mem_iff k v).mpr ⟨hsel, hv⟩, rfl⟩
  simpa using hperm.length_eq

end Bgmchain
