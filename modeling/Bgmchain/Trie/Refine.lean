import Bgmchain.Trie.Trie

/-! # The trie operations against Patricia trees

A node, with the hash nodes below it read from the database, stands for a tree
(`Loads`). Under that relation `tryGet`, `insert` and `delete` compute lookup,
insertion and deletion of the tree, whatever part of it is still in the
database. -/
namespace Bgmchain
open Common Lib.Patricia
open List hiding lookup insert

/-- The tree a node stands for. Every hash node below it can be read, at any
cache generation, and gives a node that is not itself a hash. -/
inductive Loads (db : NodeDatabase) : Node → TrieTree → Prop
  | nil : Loads db .nil .nil
  | value {v} : v ≠ [] → Loads db (.value v) (.leaf v)
  | short {k val c flags} : Loads db val c → Loads db (.short k val flags) (.short k c)
  | full {cs ts flags} : (∀ i, Loads db (cs i) (ts i)) → Loads db (.full cs flags) (.full ts)
  | hash {h t} {ld : UInt16 → Node} : (∀ g, db.load h g = some (ld g)) →
      (∀ g, (ld g).Resolved) → (∀ g, Loads db (ld g) t) → size t ≤ db.bound → t ≠ .nil →
      Loads db (.hash h) t

variable {db : NodeDatabase} {cs : Nibble → Node} {ts : Nibble → TrieTree}

theorem resolveHash_ok_iff {gen : UInt16} {h : Hash} {path : List Nibble} {n : Node} :
    resolveHash db gen h path = .ok n ↔ db.load h gen = some n := by
  unfold resolveHash
  cases db.load h gen <;> simp

/-- Steps a walk from the node can take: one a level and one for its hash node. -/
def Node.need (n : Node) (t : TrieTree) : Nat :=
  match n with
  | .hash _ => 2 * size t + 1
  | _ => 2 * size t

theorem Node.need_le (n : Node) (t : TrieTree) : n.need t ≤ 2 * size t + 1 := by
  cases n <;> simp [Node.need]

theorem Node.need_resolved {n : Node} (h : n.Resolved) (t : TrieTree) : n.need t = 2 * size t := by
  cases n with
  | hash _ => exact h.elim
  | _ => rfl

theorem Loads.size_le {db n t} (h : Loads db n t) : size t ≤ n.weight db := by
  induction h with
  | nil | value _ => simp [size, Node.weight]
  | short _ ih => simpa [size, Node.weight] using ih
  | full _ ih =>
    simp only [size, Node.weight, Nat.add_le_add_iff_right]
    exact sum_le_sum fun i _ => ih i
  | hash _ _ _ hb => simpa [Node.weight] using hb

theorem Loads.need_le_fuel {db n t} (h : Loads db n t) : n.need t ≤ n.fuel db := by
  have hs := h.size_le
  have hn := n.need_le t
  unfold Node.fuel
  omega

theorem Loads.isNil_iff {db n t} (h : Loads db n t) : n.isNil = Lib.Patricia.isNil t := by
  cases h with
  | hash _ _ _ _ hn =>
    cases t with
    | nil => exact absurd rfl hn
    | _ => rfl
  | _ => rfl

theorem Loads.occupied_eq (h : ∀ i, Loads db (cs i) (ts i)) : Node.occupied cs = Lib.Patricia.occupied ts := by
  apply filter_congr
  intro i _
  rw [(h i).isNil_iff]

theorem Loads.update (h : ∀ i, Loads db (cs i) (ts i)) {i : Nibble} {n t} (hn : Loads db n t) (j : Nibble) :
    Loads db (Function.update cs i n j) (Function.update ts i t j) := by
  by_cases hj : j = i
  · subst hj
    simpa using hn
  · simpa [hj] using h j

section
variable {db : NodeDatabase} (gen : UInt16)

/-- What a node stands for, with enough fuel for a walk to every part of it. -/
inductive Walks (db : NodeDatabase) : Nat → Node → TrieTree → Prop
  | nil {f} : Walks db (f + 1) .nil .nil
  | value {f v} : v ≠ [] → Walks db (f + 1) (.value v) (.leaf v)
  | short {f k val c flags} : Loads db val c → Walks db f val c → Walks db (f + 1) (.short k val flags) (.short k c)
  | full {f cs ts flags} : (∀ i, Loads db (cs i) (ts i)) → (∀ i, Walks db f (cs i) (ts i)) →
      Walks db (f + 1) (.full cs flags) (.full ts)
  | hash {f h t} {ld : UInt16 → Node} : (∀ g, db.load h g = some (ld g)) → (∀ g, Loads db (ld g) t) → t ≠ .nil →
      (∀ g, Walks db f (ld g) t) → Walks db (f + 1) (.hash h) t

theorem Loads.walks {n t} (h : Loads db n t) {fuel : Nat} (hfuel : n.need t ≤ fuel) : Walks db fuel n t := by
  obtain ⟨f, rfl⟩ : ∃ f, fuel = f + 1 := by
    have hpos := size_pos t
    exact ⟨fuel - 1, by cases n <;> simp only [Node.need] at hfuel <;> omega⟩
  induction h generalizing f with
  | nil => exact .nil
  | value hv => exact .value hv
  | @short k val c flags hc ih =>
    have hn := val.need_le c
    simp only [Node.need, size] at hfuel
    obtain _ | f := f
    · omega
    exact .short hc (ih f (by omega))
  | @full cs ts flags hc ih =>
    simp only [Node.need] at hfuel
    have hlt := size_child_lt ts 0
    have hpos := size_pos (ts 0)
    obtain _ | f := f
    · omega
    refine .full hc fun i => ih i f ?_
    have hlt := size_child_lt ts i
    have hn := (cs i).need_le (ts i)
    omega
  | @hash h t ld hload hres hc hb hne ih =>
    simp only [Node.need] at hfuel
    have hpos := size_pos t
    obtain _ | f := f
    · omega
    exact .hash hload hc hne fun g => ih g f (by rw [Node.need_resolved (hres g)]; omega)

/-! ## Reading -/

variable {key : List Nibble}

/-- **`tryGet` is lookup**, and what it puts in place stands for the same tree. -/
theorem Loads.tryGet {n t} (h : Loads db n t) (hf : Fits t key) (fuel : Nat) (path : List Nibble)
    (hfuel : n.need t ≤ fuel) :
    ∃ n' r, Node.tryGet db gen fuel n path key = .ok (lookup t key, n', r) ∧ Loads db n' t := by
  replace h := h.walks hfuel
  clear hfuel
  induction h generalizing key path with
  | nil =>
    exact ⟨.nil, false, rfl, .nil⟩
  | @value f v hv =>
    refine ⟨.value v, false, ?_, .value hv⟩
    simp [Node.tryGet, lookup, hf.leaf_key]
  | @short f k val c flags hc _ ih =>
    by_cases hp : k <+: key
    · obtain ⟨rest, rfl⟩ := hp
      obtain ⟨n', r, hg, hl⟩ := ih hf.short_child (path ++ k)
      cases r with
      | true =>
        refine ⟨.short k n' { flags with gen := gen }, true, ?_, .short hl⟩
        simp [Node.tryGet, hg, lookup_short_append, bind, Except.bind]
      | false =>
        refine ⟨.short k val flags, false, ?_, .short hc⟩
        simp [Node.tryGet, hg, lookup_short_append, bind, Except.bind]
    · exact ⟨.short k val flags, false, by simp [Node.tryGet, lookup, hp], .short hc⟩
  | @full f cs ts flags hc _ ih =>
    cases key with
    | nil => exact hf.full_key.1.elim
    | cons i key =>
      obtain ⟨n', r, hg, hl⟩ := ih i hf.full_child (path ++ [i])
      cases r with
      | true =>
        refine ⟨.full (Function.update cs i n') { flags with gen := gen }, true, ?_,
          .full fun j => ?_⟩
        · simp [Node.tryGet, hg, lookup, bind, Except.bind]
        · have := Loads.update hc hl (i := i) j
          rwa [Function.update_eq_self] at this
      | false =>
        refine ⟨.full cs flags, false, ?_, .full hc⟩
        simp [Node.tryGet, hg, lookup, bind, Except.bind]
  | @hash f h t ld hload hc hne _ ih =>
    obtain ⟨n', r, hg, hl⟩ := ih gen hf path
    refine ⟨n', true, ?_, hl⟩
    simp [Node.tryGet, resolveHash, hload, bind, Except.bind, hg]

/-! ## Writing -/

section
variable (f : Nat) (k rest path : List Nibble) (val : Node)

theorem Node.insert_short_along (flags : NodeFlag) (v : Bytes) (hk : k ++ rest ≠ []) :
    Node.insert db gen (f + 1) (.short k val flags) path (k ++ rest) v =
      (Node.insert db gen f val (path ++ k) rest v).bind fun r =>
        if r.1 then .ok (true, .short k r.2 (.new gen)) else .ok (false, .short k val flags) := by
  obtain ⟨i, key, hik⟩ := exists_cons_of_ne_nil hk
  have hm : prefixLen (i :: key) k = k.length := by
    rw [← hik]
    simpa [prefixLen] using prefixLen_append k rest []
  rw [hik]
  simp only [Node.insert, hm, if_true]
  rw [← hik, take_left, drop_left]
  rfl

theorem Node.insert_short_fork {p ka kb path : List Nibble} {a b : Nibble} (hab : a ≠ b)
    (val : Node) (flags : NodeFlag) (v : Bytes) :
    Node.insert db gen (f + 1) (.short (p ++ b :: kb) val flags) path (p ++ a :: ka) v =
      .ok (true, Node.insertNil gen p (.full (Function.update
        (Function.update (fun _ => .nil) b (Node.insertNil gen kb val))
        a (Node.insertNil gen ka (.value v))) (.new gen))) := by
  obtain ⟨i, key, hik⟩ := exists_cons_of_ne_nil (show p ++ a :: ka ≠ [] by simp)
  have hm : prefixLen (i :: key) (p ++ b :: kb) = p.length := by
    rw [← hik]
    simp [prefixLen_append, prefixLen, hab]
  rw [hik]
  simp only [Node.insert, hm]
  rw [← hik]
  have hne : p.length ≠ (p ++ b :: kb).length := by simp
  rw [if_neg hne]
  simp only [drop_left, take_left, length_eq_zero_iff, Node.insertNil]
  split <;> rfl

theorem Loads.insertNil {n t} (h : Loads db n t) (key : List Nibble) :
    Loads db (Node.insertNil gen key n) (graft key t) := by
  unfold Node.insertNil graft
  split
  · exact h
  · exact .short h

/-- **`insert` is insertion.** A node it reports as unchanged already held the
value. -/
theorem Loads.insert {n t} (h : Loads db n t) (hf : Fits t key) {v : Bytes} (hv : v ≠ []) (fuel : Nat)
    (path : List Nibble) (hfuel : n.need t ≤ fuel) :
    ∃ d n', Node.insert db gen fuel n path key v = .ok (d, n') ∧
      Loads db n' (insert t key v) ∧ (d = false → insert t key v = t) := by
  replace h := h.walks hfuel
  clear hfuel
  induction h generalizing key path with
  | nil =>
    cases key with
    | nil => exact ⟨true, .value v, rfl, .value hv, by simp⟩
    | cons i key => exact ⟨true, .short (i :: key) (.value v) (.new gen), rfl, .short (.value hv), by simp⟩
  | @value f old ho =>
    obtain rfl := hf.leaf_key
    refine ⟨old != v, .value v, rfl, .value hv, ?_⟩
    intro hd
    have : old = v := by simpa using hd
    rw [this]
    rfl
  | @short f k val c flags hc _ ih =>
    rcases hf.split with ⟨rest, rfl⟩ | ⟨p, a, ka, b, kb, rfl, rfl, hab⟩
    · obtain ⟨d, n', hg, hl, hd⟩ := ih hf.short_child (path ++ k)
      rw [Node.insert_short_along gen f k rest path val flags v hf.key_ne_nil.1.ne_nil, hg,
        Lib.Patricia.insert_short_along]
      cases d with
      | true => exact ⟨true, _, rfl, .short hl, by simp⟩
      | false =>
        rw [hd rfl]
        exact ⟨false, _, rfl, .short hc, fun _ => rfl⟩
    · rw [Node.insert_short_fork gen f hab, Lib.Patricia.insert_short_fork hab]
      refine ⟨true, _, rfl, ?_, by simp⟩
      apply Loads.insertNil
      apply Loads.full
      intro j
      exact Loads.update (Loads.update (fun _ => .nil) (hc.insertNil gen kb))
        ((Loads.value hv).insertNil gen ka) j
  | @full f cs ts flags hc _ ih =>
    cases key with
    | nil => exact hf.full_key.1.elim
    | cons i key =>
      obtain ⟨d, n', hg, hl, hd⟩ := ih i hf.full_child (path ++ [i])
      cases d with
      | true =>
        refine ⟨true, .full (Function.update cs i n') (.new gen), ?_, .full ?_, by simp⟩
        · simp [Node.insert, hg, bind, Except.bind]
        · exact Loads.update hc hl
      | false =>
        have he : Lib.Patricia.insert (.full ts) (i :: key) v = .full ts := by
          simp [Lib.Patricia.insert, hd rfl]
        rw [he]
        refine ⟨false, .full cs flags, ?_, .full hc, fun _ => rfl⟩
        simp [Node.insert, hg, bind, Except.bind]
  | @hash f h t ld hload hc hne _ ih =>
    obtain ⟨d, n', hg, hl, hd⟩ := ih gen hf path
    cases key with
    | nil =>
      -- a hash node never stands where a value would
      rcases hf with ⟨_, ht⟩ | ⟨hk, _⟩
      · obtain ⟨v', rfl⟩ := ht.resolve_left hne
        exact ⟨true, .value v, rfl, .value hv, by simp⟩
      · exact hk.elim
    | cons i key =>
      cases d with
      | true =>
        refine ⟨true, n', ?_, hl, by simp⟩
        simp [Node.insert, resolveHash, hload, bind, Except.bind, hg]
      | false =>
        rw [hd rfl]
        refine ⟨false, ld gen, ?_, hc gen, fun _ => rfl⟩
        simp [Node.insert, resolveHash, hload, bind, Except.bind, hg]

theorem Node.delete_short_along
    (flags : NodeFlag) :
    Node.delete db gen (f + 1) (.short k val flags) path (k ++ rest) =
      if rest = [] then .ok (true, .nil) else
        (Node.delete db gen f val (path ++ k) rest).bind fun r =>
          if r.1 then
            match r.2 with
            | .short ck cval _ => .ok (true, .short (k ++ ck) cval (.new gen))
            | child => .ok (true, .short k child (.new gen))
          else .ok (false, .short k val flags) := by
  have hm : prefixLen (k ++ rest) k = k.length := by
    simpa [prefixLen] using prefixLen_append k rest []
  have hlt : ¬ k.length < k.length := by omega
  simp only [Node.delete, hm, if_neg hlt, length_append, take_left, drop_left]
  by_cases hr : rest = []
  · simp [hr]
  · have hl : k.length ≠ k.length + rest.length := by
      have := length_pos_iff.mpr hr
      omega
    rw [if_neg hl, if_neg hr]
    rfl

theorem Node.delete_short_fork {p ka kb path : List Nibble} {a b : Nibble} (hab : a ≠ b)
    (val : Node) (flags : NodeFlag) :
    Node.delete db gen (f + 1) (.short (p ++ b :: kb) val flags) path (p ++ a :: ka) =
      .ok (false, .short (p ++ b :: kb) val flags) := by
  have hm : prefixLen (p ++ a :: ka) (p ++ b :: kb) = p.length := by
    simp [prefixLen_append, prefixLen, hab]
  simp [Node.delete, hm]

end

/-- The edge `delete` puts above the one child that is left. -/
theorem Loads.prepend {n t} (h : Loads db n t) (hr : n.Resolved) (k : List Nibble) :
    ∃ n', (match n with
        | .short ck cval _ => Except.ok (ε := TrieError) (true, Node.short (k ++ ck) cval (.new gen))
        | child => .ok (true, .short k child (.new gen))) = .ok (true, n') ∧
      Loads db n' (prepend k t) ∧ n'.Resolved := by
  cases h with
  | hash _ _ _ _ _ => exact hr.elim
  | short hc => exact ⟨_, rfl, .short hc, trivial⟩
  | nil => exact ⟨_, rfl, .short .nil, trivial⟩
  | value hv => exact ⟨_, rfl, .short (.value hv), trivial⟩
  | full hc => exact ⟨_, rfl, .short (.full hc), trivial⟩

theorem Loads.resolve {n t} (h : Loads db n t) (path : List Nibble) :
    ∃ n', n.resolve db gen path = .ok n' ∧ Loads db n' t ∧ n'.Resolved := by
  cases h with
  | hash hload hres hc _ _ =>
    exact ⟨_, by simp only [Node.resolve, resolveHash, hload], hc gen, hres gen⟩
  | nil => exact ⟨_, rfl, .nil, trivial⟩
  | value hv => exact ⟨_, rfl, .value hv, trivial⟩
  | short hc => exact ⟨_, rfl, .short hc, trivial⟩
  | full hc => exact ⟨_, rfl, .full hc, trivial⟩

/-- Only the value slot is not merged, and no edge hangs there. -/
theorem Loads.collapse (h : ∀ i, Loads db (cs i) (ts i)) (hlast : ∀ k c, ts (Fin.last 16) ≠ .short k c)
    (path : List Nibble) : ∃ n', Node.collapse db gen cs path = .ok (true, n') ∧ Loads db n' (collapse ts) ∧
      n'.Resolved := by
  have many : (∀ i, Lib.Patricia.occupied ts ≠ [i]) →
      ∃ n', Node.collapse db gen cs path = .ok (true, n') ∧
        Loads db n' (Lib.Patricia.collapse ts) ∧ n'.Resolved := by
    intro hm
    refine ⟨.full cs (.new gen), ?_, ?_, trivial⟩
    · rw [Node.collapse, Loads.occupied_eq h]
      split
      next pos hp =>
        exact absurd hp (hm pos)
      · rfl
    · rw [Lib.Patricia.collapse]
      split
      next pos hp =>
        exact absurd hp (hm pos)
      · exact .full h
  cases hocc : Lib.Patricia.occupied ts with
  | nil => exact many (by simp [hocc])
  | cons pos rest =>
    cases rest with
    | cons _ _ => exact many (by simp [hocc])
    | nil =>
      have hl := h pos
      simp only [Node.collapse, Loads.occupied_eq h, Lib.Patricia.collapse, hocc]
      by_cases hp : pos = Fin.last 16
      · subst hp
        refine ⟨.short [Fin.last 16] (cs (Fin.last 16)) (.new gen), by simp, ?_, trivial⟩
        cases ht : ts (Fin.last 16) with
        | short k c => exact absurd ht (hlast k c)
        | _ => exact .short (ht ▸ hl)
      · obtain ⟨n', hr, hl', hres⟩ := hl.resolve gen path
        simp only [ne_eq, hp, not_false_eq_true, if_true, hr, bind, Except.bind]
        -- the child as read decides, the child in place is kept
        generalize ts pos = t at hl hl'
        cases hl' with
        | hash _ _ _ _ _ => exact hres.elim
        | short hc => exact ⟨_, rfl, .short hc, trivial⟩
        | nil | value _ | full _ => exact ⟨_, rfl, .short hl, trivial⟩

/-- **`delete` is deletion.** A node it reports as unchanged did not hold the key. -/
theorem Loads.delete {n t} (h : Loads db n t) (hf : Fits t key) (fuel : Nat) (path : List Nibble)
    (hfuel : n.need t ≤ fuel) : ∃ d n', Node.delete db gen fuel n path key = .ok (d, n') ∧
      (d = true → n'.Resolved ∧ ∃ t', erase t key = some t' ∧ Loads db n' t') ∧
      (d = false → erase t key = none ∧ Loads db n' t) := by
  replace h := h.walks hfuel
  clear hfuel
  induction h generalizing key path with
  | nil =>
    exact ⟨false, .nil, rfl, by simp, fun _ => ⟨rfl, .nil⟩⟩
  | @value f old ho =>
    exact ⟨true, .nil, rfl, fun _ => ⟨trivial, .nil, rfl, .nil⟩, by simp⟩
  | @short f k val c flags hc _ ih =>
    rcases hf.split with ⟨rest, rfl⟩ | ⟨p, a, ka, b, kb, rfl, rfl, hab⟩
    · rw [Node.delete_short_along, erase_short_along]
      by_cases hr : rest = []
      · rw [if_pos hr, if_pos hr]
        exact ⟨true, .nil, rfl, fun _ => ⟨trivial, .nil, rfl, .nil⟩, by simp⟩
      · rw [if_neg hr, if_neg hr]
        obtain ⟨d, n', hg, ht, hd⟩ := ih hf.short_child (path ++ k)
        rw [hg]
        cases d with
        | true =>
          obtain ⟨hres, t', he, hl⟩ := ht rfl
          obtain ⟨n'', hn'', hl'', hres''⟩ := hl.prepend gen hres k
          refine ⟨true, n'', hn'', fun _ => ⟨hres'', _, ?_, hl''⟩, by simp⟩
          rw [he]
          rfl
        | false =>
          obtain ⟨he, hl⟩ := hd rfl
          refine ⟨false, .short k val flags, rfl, by simp, fun _ => ⟨?_, .short hc⟩⟩
          rw [he]
          rfl
    · rw [Node.delete_short_fork gen f hab, erase_short_fork hab]
      exact ⟨false, _, rfl, by simp, fun _ => ⟨rfl, .short hc⟩⟩
  | @full f cs ts flags hc _ ih =>
    cases key with
    | nil => exact hf.full_key.1.elim
    | cons i key =>
      obtain ⟨d, n', hg, ht, hd⟩ := ih i hf.full_child (path ++ [i])
      cases d with
      | true =>
        obtain ⟨_, t', he, hl⟩ := ht rfl
        have hlast : ∀ k c, Function.update ts i t' (Fin.last 16) ≠ .short k c := by
          intro k c
          by_cases hi : i = Fin.last 16
          · subst hi
            have hk : key = [] := terminated_last.mp hf.full_key.1
            rw [Function.update_self, (erase_fits hf.full_child he).1 hk]
            simp
          · rw [Function.update_of_ne (Ne.symm hi)]
            rcases wfAt_last.mp ((wf_full_iff.mp hf.full_key.2).1 (Fin.last 16)) with hl | ⟨v, hl⟩
              <;> rw [hl] <;> exact fun hs => by cases hs
        obtain ⟨n'', hn'', hl'', hres''⟩ :=
          Loads.collapse gen (Loads.update hc hl (i := i)) hlast path
        refine ⟨true, n'', ?_, fun _ => ⟨hres'', _, ?_, hl''⟩, by simp⟩
        · simp only [Node.delete, hg, bind, Except.bind, if_true]
          exact hn''
        · simp [erase, he]
      | false =>
        obtain ⟨he, hl⟩ := hd rfl
        refine ⟨false, .full cs flags, ?_, by simp, fun _ => ⟨?_, .full hc⟩⟩
        · simp [Node.delete, hg, bind, Except.bind]
        · simp [erase, he]
  | @hash f h t ld hload hc hne _ ih =>
    obtain ⟨d, n', hg, ht, hd⟩ := ih gen hf path
    cases d with
    | true =>
      refine ⟨true, n', ?_, ht, by simp⟩
      simp [Node.delete, resolveHash, hload, bind, Except.bind, hg]
    | false =>
      refine ⟨false, ld gen, ?_, by simp, fun _ => ⟨(hd rfl).1, hc gen⟩⟩
      simp [Node.delete, resolveHash, hload, bind, Except.bind, hg]

end

end Bgmchain
