import Bgmchain.Trie.Refine

/-! # A trie as a finite map

`t.Holds m`: every node of `t` can be read, the nodes are in normal form, all
keys carry the trie's prefix, and the values are those of `m`. The exported
operations on such a trie succeed and read or update the map. -/
namespace Bgmchain
open Common Lib.Patricia
open List hiding lookup insert

/-- The trie is readable and holds the map. -/
def Trie.Holds (t : Trie) (m : Bytes → Option Bytes) : Prop :=
  ∃ tree : TrieTree, Loads t.db t.root tree ∧ WF tree ∧
    (∀ path v, lookup tree path = some v → ∃ k, path = keybytesToHex (t.prefix_ ++ k)) ∧
    ∀ k, lookup tree (keybytesToHex (t.prefix_ ++ k)) = m k

/-- Every node of the trie can be read. -/
def Trie.Readable (t : Trie) : Prop := ∃ m, t.Holds m

section
variable (db : NodeDatabase) (pre : Bytes)

theorem Trie.holds_empty : (Trie.empty db pre).Holds fun _ => none :=
  ⟨.nil, .nil, .nil, fun _ _ h => by simp [lookup] at h, fun _ => rfl⟩

variable {t : Trie} {k v : Bytes}

theorem Trie.Holds.tryGet {m} (h : t.Holds m) (k : Bytes) :
    ∃ t', t.tryGet k = (.ok (m k), t') ∧ t'.Holds m := by
  obtain ⟨tree, hl, hw, hk, hm⟩ := h
  obtain ⟨n', r, hg, hl'⟩ := hl.tryGet t.cachegen
    (hw.fits (terminated_keybytesToHex (t.prefix_ ++ k))) _ [] hl.need_le_fuel
  rw [hm] at hg
  cases r with
  | true => exact ⟨{ t with root := n' }, by simp [Trie.tryGet, hg], tree, hl', hw, hk, hm⟩
  | false => exact ⟨t, by simp [Trie.tryGet, hg], tree, hl, hw, hk, hm⟩

theorem Trie.Holds.get {m} (h : t.Holds m) (k : Bytes) : ∃ t', t.get k = (m k, t') ∧ t'.Holds m := by
  obtain ⟨t', hg, hh⟩ := h.tryGet k
  exact ⟨t', by simp [Trie.get, hg], hh⟩

theorem Trie.Holds.get_fst {m} (h : t.Holds m) (k : Bytes) : (t.get k).1 = m k := by
  obtain ⟨t', hg, _⟩ := h.get k
  rw [hg]

/-- A trie holds one map, the one `Get` reads. -/
theorem Trie.Holds.eq_get {m} (h : t.Holds m) : m = fun k => (t.get k).1 :=
  funext fun k => (h.get_fst k).symm

theorem Trie.Holds.unique {m m'} (h : t.Holds m) (h' : t.Holds m') : m = m' :=
  h.eq_get.trans h'.eq_get.symm

/-- Reading may load nodes; the rest of the trie stays. -/
theorem Trie.tryGet_frame (t : Trie) (k : Bytes) :
    (t.tryGet k).2.db = t.db ∧ (t.tryGet k).2.prefix_ = t.prefix_ := by
  unfold Trie.tryGet
  split
  · exact ⟨rfl, rfl⟩
  · split
    · exact ⟨rfl, rfl⟩
    · exact ⟨rfl, rfl⟩

theorem Trie.get_frame (t : Trie) (k : Bytes) : (t.get k).2.db = t.db ∧ (t.get k).2.prefix_ = t.prefix_ := by
  have h := Trie.tryGet_frame t k
  unfold Trie.get
  split
  next heq =>
    rwa [heq] at h
  next heq =>
    rwa [heq] at h

theorem Loads.value_ne_nil {db n t} (h : Loads db n t) {key : List Nibble}
    (hv : lookup t key = some v) : v ≠ [] := by
  induction h generalizing key with
  | nil => simp [lookup] at hv
  | value hne =>
    simp only [lookup] at hv
    split at hv
    · cases hv
      exact hne
    · cases hv
  | short _ ih =>
    simp only [lookup] at hv
    split at hv
    · exact ih hv
    · cases hv
  | full _ ih =>
    cases key with
    | nil => cases hv
    | cons i key => exact ih i hv
  | hash _ _ _ _ _ ih => exact ih 0 hv

/-- No entry is empty. -/
theorem Trie.Holds.value_ne_nil {m} (h : t.Holds m) (hv : m k = some v) : v ≠ [] := by
  obtain ⟨tree, hl, _, _, hm⟩ := h
  rw [← hm] at hv
  exact hl.value_ne_nil hv

theorem Trie.Holds.tryDelete {m} (h : t.Holds m) (k : Bytes) :
    ∃ t', t.tryDelete k = .ok t' ∧ t'.Holds (Function.update m k none) := by
  obtain ⟨tree, hl, hw, hk, hm⟩ := h
  have hf := hw.fits (terminated_keybytesToHex (t.prefix_ ++ k))
  have hfit : ∀ k', Fits tree (keybytesToHex (t.prefix_ ++ k')) :=
    fun k' => hw.fits (terminated_keybytesToHex _)
  obtain ⟨d, n', hg, ht, hd⟩ := hl.delete t.cachegen hf _ [] hl.need_le_fuel
  refine ⟨{ t with root := n' }, by simp [Trie.tryDelete, hg, bind, Except.bind], ?_⟩
  cases d with
  | true =>
    obtain ⟨_, t', he, hl'⟩ := ht rfl
    refine ⟨t', hl', hw.erase (terminated_keybytesToHex _) he, ?_, ?_⟩
    · intro path v hp
      have hpt : Terminated path := lookup_terminated (hw.erase (terminated_keybytesToHex _) he) hp
      rw [lookup_erase hf (hw.fits hpt) he] at hp
      split at hp
      · cases hp
      · exact hk path v hp
    · intro k'
      rw [lookup_erase hf (hfit k') he, hm]
      by_cases hkk : k' = k
      · simp [hkk]
      · simp [hkk, keybytesToHex_inj]
  | false =>
    obtain ⟨he, hl'⟩ := hd rfl
    refine ⟨tree, hl', hw, hk, ?_⟩
    intro k'
    rw [hm]
    by_cases hkk : k' = k
    · subst hkk
      rw [Function.update_self, ← hm, erase_none hf he]
    · simp [hkk]

theorem Trie.Holds.tryUpdate {m} (h : t.Holds m) (k : Bytes) (hv : v ≠ []) :
    ∃ t', t.tryUpdate k v = .ok t' ∧ t'.Holds (Function.update m k (some v)) := by
  obtain ⟨tree, hl, hw, hk, hm⟩ := h
  have hf := hw.fits (terminated_keybytesToHex (t.prefix_ ++ k))
  obtain ⟨d, n', hg, hl', _⟩ := hl.insert t.cachegen hf hv _ [] hl.need_le_fuel
  refine ⟨{ t with root := n' }, by simp [Trie.tryUpdate, hv, hg, bind, Except.bind], ?_⟩
  have hw' := hw.insert (terminated_keybytesToHex (t.prefix_ ++ k)) v
  refine ⟨_, hl', hw', ?_, ?_⟩
  · intro path v' hp
    rw [lookup_insert v hf (hw.fits (lookup_terminated hw' hp))] at hp
    split at hp
    · exact ⟨k, by assumption⟩
    · exact hk path v' hp
  · intro k'
    rw [lookup_insert v hf (hw.fits (terminated_keybytesToHex _)), hm]
    by_cases hkk : k' = k
    · simp [hkk]
    · simp [hkk, keybytesToHex_inj]

/-- A trie whose root is a leaf holds one entry. -/
theorem Trie.holds_leaf {flags : NodeFlag}
    (hroot : t.root = .short (keybytesToHex (t.prefix_ ++ k)) (.value v) flags) (hv : v ≠ []) :
    t.Holds (Function.update (fun _ => none) k (some v)) := by
  -- it is the entry of an empty trie, up to the flags
  obtain ⟨t', hup, tree, hl, hrest⟩ := (Trie.holds_empty t.db t.prefix_).tryUpdate k hv
  obtain ⟨i, path, hkey⟩ := exists_cons_of_ne_nil (terminated_keybytesToHex (t.prefix_ ++ k)).ne_nil
  simp only [Trie.tryUpdate, Trie.empty, hkey] at hup
  rw [if_pos (by simpa using hv)] at hup
  cases hup
  cases hl with
  | short hc =>
    refine ⟨_, ?_, hrest⟩
    rw [hroot, hkey]
    exact .short hc

theorem Trie.Holds.delete {m} (h : t.Holds m) (k : Bytes) : (t.delete k).Holds (Function.update m k none) := by
  obtain ⟨t', hd, hh⟩ := h.tryDelete k
  simpa [Trie.delete, hd] using hh

theorem Trie.Holds.update {m} (h : t.Holds m) (k : Bytes) (hv : v ≠ []) :
    (t.update k v).Holds (Function.update m k (some v)) := by
  obtain ⟨t', hu, hh⟩ := h.tryUpdate k hv
  simpa [Trie.update, hu] using hh

/-- An update with an empty value deletes. -/
theorem Trie.Holds.update_filter {m} (h : t.Holds m) (k v : Bytes) :
    (t.update k v).Holds (Function.update m k ((some v).filter (· ≠ []))) := by
  by_cases hv : v = []
  · subst hv
    obtain ⟨t', hd, hh⟩ := h.tryDelete k
    have hu : t.tryUpdate k [] = .ok t' := hd
    rw [Trie.update, hu]
    exact hh
  · rw [Option.filter_some, if_pos (by simpa using hv)]
    exact h.update k hv

/-! ## Tries built from a list -/

theorem Trie.tryDelete_frame {t' : Trie} (h : t.tryDelete k = .ok t') :
    t'.db = t.db ∧ t'.prefix_ = t.prefix_ := by
  simp only [Trie.tryDelete, bind, Except.bind] at h
  split at h
  · cases h
  · cases h
    exact ⟨rfl, rfl⟩

theorem Trie.tryUpdate_frame {t' : Trie} (h : t.tryUpdate k v = .ok t') :
    t'.db = t.db ∧ t'.prefix_ = t.prefix_ := by
  unfold Trie.tryUpdate at h
  split at h
  · simp only [bind, Except.bind] at h
    split at h
    · cases h
    · cases h
      exact ⟨rfl, rfl⟩
  · exact Trie.tryDelete_frame h

theorem Trie.update_frame (t : Trie) (k v : Bytes) :
    (t.update k v).db = t.db ∧ (t.update k v).prefix_ = t.prefix_ := by
  unfold Trie.update
  cases h : t.tryUpdate k v with
  | error e => exact ⟨rfl, rfl⟩
  | ok t' => exact Trie.tryUpdate_frame h

/-- The trie after these entries have been made in turn. -/
def Trie.ofEntries (db : NodeDatabase) (pre : Bytes) (es : List (Bytes × Bytes)) : Trie :=
  es.foldl (fun t e => t.update e.1 e.2) (.empty db pre)

/-- The map with these entries, the last one for a key counting. -/
def mapOf (es : List (Bytes × Bytes)) : Bytes → Option Bytes :=
  es.foldl (fun m e => Function.update m e.1 (some e.2)) fun _ => none

theorem Trie.holds_ofEntries {es : List (Bytes × Bytes)}
    (h : ∀ e ∈ es, e.2 ≠ []) : (Trie.ofEntries db pre es).Holds (mapOf es) := by
  have hfold : ∀ (es : List (Bytes × Bytes)) (t : Trie) (m : Bytes → Option Bytes),
      (∀ e ∈ es, e.2 ≠ []) → t.Holds m →
      (es.foldl (fun t e => t.update e.1 e.2) t).Holds
        (es.foldl (fun m e => Function.update m e.1 (some e.2)) m) := by
    intro es
    induction es with
    | nil => intro t m _ hm; exact hm
    | cons e es ih =>
      intro t m hne hm
      exact ih _ _ (fun e' he' => hne e' (mem_cons_of_mem _ he'))
        (hm.update e.1 (hne e mem_cons_self))
  exact hfold es _ _ h (Trie.holds_empty db pre)

theorem Trie.ofEntries_frame (es : List (Bytes × Bytes)) :
    (Trie.ofEntries db pre es).db = db ∧ (Trie.ofEntries db pre es).prefix_ = pre := by
  induction es using List.reverseRecOn with
  | nil => exact ⟨rfl, rfl⟩
  | append_singleton es e ih =>
    obtain ⟨h1, h2⟩ := Trie.update_frame (Trie.ofEntries db pre es) e.1 e.2
    rw [Trie.ofEntries, foldl_concat]
    exact ⟨h1.trans ih.1, h2.trans ih.2⟩

end

theorem mapOf_eq_some {es : List (Bytes × Bytes)} (h : (es.map Prod.fst).Nodup) :
    mapOf es k = some v ↔ (k, v) ∈ es := by
  induction es using List.reverseRecOn with
  | nil => simp [mapOf]
  | append_singleton es e ih =>
    rw [map_append, nodup_append] at h
    have hstep : mapOf (es ++ [e]) = Function.update (mapOf es) e.1 (some e.2) := foldl_concat ..
    rw [hstep, mem_append, mem_singleton]
    by_cases hk : k = e.1
    · subst hk
      have hnot : (e.1, v) ∉ es := fun hin =>
        h.2.2 e.1 (mem_map.mpr ⟨_, hin, rfl⟩) e.1 (by simp) rfl
      rw [Function.update_self]
      simp [hnot, Prod.ext_iff, eq_comm]
    · rw [Function.update_of_ne hk, ih h.1]
      simp [Prod.ext_iff, hk]

end Bgmchain
