import Bgmchain.Consensus.Dpos.Rounds
import Bgmchain.Consensus.Dpos.Sample

/-! # Whom an election kicks out

`tryElect` is meant to kick out validators that were idle in the epoch of the
parent block. It judges them by that epoch's counts once for each epoch it ends,
as long as its iterator finds another count, and from the second time on the
validators it judges are those it has just elected. With two counts and two
epochs to end, a candidate that was no validator can be kicked out. -/
namespace Bgmchain.Dpos
open Common List

section
variable [Crypto] [Rand]

/-- Whoever a successful election removes from the candidates was a validator when
it began, and had minted too few blocks in the parent's epoch. -/
def KicksOnlyIdle (balance : Address → Int) (ts first : Int) (genesis parent : Header)
    (d : DposContext) : Prop :=
  ∀ d', tryElect balance ts first genesis parent d = .ok () d' →
    ∀ c, d.candidateEntry c ≠ none → d'.candidateEntry c = none →
      ∃ vs cnt d1, d.getValidators.1 = .ok vs ∧ c ∈ vs ∧
        mintCnt (epochOf (int64 parent.time)) c d = .ok cnt d1 ∧ cnt < minBlocks ts first

/-! ## When it kicks out only idle validators -/

omit [Common.Rand] in
/-- Whoever one judging removes is an idle validator. -/
theorem Keeping.idle_of_judged {d : DposContext} {m : Books} (h : Keeping d m) {ts first epoch : Int}
    {kicked : List (Address × Int)} (hj : Judged ts first epoch m kicked) {c : Address}
    (hc : c.bytes ∈ kicked.map (·.1.bytes)) :
    ∃ vs cnt d1, d.getValidators.1 = .ok vs ∧ c ∈ vs ∧ Dpos.mintCnt epoch c d = .ok cnt d1 ∧
      cnt < minBlocks ts first := by
  obtain ⟨vs, need, es, hvs, _, hneed, _, rfl⟩ := hj
  obtain ⟨e, he, heq⟩ := mem_map.mp hc
  obtain ⟨hin, hcnt, hlt⟩ := (mem_needOf hneed).mp (mem_kickedOut he)
  rw [FixedBytes.bytes_inj.mp heq] at hin hcnt
  obtain ⟨d1, _, hread⟩ := h.mintCnt_eq epoch c
  obtain ⟨d2, _, hval⟩ := h.getValidators
  rw [hcnt] at hread
  rw [hvs] at hval
  exact ⟨vs, e.2, d1, by rw [hval], hin, hread, hlt⟩

/-- Nobody is judged twice: only idle validators go. -/
theorem Whole.kicksOnlyIdle {d : DposContext} (hw : Whole d) (balance : Address → Int) {ts first : Int}
    {genesis parent : Header} (hcond : epochOf (int64 parent.time) = epochOf (int64 genesis.time) ∨
      epochOf ts ≤ epochOf (int64 parent.time) + 1 ∨ mintCounters d (epochOf (int64 parent.time)) ≤ 1) :
    KicksOnlyIdle balance ts first genesis parent d := by
  intro d' hok c hin hout
  obtain ⟨m, h⟩ := hw.keeping
  rw [h.ballots.candidateEntry] at hin
  rw [tryElect_eq] at hok
  by_cases hg : epochOf (int64 parent.time) = epochOf (int64 genesis.time)
  · rw [decide_eq_true hg] at hok
    obtain ⟨m', h', hb⟩ := h.electLoop_quiet balance parent.hash ts first _ _ _
      (.inl rfl : true = true ∨ LeafIterator.Yields m.mintDb _ []) (.inr (.inl rfl)) hok
    rw [h'.ballots.candidateEntry, hb] at hout
    exact absurd hout hin
  · rw [decide_eq_false hg, electFrom_of_ne hg] at hok
    obtain ⟨es, _, hy⟩ := h.mintCnt.newPrefix
      (putUint64_ne_nil (uint64OfInt64 (epochOf (int64 parent.time))))
    have hcount : mintCounters d (epochOf (int64 parent.time)) = (es.map Prod.snd).length := by
      rw [mintCounters, hy.toList_eq]
    rw [h.mintDb] at hy
    cases hn : (epochOf ts - epochOf (int64 parent.time)).toNat with
    | zero =>
      rw [hn] at hok
      cases hok
      rw [h.ballots.candidateEntry] at hout
      exact absurd hout hin
    | succ n =>
      rw [hn] at hok
      rcases h.turn balance parent.hash ts first _ (.inr hy) n _ with
        ⟨⟨e, d1, herr, _⟩, _⟩ | ⟨kicked, cnt, vs, iter', d1, hk, _, _, heq, h1, hy', _⟩
      · rw [herr] at hok
        cases hok
      · rw [heq] at hok
        have hq : n = 0 ∨ false = true ∨ (es.map Prod.snd).tail = [] := by
          rcases hcond with hc | hc | hc
          · exact absurd hc hg
          · exact .inl (by omega)
          · rw [hcount] at hc
            exact .inr (.inr (eq_nil_of_length_eq_zero (by rw [length_tail]; omega)))
        obtain ⟨m', h', hb⟩ := h1.electLoop_quiet balance parent.hash ts first _ n _ hy' hq hok
        rw [h'.ballots.candidateEntry, hb] at hout
        have hout : (kickAll m.ballots kicked).candidates c.bytes = none := hout
        rw [kickAll_candidates] at hout
        split at hout
        next hc =>
          rcases hk with ⟨_, hj⟩ | ⟨_, rfl⟩
          · exact h.idle_of_judged hj hc
          · cases hc
        · exact absurd hout hin

end

/-! ## Contexts made to order -/

/-- A context with these validators, candidates and counts, and no delegations. -/
def staged (validators candidates : List Address) (counts : List (Bytes × Bytes)) : DposContext :=
  { (DposContext.new Sample.nodes).setValidators validators with
    candidateTrie := .ofEntries Sample.nodes candidatePrefix (candidates.map fun c => (c.bytes, c.bytes))
    mintCntTrie := .ofEntries Sample.nodes mintCntPrefix counts }

def stagedBooks (validators candidates : List Address) (counts : List (Bytes × Bytes)) : Books where
  epoch := elected validators
  ballots := ⟨fun _ => none, fun _ => none, mapOf (candidates.map fun c => (c.bytes, c.bytes))⟩
  mintCnt := mapOf counts
  mintDb := Sample.nodes

variable {counts : List (Bytes × Bytes)}

theorem staged_keeping (validators candidates : List Address) (h : ∀ e ∈ counts, e.2 ≠ []) :
    Keeping (staged validators candidates counts) (stagedBooks validators candidates counts) := by
  have hcand : ∀ e ∈ candidates.map fun c => (c.bytes, c.bytes), e.2 ≠ [] := by
    intro e he
    obtain ⟨c, _, rfl⟩ := mem_map.mp he
    exact c.bytes_ne_nil
  refine ⟨?_, ⟨?_, ?_, ?_⟩, ?_, ?_, ?_⟩
  · exact (Trie.holds_empty _ _).update _ (DposContext.encodeValidators_ne_nil validators)
  · exact Trie.holds_empty _ _
  · exact Trie.holds_empty _ _
  · exact Trie.holds_ofEntries _ _ hcand
  · exact Trie.holds_ofEntries _ _ h
  · exact (Trie.ofEntries_frame _ _ _).1
  · exact (Trie.ofEntries_frame _ _ _).2

variable {validators : List Address}

theorem staged_candidate {candidates : List Address} (h : candidates.Nodup) {k v : Bytes} :
    (stagedBooks validators candidates counts).ballots.candidates k = some v ↔
      ∃ c ∈ candidates, k = c.bytes ∧ v = c.bytes := by
  have hkeys : ((candidates.map fun c => (c.bytes, c.bytes)).map Prod.fst).Nodup := by
    rw [map_map]
    exact h.map fun a b hab => FixedBytes.ext hab
  show mapOf _ k = some v ↔ _
  rw [mapOf_eq_some hkeys, mem_map]
  refine exists_congr fun c => and_congr_right fun _ => ?_
  rw [Prod.mk.injEq, eq_comm, eq_comm (a := v)]

theorem staged_entries {candidates : List Address} (h : candidates.Nodup) {es}
    (hes : Entries (stagedBooks validators candidates counts).ballots.candidates (fun _ => True) es) :
    es.length = candidates.length := by
  have hnodup : (candidates.map (·.bytes)).Nodup := h.map fun a b hab => FixedBytes.ext hab
  rw [hes.length_eq hnodup, length_map]
  intro k
  rw [mem_map, Option.ne_none_iff_exists']
  constructor
  · intro ⟨c, hc, hk⟩
    exact ⟨trivial, c.bytes, (staged_candidate h).mpr ⟨c, hc, hk.symm, rfl⟩⟩
  · intro ⟨_, v, hv⟩
    obtain ⟨c, hc, hk, _⟩ := (staged_candidate h).mp hv
    exact ⟨c, hc, hk.symm⟩

theorem staged_getValidators (h : validators.length ≤ maxValidatorSize)
    (candidates : List Address) (hc : ∀ e ∈ counts, e.2 ≠ []) :
    (staged validators candidates counts).getValidators.1 = .ok validators := by
  obtain ⟨d', _, heq⟩ := (staged_keeping validators candidates hc).getValidators
  have hvs : validatorsOf (stagedBooks validators candidates counts).epoch = some validators :=
    validatorsOf_elected h
  rw [heq, hvs]

/-! ## Kicking out an outsider -/

section
open Sample

def outsiders : List Address := [address 1, address 2, address 3, address 4]

/-- Counts of an epoch for two of the outsiders, so large that they are read as
negative numbers, and `extra` more entries that belong to no address. -/
def oddCounts (epoch : Int) (extra : Nat) : List (Bytes × Bytes) :=
  [(mintCntKey epoch (address 1), putUint64 (2 ^ 63)), (mintCntKey epoch (address 2), putUint64 (2 ^ 63))] ++
    (List.range extra).map fun i => (putUint64 (uint64OfInt64 epoch) ++ List.replicate (21 + i) 0, [1])

variable {epoch : Int} {v : Address}

theorem mintCntKey_right_inj {v' : Address} : mintCntKey epoch v = mintCntKey epoch v' ↔ v = v' := by
  unfold mintCntKey
  rw [append_right_inj, FixedBytes.bytes_inj]

theorem oddCounts_ne_nil (epoch : Int) (extra : Nat) : ∀ e ∈ oddCounts epoch extra, e.2 ≠ [] := by
  intro e he
  simp only [oddCounts, mem_append, mem_cons, not_mem_nil, or_false, mem_map] at he
  rcases he with (rfl | rfl) | ⟨i, _, rfl⟩
  · exact putUint64_ne_nil _
  · exact putUint64_ne_nil _
  · exact cons_ne_nil _ _

/-- The other entries belong to no address. -/
theorem mintCntKey_ne_append (epoch : Int) (v : Address) (i : Nat) :
    mintCntKey epoch v ≠ putUint64 (uint64OfInt64 epoch) ++ List.replicate (21 + i) 0 := by
  intro heq
  have hlen := congrArg List.length heq
  rw [mintCntKey, length_append, length_append, v.length_eq, length_replicate] at hlen
  omega

theorem oddCounts_nodup (epoch : Int) (extra : Nat) : ((oddCounts epoch extra).map Prod.fst).Nodup := by
  have hne : mintCntKey epoch (address 1) ≠ mintCntKey epoch (address 2) := by
    rw [Ne, mintCntKey_right_inj]
    decide
  rw [oddCounts, map_append, nodup_append, map_map]
  refine ⟨by simpa using hne, ?_, ?_⟩
  · refine nodup_range.map fun i j hij => ?_
    have hlen := congrArg List.length hij
    simp only [Function.comp, length_append, length_replicate] at hlen
    omega
  · intro k hk k' hk'
    obtain ⟨i, _, rfl⟩ := mem_map.mp hk'
    simp only [map_cons, map_nil, mem_cons, not_mem_nil, or_false] at hk
    rcases hk with rfl | rfl
    · exact mintCntKey_ne_append epoch _ i
    · exact mintCntKey_ne_append epoch _ i

theorem oddCounts_eq {extra : Nat} {b : Bytes}
    (h : mapOf (oddCounts epoch extra) (mintCntKey epoch v) = some b) : b = putUint64 (2 ^ 63) := by
  rw [mapOf_eq_some (oddCounts_nodup epoch extra)] at h
  simp only [oddCounts, mem_append, mem_cons, not_mem_nil, or_false, mem_map,
    Prod.mk.injEq] at h
  rcases h with (⟨_, hb⟩ | ⟨_, hb⟩) | ⟨i, _, hk, _⟩
  · exact hb
  · exact hb
  · exact absurd hk.symm (mintCntKey_ne_append epoch v i)

theorem countOf_oddCounts_ne_none (epoch : Int) (extra : Nat) (v : Address) :
    countOf (mapOf (oddCounts epoch extra)) epoch v ≠ none := by
  unfold countOf
  cases hb : mapOf (oddCounts epoch extra) (mintCntKey epoch v) with
  | none => simp
  | some b =>
    rw [oddCounts_eq hb]
    decide

theorem countOf_oddCounts {extra : Nat} (h : v = address 1 ∨ v = address 2) :
    countOf (mapOf (oddCounts epoch extra)) epoch v = some (-2 ^ 63) := by
  have hb : mapOf (oddCounts epoch extra) (mintCntKey epoch v) = some (putUint64 (2 ^ 63)) := by
    rw [mapOf_eq_some (oddCounts_nodup epoch extra)]
    rcases h with rfl | rfl
    · simp [oddCounts]
    · simp [oddCounts]
  unfold countOf
  rw [hb]
  decide

theorem mintCounters_oddCounts (validators candidates : List Address) (epoch : Int) (extra : Nat) :
    mintCounters (staged validators candidates (oddCounts epoch extra)) epoch = extra + 2 := by
  have h := staged_keeping validators candidates (oddCounts_ne_nil epoch extra)
  obtain ⟨es, hes, hy⟩ := h.mintCnt.newPrefix (putUint64_ne_nil (uint64OfInt64 epoch))
  rw [mintCounters, hy.toList_eq, length_map, hes.length_eq (oddCounts_nodup epoch extra)]
  · simp [oddCounts]
  · intro k
    have hsome : (stagedBooks validators candidates (oddCounts epoch extra)).mintCnt k ≠ none ↔
        k ∈ (oddCounts epoch extra).map Prod.fst := by
      show mapOf _ k ≠ none ↔ _
      rw [Option.ne_none_iff_exists', mem_map]
      simp only [mapOf_eq_some (oddCounts_nodup epoch extra), Prod.exists, exists_and_right,
        exists_eq_right]
    rw [hsome]
    refine ⟨fun hk => ⟨?_, hk⟩, And.right⟩
    simp only [oddCounts, map_append, mem_append, map_cons, map_nil, mem_cons,
      not_mem_nil, or_false, mem_map] at hk
    rcases hk with (rfl | rfl) | ⟨e, ⟨i, _, rfl⟩, rfl⟩
    · exact prefix_append _ _
    · exact prefix_append _ _
    · exact prefix_append _ _

/-- The smallest and the largest duration give bounds. -/
theorem minBlocks_bounds (ts first : Int) : -2 ^ 63 < minBlocks ts first ∧ minBlocks ts first < 2 ^ 63 := by
  have h64 := (int64_isInt64 (ts - first)).1
  have hlow : -2 ^ 63 ≤ min (int64 (ts - first)) epochInterval := le_min h64 (by decide)
  have hhigh : min (int64 (ts - first)) epochInterval ≤ epochInterval := min_le_right ..
  have hmono : ∀ x y : Int, x ≤ y → ((x.tdiv blockInterval).tdiv maxValidatorSize).tdiv 2 ≤
      ((y.tdiv blockInterval).tdiv maxValidatorSize).tdiv 2 := by
    intro x y h
    exact Int.tdiv_le_tdiv (by decide) (Int.tdiv_le_tdiv (by decide) (Int.tdiv_le_tdiv (by decide) h))
  have hmin : minBlocks ts first =
      (((min (int64 (ts - first)) epochInterval).tdiv blockInterval).tdiv maxValidatorSize).tdiv 2 := by
    unfold minBlocks
    rw [min_def_lt]
  rw [hmin]
  exact ⟨lt_of_lt_of_le (by decide) (hmono _ _ hlow), lt_of_le_of_lt (hmono _ _ hhigh) (by decide)⟩

variable {vs : List Address}

/-- Three of the outsiders include one of the first two. -/
theorem exists_odd_outsider (hnodup : vs.Nodup) (hlen : vs.length = maxValidatorSize)
    (hsub : ∀ v ∈ vs, v ∈ outsiders) : ∃ v ∈ vs, v = address 1 ∨ v = address 2 := by
  by_contra hno
  push Not at hno
  have hrest : vs ⊆ [address 3, address 4] := by
    intro v hv
    obtain ⟨h1, h2⟩ := hno v hv
    simpa [outsiders, h1, h2] using hsub v hv
  have := (hnodup.subperm hrest).length_le
  simp only [length_cons, length_nil] at this
  unfold maxValidatorSize at hlen
  omega

/-- A context whose only validator is not among its four candidates. -/
def oddContext (epoch : Int) (extra : Nat) : DposContext :=
  staged [address 5] outsiders (oddCounts epoch extra)

def oddBooks (epoch : Int) (extra : Nat) : Books :=
  stagedBooks [address 5] outsiders (oddCounts epoch extra)

variable {epoch : Int} {extra : Nat}

theorem outsiders_nodup : outsiders.Nodup := by decide

theorem odd_keeping : Keeping (oddContext epoch extra) (oddBooks epoch extra) :=
  staged_keeping [address 5] outsiders (oddCounts_ne_nil epoch extra)

theorem oddBooks_candidate {k v : Bytes} :
    (oddBooks epoch extra).ballots.candidates k = some v ↔ ∃ c ∈ outsiders, k = c.bytes ∧ v = c.bytes :=
  staged_candidate outsiders_nodup

theorem oddBooks_sound : (oddBooks epoch extra).Sound epoch := by
  refine ⟨?_, countOf_oddCounts_ne_none epoch extra⟩
  intro k v hv
  obtain ⟨c, _, hc⟩ := oddBooks_candidate.mp hv
  exact ⟨c, hc⟩

theorem oddBooks_validators : validatorsOf (oddBooks epoch extra).epoch = some [address 5] :=
  validatorsOf_elected (by decide)

theorem oddBooks_entries {es}
    (hes : Entries (oddBooks epoch extra).ballots.candidates (fun _ => True) es) : es.length = 4 :=
  staged_entries outsiders_nodup hes

variable [Crypto] {ts first : Int} {kicked : List (Address × Int)}

theorem kicked_mem_validators {m : Books}
    (hj : Judged ts first epoch m kicked) (hvs : validatorsOf m.epoch = some vs) : ∀ e ∈ kicked, e.1 ∈ vs := by
  intro e he
  obtain ⟨vs', need, es, hvs', _, hneed, _, rfl⟩ := hj
  rw [hvs] at hvs'
  rw [Option.some.inj hvs']
  exact ((mem_needOf hneed).mp (mem_kickedOut he)).1

/-- Above the safe number, someone is kicked out as soon as someone falls short. -/
theorem exists_mem_kickedOut {need : List (Address × Int)} (hne : need ≠ []) {count : Nat}
    (hcount : safeSize < count) : ∃ e, e ∈ kickedOut need count := by
  refine exists_mem_of_ne_nil _ fun hnil => ?_
  have hlen := congrArg List.length hnil
  have hperm : (sortReverse need).length = need.length := (perm_insertionSort _ need).length_eq
  have hpos := length_pos_iff.mpr hne
  rw [kickedOut, length_take, hperm, length_nil] at hlen
  omega

/-- The first turn judges the only validator, so all candidates stay. -/
theorem oddBooks_first {judges : Prop}
    (hk : Kicks ts first epoch judges (oddBooks epoch extra) kicked) {c : Address} (hc : c ∈ outsiders) :
    (kickAll (oddBooks epoch extra).ballots kicked).candidates c.bytes = some c.bytes := by
  rw [kickAll_candidates, if_neg, oddBooks_candidate.mpr ⟨c, hc, rfl, rfl⟩]
  intro hin
  obtain ⟨e, he, heq⟩ := mem_map.mp hin
  rcases hk with ⟨_, hj⟩ | ⟨_, rfl⟩
  · have hv := kicked_mem_validators hj oddBooks_validators e he
    rw [mem_singleton.mp hv] at heq
    rw [← FixedBytes.bytes_inj.mp heq] at hc
    exact absurd hc (by decide)
  · cases he

/-- The second turn judges the outsiders that the first has elected, and one of
them falls short. -/
theorem oddBooks_second {judges : Prop} (hk : Kicks ts first epoch judges (oddBooks epoch extra) kicked)
    (hnodup : vs.Nodup) (hsize : vs.length = maxValidatorSize) (hsub : ∀ v ∈ vs, v ∈ outsiders)
    {kicked2 : List (Address × Int)}
    (hj : Judged ts first epoch ((oddBooks epoch extra).turned kicked vs) kicked2) :
    ∃ e ∈ kicked2, e.1 ∈ vs := by
  have hvs : validatorsOf ((oddBooks epoch extra).turned kicked vs).epoch = some vs :=
    validatorsOf_elected hsize.le
  have hin := kicked_mem_validators hj hvs
  obtain ⟨vs', need, es', hvs', _, hneed, hes', rfl⟩ := hj
  obtain rfl : vs = vs' := Option.some.inj (hvs.symm.trans hvs')
  obtain ⟨v, hv, hodd⟩ := exists_odd_outsider hnodup hsize hsub
  have hshort : (v, -2 ^ 63) ∈ need :=
    (mem_needOf hneed).mpr ⟨hv, countOf_oddCounts hodd, (minBlocks_bounds ts first).1⟩
  have h : Keeping (oddContext epoch extra) (oddBooks epoch extra) := odd_keeping
  obtain ⟨es, hes, _⟩ := h.candidateEntries
  have hfour : es.length ≤ es'.length + ([] : List Bytes).length := by
    refine hes.length_le hes' [] fun k b _ hkb => .inl ⟨b, trivial, ?_⟩
    obtain ⟨c, hc, rfl, rfl⟩ := oddBooks_candidate.mp hkb
    exact oddBooks_first hk hc
  rw [oddBooks_entries hes] at hfour
  have hmany : safeSize < es'.length := hfour
  obtain ⟨e, he⟩ := exists_mem_kickedOut (ne_nil_of_mem hshort) hmany
  exact ⟨e, he, hin e he⟩

variable [Rand]

/-- An election that spans two epochs kicks out an outsider. -/
theorem not_kicksOnlyIdle (balance : Address → Int) (first : Int) {genesis parent : Header}
    (hg : epochOf (int64 parent.time) ≠ epochOf (int64 genesis.time))
    (hlate : epochOf (int64 parent.time) + 1 < epochOf ts) (extra : Nat) :
    ¬ KicksOnlyIdle balance ts first genesis parent (oddContext (epochOf (int64 parent.time)) extra) := by
  intro hkicks
  set epoch := epochOf (int64 parent.time)
  have h : Keeping (oddContext epoch extra) _ := odd_keeping
  obtain ⟨es, hes, _⟩ := h.candidateEntries
  obtain ⟨ms, _, hy⟩ := h.mintCnt.newPrefix (putUint64_ne_nil (uint64OfInt64 epoch))
  -- two counts at least are ahead of the iterator, and two epochs at least are to be ended
  have hleft : (ms.map Prod.snd).length = extra + 2 := by
    rw [← hy.toList_eq]
    exact mintCounters_oddCounts [address 5] outsiders epoch extra
  rw [h.mintDb] at hy
  obtain ⟨n, hn⟩ : ∃ n, (epochOf ts - epoch).toNat = n + 1 + 1 := ⟨(epochOf ts - epoch).toNat - 2, by omega⟩
  obtain ⟨d', hok⟩ := h.electLoop_ok ts first balance parent.hash (n + 1 + 1) epoch oddBooks_sound (.inr hy) hes
    (by rw [oddBooks_entries hes]; decide) fun _ => ⟨_, oddBooks_validators, by simp⟩
  have helect : tryElect balance ts first genesis parent (oddContext epoch extra) = .ok () d' := by
    rw [tryElect_eq, decide_eq_false hg, electFrom_of_ne hg, hn]
    exact hok
  rcases h.turn balance parent.hash ts first _ (.inr hy) (n + 1) _ with
    ⟨⟨e, d1, herr, _⟩, _⟩ | ⟨kicked, cnt, vs, iter1, d1, hk, _, hcnt, heq, h1, hy1, hnodup, hlen, hmem⟩
  · rw [herr] at hok
    cases hok
  rw [heq] at hok
  have hsize : vs.length = maxValidatorSize := by
    unfold safeSize maxValidatorSize at *
    omega
  have hsub : ∀ v ∈ vs, v ∈ outsiders := by
    intro v hv
    obtain ⟨k, b, hkb, rfl⟩ := hmem v hv
    rw [kickAll_candidates] at hkb
    split at hkb
    · cases hkb
    · obtain ⟨c, hc, _, rfl⟩ := oddBooks_candidate.mp hkb
      rwa [bytesToAddress_bytes]
  rcases h1.turn balance parent.hash ts first _ hy1 n _ with
    ⟨⟨e, d2, herr, _⟩, _⟩ | ⟨kicked2, _, vs2, iter2, d2, hk2, _, _, heq2, h2, hy2, _⟩
  · rw [herr] at hok
    cases hok
  rw [heq2] at hok
  obtain ⟨e, he, hin⟩ : ∃ e ∈ kicked2, e.1 ∈ vs := by
    rcases hk2 with ⟨_, hj⟩ | ⟨hno, _⟩
    · exact oddBooks_second hk hnodup hsize hsub hj
    · refine absurd ⟨rfl, fun hnil => ?_⟩ hno
      have := congrArg List.length hnil
      rw [length_tail, length_nil] at this
      omega
  -- whoever is out stays out
  obtain ⟨m', h', hgone⟩ := h2.electLoop_removed balance parent.hash ts first _ n _ hy2 hok
  have hremoved : d'.candidateEntry e.1 = none := by
    rw [h'.ballots.candidateEntry]
    refine hgone _ ?_
    show (kickAll _ kicked2).candidates e.1.bytes = none
    rw [kickAll_candidates, if_pos (mem_map.mpr ⟨e, he, rfl⟩)]
  have hwas : (oddContext epoch extra).candidateEntry e.1 ≠ none := by
    rw [h.ballots.candidateEntry, oddBooks_candidate.mpr ⟨e.1, hsub e.1 hin, rfl, rfl⟩]
    exact Option.some_ne_none _
  obtain ⟨vs', _, _, hval, hmemv, _⟩ := hkicks d' helect e.1 hwas hremoved
  rw [oddContext, staged_getValidators (by decide) outsiders (oddCounts_ne_nil _ _)] at hval
  cases hval
  rw [mem_singleton] at hmemv
  exact absurd (hsub e.1 hin) (by rw [hmemv]; decide)

end

/-! ## The exact condition -/

/-- **An election kicks out only idle validators, whatever the context, exactly
when it judges once**: no one is judged in the genesis epoch, one epoch takes one
turn, and with one count the iterator is exhausted after the first. -/
theorem kicksOnlyIdle_iff [Crypto] [Rand] (ts first : Int) (genesis parent : Header) (counters : Nat) :
    (∀ (d : DposContext) (balance : Address → Int), Whole d →
      mintCounters d (epochOf (int64 parent.time)) = counters →
      KicksOnlyIdle balance ts first genesis parent d) ↔
    (epochOf (int64 parent.time) = epochOf (int64 genesis.time) ∨
      epochOf ts ≤ epochOf (int64 parent.time) + 1 ∨ counters ≤ 1) := by
  constructor
  · intro hall
    by_contra hcond
    push Not at hcond
    obtain ⟨hg, hlate, hmany⟩ := hcond
    have hcount := mintCounters_oddCounts [Sample.address 5] outsiders (epochOf (int64 parent.time))
      (counters - 2)
    exact not_kicksOnlyIdle (fun _ => 0) first hg hlate (counters - 2)
      (hall _ _ odd_keeping.whole (hcount.trans (by omega)))
  · intro hcond d balance hw hcount
    exact hw.kicksOnlyIdle balance (by rw [hcount]; exact hcond)

/-- What an election leaves behind, if it succeeds. -/
def electedContext? : EStateM.Result Error DposContext Unit → Option DposContext
  | .ok _ d' => some d'
  | .error _ _ => none

theorem electedContext?_eq_some {r : EStateM.Result Error DposContext Unit} {d' : DposContext}
    (h : electedContext? r = some d') : r = .ok () d' := by
  cases r with
  | ok u d1 => exact congrArg _ (Option.some.inj h)
  | error e d1 => cases h

section
open Sample

/-- Four candidates, three of which are validators and have minted 1440 blocks each
in epoch 10. -/
def newcomer : DposContext :=
  staged [address 2, address 3, address 4] [address 1, address 2, address 3, address 4]
    ([address 2, address 3, address 4].map fun v => (mintCntKey 10 v, putUint64 1440))

/-- The next block comes in epoch 12. The candidate that is elected for epoch 11 has
minted nothing in epoch 10, and is kicked out for it. -/
theorem newcomer_kicked_out : ∃ d', tryElect (fun _ => 0) (12 * 86400) 10 (header 0 0 (address 2) (.zero 32))
        (header 1 (10 * 86400) (address 2) (.zero 32)) newcomer = .ok () d' ∧
      newcomer.candidateEntry (address 1) = some (address 1).bytes ∧ d'.candidateEntry (address 1) = none ∧
      newcomer.getValidators.1 = .ok [address 2, address 3, address 4] := by
  have hrun : (electedContext? (tryElect (fun _ => 0) (12 * 86400) 10
      (header 0 0 (address 2) (.zero 32)) (header 1 (10 * 86400) (address 2) (.zero 32))
      newcomer)).map (·.candidateEntry (address 1)) = some none := by
    decide +kernel
  obtain ⟨d', hd', hgone⟩ := Option.map_eq_some_iff.mp hrun
  refine ⟨d', electedContext?_eq_some hd', by decide +kernel, hgone, ?_⟩
  exact staged_getValidators (by decide) _ (by decide +kernel)

end

end Bgmchain.Dpos
