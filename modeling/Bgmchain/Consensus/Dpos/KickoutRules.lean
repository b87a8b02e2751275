import Bgmchain.Consensus.Dpos.Outsiders
import Bgmchain.Consensus.Dpos.Ranking
import Bgmchain.Consensus.Dpos.Success

/-! # Whom a kickout spares

`kickoutValidator` counts the candidates once and then counts down with every validator that it
kicks out, whether or not that validator was a candidate any more. What is left is as it should be
exactly if the validators that it gets to are candidates, each named once, or none of those that it
does not get to is a candidate. -/
namespace Bgmchain.Dpos
open Common List

/-- The blocks that a validator has minted in an epoch. -/
def countIn (d : DposContext) (epoch : Int) (v : Address) : Int :=
  match mintCnt epoch v d with
  | .ok cnt _ => cnt
  | .error _ _ => 0

/-- The validators with fewer blocks than are required, with their counts. -/
def short (d : DposContext) (epoch required : Int) (vs : List Address) : List (Address × Int) :=
  (vs.map fun v => (v, countIn d epoch v)).filter fun e => e.2 < required

theorem mem_short {d : DposContext} {epoch required : Int} {vs : List Address} {e : Address × Int} :
    e ∈ short d epoch required vs ↔ e.1 ∈ vs ∧ e.2 = countIn d epoch e.1 ∧ e.2 < required := by
  unfold short
  rw [mem_filter, mem_map]
  constructor
  · intro ⟨⟨v, hv, he⟩, hlt⟩
    subst he
    exact ⟨hv, rfl, by simpa using hlt⟩
  · intro ⟨hv, hcnt, hlt⟩
    exact ⟨⟨e.1, hv, Prod.ext rfl hcnt.symm⟩, by simpa using hlt⟩

section
variable {d : DposContext} {m : Books}

theorem Keeping.countIn (h : Keeping d m) {epoch : Int} {v : Address} {cnt : Int}
    (hcnt : countOf m.mintCnt epoch v = some cnt) : countIn d epoch v = cnt := by
  obtain ⟨d', -, heq⟩ := h.mintCnt_eq epoch v
  rw [hcnt] at heq
  unfold Dpos.countIn
  rw [heq]

theorem Keeping.short (h : Keeping d m) {epoch required : Int} {vs : List Address} {need : List (Address × Int)}
    (hneed : needOf m.mintCnt epoch required vs = some need) : short d epoch required vs = need := by
  induction vs generalizing need with
  | nil =>
    cases hneed
    rfl
  | cons v vs ih =>
    simp only [needOf, bind, Option.bind_eq_some_iff] at hneed
    obtain ⟨cnt, hcnt, need', hneed', heq⟩ := hneed
    cases heq
    unfold Dpos.short at ih ⊢
    rw [map_cons, filter_cons, h.countIn hcnt, ih hneed']
    simp only [decide_eq_true_eq]

end

/-- The number of different addresses in a list that are keys of a map. -/
theorem length_filter_keys {candidates : Bytes → Option Bytes} {es : List (Bytes × Bytes)}
    (hes : Entries candidates (fun _ => True) es) (kicked : List Address) :
    (es.filter fun e => e.1 ∈ kicked.map (·.bytes)).length =
      (kicked.dedup.filter fun a => (candidates a.bytes).isSome).length := by
  have hperm : ((es.filter fun e => e.1 ∈ kicked.map (·.bytes)).map Prod.fst).Perm
      ((kicked.dedup.filter fun a => (candidates a.bytes).isSome).map (·.bytes)) := by
    refine (perm_ext_iff_of_nodup ?_ ?_).2 ?_
    · exact hes.nodup_keys.sublist (filter_sublist.map _)
    · exact (kicked.nodup_dedup.sublist filter_sublist).map fun a b hab => FixedBytes.ext hab
    · intro k
      simp only [mem_map, mem_filter, mem_dedup, decide_eq_true_eq]
      constructor
      · intro ⟨e, ⟨he, a, ha, hak⟩, hk⟩
        have hsome := (hes.mem_iff e.1 e.2).1 he
        exact ⟨a, ⟨ha, by rw [hak, hsome.2]; rfl⟩, hak.trans hk⟩
      · intro ⟨a, ⟨ha, hsome⟩, hk⟩
        obtain ⟨v, hv⟩ := Option.isSome_iff_exists.1 hsome
        exact ⟨(a.bytes, v), ⟨(hes.mem_iff _ _).2 ⟨trivial, hv⟩, a, ha, rfl⟩, hk⟩
  simpa using hperm.length_eq

/-- The candidates that are left after some have been kicked out. -/
theorem Keeping.candidateCount_kicked {d d' : DposContext} {m : Books} (h : Keeping d m) {kicked : List (Address × Int)}
    (h' : Keeping d' { m with ballots := kickAll m.ballots kicked }) {es}
    (hes : Entries m.ballots.candidates (fun _ => True) es) :
    candidateCount d' = candidateCount d -
        ((kicked.map (·.1)).dedup.filter fun a => (m.ballots.candidates a.bytes).isSome).length ∧
      ((kicked.map (·.1)).dedup.filter fun a => (m.ballots.candidates a.bytes).isSome).length ≤ candidateCount d := by
  obtain ⟨es', hes', -⟩ := h'.candidateEntries
  rw [h.candidateCount_eq hes, h'.candidateCount_eq hes', ← length_filter_keys hes]
  have hkept : es'.length = (es.filter fun e => !decide (e.1 ∈ (kicked.map (·.1)).map (·.bytes))).length := by
    have hnodup := hes.nodup_keys.sublist
      ((filter_sublist (p := fun e : Bytes × Bytes => !decide (e.1 ∈ (kicked.map (·.1)).map (·.bytes)))).map Prod.fst)
    rw [hes'.length_eq hnodup, length_map]
    intro k
    have hk : (kickAll m.ballots kicked).candidates k ≠ none ↔
        k ∉ (kicked.map (·.1)).map (·.bytes) ∧ m.ballots.candidates k ≠ none := by
      have hmaps : (kicked.map (·.1)).map (·.bytes) = kicked.map (·.1.bytes) := by
        rw [map_map]
        rfl
      rw [kickAll_candidates, hmaps, Ne, ite_eq_left_iff, Classical.not_imp]
    rw [hk, Option.ne_none_iff_exists', mem_map]
    constructor
    · intro ⟨e, he, hek⟩
      obtain ⟨he, hnot⟩ := mem_filter.1 he
      have hsome := ((hes.mem_iff e.1 e.2).1 he).2
      exact ⟨trivial, by simpa [hek] using hnot, e.2, hek ▸ hsome⟩
    · intro ⟨_, hnot, v, hv⟩
      exact ⟨(k, v), mem_filter.2 ⟨(hes.mem_iff k v).2 ⟨trivial, hv⟩, by simpa using hnot⟩, rfl⟩
  have hsum := length_eq_length_filter_add (l := es) fun e => decide (e.1 ∈ (kicked.map (·.1)).map (·.bytes))
  omega

/-- The first of a list of names are struck off a list of `count`. At most `keep` are left then, or
all names that count are among the first, exactly if the first are different names that count or
all names that count are among them. -/
theorem spared_iff {names reached : List Address} {p : Address → Bool} {count keep : Nat}
    (hreached : reached = names.take (count - keep)) (hle : (reached.dedup.filter p).length ≤ count) :
    ((∀ a ∈ names, p a = true → a ∈ reached) ∨ count - (reached.dedup.filter p).length ≤ keep) ↔
      (reached.Nodup ∧ ∀ a ∈ reached, p a = true) ∨ ∀ a ∈ names, p a = true → a ∈ reached := by
  have hlen : reached.length ≤ count - keep := hreached ▸ length_take_le _ _
  have hdedup := (dedup_sublist reached).length_le
  have hfilter : (reached.dedup.filter p).Sublist reached.dedup := filter_sublist
  have hall := hfilter.length_le
  constructor
  · intro h
    rcases h with h | h
    · exact .inr h
    · -- every one of the first has been struck off
      have hsame : reached.dedup = reached := (dedup_sublist _).eq_of_length (by omega)
      have hp := hfilter.eq_of_length (by omega)
      rw [hsame] at hp
      exact .inl ⟨dedup_eq_self.1 hsame, filter_eq_self.1 hp⟩
  · intro h
    rcases h with ⟨hnodup, hp⟩ | h
    · by_cases hshort : reached.length < count - keep
      · left
        have htake : reached = names := by
          rw [hreached, length_take] at hshort
          rw [hreached, take_of_length_le (by omega)]
        rw [htake]
        exact fun a ha _ => ha
      · right
        rw [hnodup.dedup, filter_eq_self.2 hp]
        omega
    · exact .inl h

section
variable [Crypto]

theorem kickedOut_eq (need : List (Address × Int)) (count : Nat) :
    kickedOut need count = (sortReverse need).take (count - safeSize) := by
  have hlen : (sortReverse need).length = need.length := (perm_insertionSort _ need).length_eq
  unfold kickedOut
  rw [take_eq_take_iff]
  omega

/-- Whoever is not among the first has no fewer blocks than those who are. -/
theorem count_le_of_kept {need : List (Address × Int)} {count : Nat} {p q : Address × Int}
    (hp : p ∈ kickedOut need count) (hq : q ∈ sortReverse need) (hout : q.1 ∉ (kickedOut need count).map (·.1)) :
    p.2 ≤ q.2 := by
  have hsorted := sortReverse_ranked need
  rw [kickedOut_eq] at hp hout
  rw [← take_append_drop (count - safeSize) (sortReverse need)] at hq hsorted
  rcases mem_append.1 hq with hq | hq
  · exact absurd (mem_map_of_mem hq) hout
  · rcases ranked_iff.1 ((pairwise_append.1 hsorted).2.2 p hp q hq) with h | h
    · omega
    · omega

/-- **What `kickoutValidator` leaves**, when it succeeds. Whoever is no validator or has enough
blocks stays, and whoever is kept has no fewer blocks than those kicked out. The under-performing
validators are all gone, or no more than `safeSize` candidates are left, exactly if those it gets to
are candidates named once, or no other under-performing validator is a candidate. -/
theorem kickoutValidator_rules {d d' : DposContext} {ts start epoch : Int} (hd : Whole d)
    (hok : kickoutValidator ts start epoch d = .ok () d') :
    ∃ vs, d.getValidators.1 = .ok vs ∧
      (∀ a, a ∉ vs ∨ minBlocks ts start ≤ countIn d epoch a → d'.candidateEntry a = d.candidateEntry a) ∧
      (∀ v ∈ vs, ∀ w ∈ vs, countIn d epoch w < minBlocks ts start → d.candidateEntry v ≠ none →
        d'.candidateEntry v = none → d'.candidateEntry w ≠ none → countIn d epoch v ≤ countIn d epoch w) ∧
      (((∀ v ∈ vs, countIn d epoch v < minBlocks ts start → d'.candidateEntry v = none) ∨
          candidateCount d' ≤ safeSize) ↔
        let due := (sortReverse (short d epoch (minBlocks ts start) vs)).map (·.1)
        let reached := due.take (candidateCount d - safeSize)
        (reached.Nodup ∧ ∀ a ∈ reached, d.candidateEntry a ≠ none) ∨
          ∀ a ∈ due, d.candidateEntry a ≠ none → a ∈ reached) := by
  obtain ⟨m, h⟩ := hd.keeping
  obtain ⟨es, hes, -⟩ := h.candidateEntries
  rcases h.kickoutValidator hes ts start epoch with ⟨e, d1, herr, -⟩ | ⟨vs, need, d1, hvs, -, hneed, hok', h'⟩
  · rw [herr] at hok
    cases hok
  · rw [hok'] at hok
    cases hok
    have hcount := h.candidateCount_eq hes
    have hshort := h.short hneed
    have hget : d.getValidators.1 = .ok vs := by
      obtain ⟨d1, -, heq⟩ := h.getValidators
      rw [heq, hvs]
    have hdue : ∀ e, e ∈ sortReverse need ↔ e.1 ∈ vs ∧ e.2 = countIn d epoch e.1 ∧ e.2 < minBlocks ts start := by
      intro e
      rw [← hshort]
      exact (perm_insertionSort _ _).mem_iff.trans mem_short
    -- who is kicked out, and what is left
    set kicked := (kickedOut need es.length).map (·.1) with hkickedOut
    have hkicked : kicked = ((sortReverse need).map (·.1)).take (candidateCount d - safeSize) := by
      rw [hkickedOut, kickedOut_eq, map_take, hcount]
    have hentry : ∀ a, d'.candidateEntry a = if a ∈ kicked then none else d.candidateEntry a := by
      intro a
      have hmem : a.bytes ∈ (kickedOut need es.length).map (·.1.bytes) ↔ a ∈ kicked := by
        simp only [hkickedOut, mem_map, FixedBytes.bytes_inj]
      rw [h'.ballots.candidateEntry, h.ballots.candidateEntry, kickAll_candidates]
      exact if_congr hmem rfl rfl
    have hneedy : ∀ a ∈ kicked, a ∈ vs ∧ (a, countIn d epoch a) ∈ kickedOut need es.length ∧
        countIn d epoch a < minBlocks ts start := by
      intro a ha
      obtain ⟨⟨v, cnt⟩, he, rfl⟩ := mem_map.1 ha
      obtain ⟨hv, hcnt, hlt⟩ := mem_short.1 (hshort ▸ mem_kickedOut he)
      dsimp only at hv hcnt hlt
      rw [hcnt] at he hlt
      exact ⟨hv, he, hlt⟩
    refine ⟨vs, hget, ?_, ?_, ?_⟩
    · intro a ha
      rw [hentry, if_neg]
      intro hin
      obtain ⟨hv, -, hlt⟩ := hneedy a hin
      rcases ha with ha | ha
      · exact ha hv
      · omega
    · intro v _ w hw hlow hv hgone hkept
      have hvin : v ∈ kicked := by
        by_contra hnot
        rw [hentry, if_neg hnot] at hgone
        exact hv hgone
      have hwout : w ∉ kicked := by
        intro hin
        rw [hentry, if_pos hin] at hkept
        exact hkept rfl
      obtain ⟨-, hvkicked, -⟩ := hneedy v hvin
      exact count_le_of_kept hvkicked ((hdue (w, _)).2 ⟨hw, rfl, hlow⟩) hwout
    · have hleft := h.candidateCount_kicked h' hes
      have hcand : ∀ a, (m.ballots.candidates a.bytes).isSome = true ↔ d.candidateEntry a ≠ none := by
        intro a
        rw [h.ballots.candidateEntry, Option.isSome_iff_ne_none]
      rw [← hkickedOut, hkicked] at hleft
      have hiff := spared_iff rfl hleft.2
      rw [hleft.1, hshort]
      simp only [hcand] at hiff
      refine Iff.trans (or_congr ?_ Iff.rfl) hiff
      rw [← hkicked]
      constructor
      · intro hgone a ha hin
        obtain ⟨e, he, rfl⟩ := mem_map.1 ha
        obtain ⟨hv, hcnt, hlt⟩ := (hdue e).1 he
        by_contra hnot
        have hnone := hgone e.1 hv (hcnt ▸ hlt)
        rw [hentry, if_neg hnot] at hnone
        exact hin hnone
      · intro hreached v hv hlow
        rw [hentry]
        split
        · rfl
        next hnot =>
          by_contra hin
          exact hnot (hreached v (mem_map.2 ⟨(v, _), (hdue _).2 ⟨hv, rfl, hlow⟩, rfl⟩) hin)

end

/-! ## A validator that has resigned -/

section
open Sample

def resignedBooks : Books :=
  stagedBooks [address 1, address 2, address 3] [address 1, address 2, address 4, address 5] []

/-- Three validators that have not minted anything, the last of whom is no candidate any more. -/
def resigned : DposContext := staged [address 1, address 2, address 3] [address 1, address 2, address 4, address 5] []

theorem resigned_keeping : Keeping resigned resignedBooks := staged_keeping _ _ nofun

theorem resigned_entries {es} (hes : Entries resignedBooks.ballots.candidates (fun _ => True) es) : es.length = 4 :=
  staged_entries (by decide) hes

/-- Only the validator that has resigned is kicked out. -/
theorem resigned_kickout : ∃ d', kickoutValidator 86400 0 0 resigned = .ok () d' ∧
    Keeping d' { resignedBooks with ballots := kickAll resignedBooks.ballots [(address 3, 0)] } := by
  have hvalidators : validatorsOf resignedBooks.epoch = some [address 1, address 2, address 3] := rfl
  have hneeds : needOf resignedBooks.mintCnt 0 (minBlocks 86400 0) [address 1, address 2, address 3] =
      some [(address 1, 0), (address 2, 0), (address 3, 0)] := rfl
  obtain ⟨es, hes, -⟩ := resigned_keeping.candidateEntries
  rcases resigned_keeping.kickoutValidator hes 86400 0 0 with ⟨e, d', -, -, -, hno⟩ | ⟨vs, need, d', hvs, -, hneed, hok, h'⟩
  · rw [hvalidators] at hno
    rcases hno with hno | hno | ⟨vs, hvs, hno⟩
    · cases hno
    · cases hno
    · cases hvs
      rw [hneeds] at hno
      cases hno
  · rw [hvalidators] at hvs
    cases hvs
    rw [hneeds] at hneed
    cases hneed
    refine ⟨d', hok, ?_⟩
    rw [resigned_entries hes] at h'
    exact h'

theorem kickoutValidator_rules_resigned : ∃ d' vs, kickoutValidator 86400 0 0 resigned = .ok () d' ∧
    resigned.getValidators.1 = .ok vs ∧ ∀ a ∉ vs, d'.candidateEntry a = resigned.candidateEntry a := by
  obtain ⟨d', hok, -⟩ := resigned_kickout
  obtain ⟨vs, hvs, hstay, -⟩ := kickoutValidator_rules resigned_keeping.whole hok
  exact ⟨d', vs, hok, hvs, fun a ha => hstay a (.inl ha)⟩

/-- The count goes down for the validator that has resigned, and two that have not minted anything
are spared among four candidates. -/
theorem kickout_counts_resigned : ∃ d', kickoutValidator 86400 0 0 resigned = .ok () d' ∧
    resigned.getValidators.1 = .ok [address 1, address 2, address 3] ∧
    countIn resigned 0 (address 1) < minBlocks 86400 0 ∧ d'.candidateEntry (address 1) ≠ none ∧
    safeSize < candidateCount d' := by
  obtain ⟨d', hok, h'⟩ := resigned_kickout
  obtain ⟨es, hes, -⟩ := resigned_keeping.candidateEntries
  refine ⟨d', hok, staged_getValidators (by decide) _ nofun, ?_, ?_, ?_⟩
  · have hcount : countOf resignedBooks.mintCnt 0 (address 1) = some 0 := rfl
    rw [resigned_keeping.countIn hcount]
    decide
  · have hstay : (kickAll resignedBooks.ballots [(address 3, 0)]).candidates (address 1).bytes = some (address 1).bytes := rfl
    rw [h'.ballots.candidateEntry]
    rw [hstay]
    exact Option.some_ne_none _
  · have hnone : resignedBooks.ballots.candidates (address 3).bytes = none := rfl
    have hleft := (resigned_keeping.candidateCount_kicked h' hes).1
    have hfilter : (([(address 3, (0 : Int))].map (·.1)).dedup.filter fun a =>
        (resignedBooks.ballots.candidates a.bytes).isSome).length = 0 := rfl
    rw [hleft, hfilter, resigned_keeping.candidateCount_eq hes, resigned_entries hes]
    decide

end

end Bgmchain.Dpos
