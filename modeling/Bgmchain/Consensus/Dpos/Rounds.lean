import Bgmchain.Consensus.Dpos.Votes

/-! # The turns of the election, on the maps

One turn of `tryElect` kicks out and elects. `Keeping.turn` says all that it can
do to the maps of a readable context; what holds over a whole election follows
from it by induction on the number of turns. -/
namespace Bgmchain.Dpos
open Common List DposContext

/-! ## Electing one epoch's validators -/

theorem decodeValidators_encode {vs : List Address} (h : vs.length ≤ maxValidatorSize) :
    decodeValidators (encodeValidators vs) = some vs := by
  have hitem (item : { bs : Bytes // bs.length = 20 }) : (Lib.Rlp.encodeString item.val).length = 21 := by
    unfold Lib.Rlp.encodeString
    split
    next heq =>
      have := item.property
      rw [heq] at this
      simp at this
    · simp [Lib.Rlp.sizeHeader, item.property]
  unfold decodeValidators encodeValidators
  rw [Lib.Rlp.decodeFixedList_encode (by decide)]
  · simp [map_map, Function.comp_def, FixedBytes.sized]
  · unfold maxValidatorSize at h
    simp only [length_flatMap, hitem, map_const', sum_replicate_nat, length_map]
    omega

/-- The epoch map after an election. -/
def elected (vs : List Address) : Bytes → Option Bytes :=
  Function.update (fun _ => none) validatorKey (some (encodeValidators vs))

theorem validatorsOf_elected {vs : List Address} (h : vs.length ≤ maxValidatorSize) :
    validatorsOf (elected vs) = some vs := by
  simp [validatorsOf, elected, decodeValidators_encode h]

/-- The number of addresses that an election over these candidates counts. -/
def Electable (candidates : Bytes → Option Bytes) (n : Nat) : Prop :=
  ∃ es, Entries candidates (fun _ => True) es ∧ (es.map fun e => bytesToAddress e.2).dedup.length = n

/-- The number of counts entered for an epoch. -/
def mintCounters (d : DposContext) (epoch : Int) : Nat :=
  ((LeafIterator.newPrefix d.mintCntTrie (putUint64 (uint64OfInt64 epoch))).toList d.mintCntTrie).length

variable {m : Books}

/-- The iterator of `tryElect` over the counts of an epoch. -/
theorem Keeping.counters {d : DposContext} (h : Keeping d m) (epoch : Int) :
    ∃ left, (LeafIterator.newPrefix d.mintCntTrie (putUint64 (uint64OfInt64 epoch))).Yields m.mintDb left ∧
      left.length = mintCounters d epoch := by
  obtain ⟨es, _, hy⟩ := h.mintCnt.newPrefix (putUint64_ne_nil (uint64OfInt64 epoch))
  refine ⟨es.map Prod.snd, ?_, ?_⟩
  · rw [← h.mintDb]
    exact hy
  · rw [mintCounters, hy.toList_eq]

theorem electFrom_of_ne {ts : Int} {genesis parent : Header}
    (h : epochOf (int64 parent.time) ≠ epochOf (int64 genesis.time)) :
    electFrom ts genesis parent = epochOf (int64 parent.time) :=
  if_neg fun hc => h hc.1

section
variable [Crypto] [Rand] (balance : Address → Int) (parentHash : Hash) {d : DposContext}

/-- `electRound` on the maps. -/
theorem Keeping.electRound (h : Keeping d m) (i : Int) :
    ∃ n, Electable m.ballots.candidates n ∧
      ((n < safeSize ∧ ∃ e, Dpos.electRound balance parentHash i d = .error e d ∧ e.isPanic = false) ∨
      (safeSize ≤ n ∧ ∃ vs d', Dpos.electRound balance parentHash i d = .ok () d' ∧
        Keeping d' { m with epoch := elected vs } ∧ vs.Nodup ∧ vs.length = min maxValidatorSize n ∧
        ∀ v ∈ vs, ∃ k b, m.ballots.candidates k = some b ∧ v = bytesToAddress b)) := by
  obtain ⟨es, hes, _⟩ := h.candidateEntries
  refine ⟨_, ⟨es, hes, rfl⟩, ?_⟩
  have hv := h.countVotes balance hes
  rw [electRound_eq]
  by_cases hnil : es = []
  · rw [if_pos hnil] at hv
    rw [hv, hnil]
    exact .inl ⟨by decide, _, rfl, rfl⟩
  · rw [if_neg hnil] at hv
    obtain ⟨votes, hok, hcounts⟩ := hv
    rw [hok, ← hcounts.length_eq]
    dsimp only
    by_cases hfew : votes.length < safeSize
    · rw [if_pos hfew]
      exact .inl ⟨hfew, _, rfl, rfl⟩
    · rw [if_neg hfew]
      obtain ⟨hnodup, hmem, hlen⟩ := electValidators_spec hcounts parentHash i
      have hepoch := (Trie.holds_empty d.db epochPrefix).update validatorKey
        (encodeValidators_ne_nil (electValidators parentHash i votes))
      refine .inr ⟨Nat.le_of_not_lt hfew, electValidators parentHash i votes,
        ({ d with epochTrie := .empty d.db epochPrefix }).setValidators
          (electValidators parentHash i votes), rfl, ?_, hnodup, hlen, ?_⟩
      · exact h.setEpoch hepoch
      · intro v hv
        obtain ⟨⟨k, b⟩, hin, rfl⟩ := mem_map.mp (hmem v hv)
        exact ⟨k, b, ((hes.mem_iff k b).mp hin).2, rfl⟩

/-! ## One turn -/

/-- The validators kicked out by a turn that calls `kickoutValidator`. -/
def Judged (ts first epoch : Int) (m : Books) (kicked : List (Address × Int)) : Prop :=
  ∃ vs need es, validatorsOf m.epoch = some vs ∧ vs ≠ [] ∧
    needOf m.mintCnt epoch (minBlocks ts first) vs = some need ∧
    Entries m.ballots.candidates (fun _ => True) es ∧ kicked = kickedOut need es.length

/-- The validators kicked out by a turn: none unless it `judges`. -/
def Kicks (ts first epoch : Int) (judges : Prop) (m : Books) (kicked : List (Address × Int)) : Prop :=
  (judges ∧ Judged ts first epoch m kicked) ∨ (¬ judges ∧ kicked = [])

/-- A turn that `judges` or not cannot go through. -/
def Stuck (ts first epoch : Int) (judges : Prop) (m : Books) : Prop :=
  (judges ∧ ¬ ∃ kicked, Judged ts first epoch m kicked) ∨
    ∃ kicked c, Kicks ts first epoch judges m kicked ∧
      Electable (kickAll m.ballots kicked).candidates c ∧ c < safeSize

/-- The maps after a turn. -/
noncomputable def Books.turned (m : Books) (kicked : List (Address × Int)) (vs : List Address) : Books :=
  { m with ballots := kickAll m.ballots kicked, epoch := elected vs }

omit [Common.Rand] in
/-- The kickout of a turn, when the iterator has these counts left. -/
theorem Keeping.kickoutTurn (h : Keeping d m) (ts first epoch : Int)
    {isGenesis : Bool} {iter : LeafIterator} {left : List Bytes}
    (hy : isGenesis = true ∨ iter.Yields m.mintDb left) :
    ((isGenesis = false ∧ left ≠ []) ∧ (¬ ∃ kicked, Judged ts first epoch m kicked) ∧
      ∃ e d', Dpos.kickoutTurn ts first epoch isGenesis iter d = .error e d' ∧
        (m.Sound epoch → e.isPanic = false)) ∨
    ∃ kicked iter' d', Kicks ts first epoch (isGenesis = false ∧ left ≠ []) m kicked ∧
      Dpos.kickoutTurn ts first epoch isGenesis iter d = .ok iter' d' ∧
      Keeping d' { m with ballots := kickAll m.ballots kicked } ∧
      (isGenesis = true ∨ iter'.Yields m.mintDb left.tail) := by
  rw [kickoutTurn_eq]
  cases isGenesis with
  | true => exact .inr ⟨[], iter, d, .inr ⟨by simp, rfl⟩, rfl, h, .inl rfl⟩
  | false =>
    have hy : iter.Yields d.mintCntTrie.db left := by
      rw [h.mintDb]
      exact hy.resolve_left (by simp)
    obtain ⟨iter', hnext, _, hy'⟩ := hy.next
    rw [h.mintDb] at hy'
    rw [hnext]
    cases left with
    | nil => exact .inr ⟨[], iter', d, .inr ⟨by simp, rfl⟩, rfl, h, .inr hy'⟩
    | cons b left =>
      obtain ⟨es, hes, _⟩ := h.candidateEntries
      rcases h.kickoutValidator hes ts first epoch with
        ⟨e, d', herr, _, hpanic, hno⟩ | ⟨vs, need, d', hvs, hnil, hneed, hok, hd'⟩
      · left
        refine ⟨⟨rfl, by simp⟩, ?_, e, d', ?_, hpanic⟩
        · intro ⟨kicked, vs, need, _, hvs, hnil, hneed, _⟩
          rcases hno with hno | hno | ⟨vs', hvs', hno⟩
          · rw [hno] at hvs
            cases hvs
          · rw [hno] at hvs
            exact hnil (Option.some.inj hvs).symm
          · rw [hvs'] at hvs
            rw [Option.some.inj hvs, hneed] at hno
            cases hno
        · rw [herr]
          rfl
      · right
        refine ⟨_, iter', d', .inl ⟨⟨rfl, by simp⟩, vs, need, es, hvs, hnil, hneed, hes, rfl⟩, ?_, hd',
          .inr hy'⟩
        rw [hok]
        rfl

/-- **What one turn can do.** It fails, because the validators cannot be judged or
too few candidates are left, or it leads to the remaining turns on the maps after
the kickout and the election. -/
theorem Keeping.turn (h : Keeping d m) (ts first epoch : Int)
    {isGenesis : Bool} {iter : LeafIterator} {left : List Bytes}
    (hy : isGenesis = true ∨ iter.Yields m.mintDb left) (n : Nat) (i : Int) :
    ((∃ e d', electLoop balance ts first epoch isGenesis parentHash (n + 1) i iter d = .error e d' ∧
        (m.Sound epoch → e.isPanic = false)) ∧ Stuck ts first epoch (isGenesis = false ∧ left ≠ []) m) ∨
    ∃ kicked c vs iter' d', Kicks ts first epoch (isGenesis = false ∧ left ≠ []) m kicked ∧
      Electable (kickAll m.ballots kicked).candidates c ∧ safeSize ≤ c ∧
      electLoop balance ts first epoch isGenesis parentHash (n + 1) i iter d =
        electLoop balance ts first epoch isGenesis parentHash n (i + 1) iter' d' ∧
      Keeping d' (m.turned kicked vs) ∧ (isGenesis = true ∨ iter'.Yields m.mintDb left.tail) ∧
      vs.Nodup ∧ vs.length = min maxValidatorSize c ∧
      ∀ v ∈ vs, ∃ k b, (kickAll m.ballots kicked).candidates k = some b ∧ v = bytesToAddress b := by
  rw [electLoop_succ]
  rcases h.kickoutTurn ts first epoch hy with
    ⟨hj, hno, e, d', herr, hpanic⟩ | ⟨kicked, iter', d1, hk, hok, h1, hy'⟩
  · left
    rw [herr]
    exact ⟨⟨e, d', rfl, hpanic⟩, .inl ⟨hj, hno⟩⟩
  · rw [hok]
    dsimp only
    obtain ⟨c, hc, ⟨hfew, e, herr, hpanic⟩ | ⟨hmany, vs, d2, helect, h2, hnodup, hlen, hmem⟩⟩ :=
      h1.electRound balance parentHash i
    · left
      rw [herr]
      exact ⟨⟨e, d1, rfl, fun _ => hpanic⟩, .inr ⟨kicked, c, hk, hc, hfew⟩⟩
    · right
      rw [helect]
      exact ⟨kicked, c, vs, iter', d2, hk, hc, hmany, rfl, h2, hy', hnodup, hlen, hmem⟩

/-! ## Whole elections -/

variable (ts first epoch : Int) {isGenesis : Bool}

/-- What every turn keeps is kept by an election. -/
theorem Keeping.electLoop_rule {I : List Bytes → Books → Prop} (hI : ∀ left m kicked vs, I left m →
      Kicks ts first epoch (isGenesis = false ∧ left ≠ []) m kicked → I left.tail (m.turned kicked vs)) (n : Nat) :
    ∀ {d d' : DposContext} {m : Books} {iter : LeafIterator} {left : List Bytes} (i : Int), Keeping d m →
      (isGenesis = true ∨ iter.Yields m.mintDb left) → I left m →
      electLoop balance ts first epoch isGenesis parentHash n i iter d = .ok () d' →
      ∃ left' m', Keeping d' m' ∧ I left' m' := by
  induction n with
  | zero =>
    intro d d' m iter left i h _ hm hok
    cases hok
    exact ⟨left, m, h, hm⟩
  | succ n ih =>
    intro d d' m iter left i h hy hm hok
    rcases h.turn balance parentHash ts first epoch hy n i with
      ⟨⟨e, d1, herr, _⟩, _⟩ | ⟨kicked, c, vs, iter', d1, hk, _, _, heq, h1, hy', _⟩
    · rw [herr] at hok
      cases hok
    · rw [heq] at hok
      exact ih (i + 1) h1 hy' (hI left m kicked vs hm hk) hok

variable {d' : DposContext} {m : Books} {iter : LeafIterator} {left : List Bytes}

section
variable (n : Nat) (i : Int) (h : Keeping d m) (hy : isGenesis = true ∨ iter.Yields m.mintDb left)
include n i h hy

/-- Turns that judge no one leave the ballots as they are. -/
theorem Keeping.electLoop_quiet (hq : n = 0 ∨ isGenesis = true ∨ left = [])
    (hok : electLoop balance ts first epoch isGenesis parentHash n i iter d = .ok () d') :
    ∃ m', Keeping d' m' ∧ m'.ballots = m.ballots := by
  rcases hq with rfl | hq
  · cases hok
    exact ⟨m, h, rfl⟩
  · have hend := electLoop_rule (I := fun l b => (isGenesis = true ∨ l = []) ∧ b.ballots = m.ballots)
      balance parentHash ts first epoch (by
        rintro l b kicked vs ⟨hq, hb⟩ (⟨⟨hg, hl⟩, _⟩ | ⟨_, rfl⟩)
        · simp [hg, hl] at hq
        · exact ⟨hq.imp_right fun hl => by rw [hl]; rfl, hb⟩) n i h hy ⟨hq, rfl⟩ hok
    obtain ⟨_, m', h', _, hb⟩ := hend
    exact ⟨m', h', hb⟩

/-- No candidate comes back during an election. -/
theorem Keeping.electLoop_removed (hok : electLoop balance ts first epoch isGenesis parentHash n i iter d = .ok () d') :
    ∃ m', Keeping d' m' ∧ ∀ k, m.ballots.candidates k = none → m'.ballots.candidates k = none := by
  have hend := electLoop_rule (I := fun _ b => ∀ k, m.ballots.candidates k = none → b.ballots.candidates k = none)
    balance parentHash ts first epoch (by
      intro l b kicked vs hb _ k hk
      show (kickAll b.ballots kicked).candidates k = none
      rw [kickAll_candidates, hb k hk, ite_self]) n i h hy (fun _ hk => hk) hok
  obtain ⟨_, m', h', hr⟩ := hend
  exact ⟨m', h', hr⟩

end

end

/-! ## Elections that go through -/

theorem Books.Sound.turned {epoch : Int} (h : m.Sound epoch) (kicked : List (Address × Int))
    (vs : List Address) : (m.turned kicked vs).Sound epoch := by
  refine ⟨?_, h.count⟩
  intro k v hv
  have hv : (kickAll m.ballots kicked).candidates k = some v := hv
  rw [kickAll_candidates] at hv
  split at hv
  · cases hv
  · exact h.candidate k v hv

/-- Sound candidates are counted one by one. -/
theorem Books.Sound.electable {epoch : Int} (h : m.Sound epoch) {n : Nat}
    (hn : Electable m.ballots.candidates n) {es} (hes : Entries m.ballots.candidates (fun _ => True) es) :
    n = es.length := by
  obtain ⟨es', hes', rfl⟩ := hn
  obtain rfl := hes.unique hes'
  have hnodup : (es.map fun e => bytesToAddress e.2).Nodup := by
    refine hes.nodup_map fun a ha b hb heq => ?_
    obtain ⟨c, hc1, hc2⟩ := h.candidate a.1 a.2 ((hes.mem_iff a.1 a.2).mp ha).2
    obtain ⟨c', hc1', hc2'⟩ := h.candidate b.1 b.2 ((hes.mem_iff b.1 b.2).mp hb).2
    rw [hc2, hc2', bytesToAddress_bytes, bytesToAddress_bytes] at heq
    rw [hc1, hc1', heq]
  rw [hnodup.dedup, length_map]

section
variable [Crypto] {ts first epoch : Int} {judges : Prop} {m : Books}

theorem length_kickedOut_le (need : List (Address × Int)) (count : Nat) :
    (kickedOut need count).length ≤ count - safeSize := by
  unfold kickedOut
  rw [length_take]
  omega

/-- A kickout leaves enough candidates for the election. -/
theorem Books.Sound.safeSize_le (h : m.Sound epoch) {es}
    (hes : Entries m.ballots.candidates (fun _ => True) es) (hsize : safeSize ≤ es.length)
    {kicked : List (Address × Int)} (hk : Kicks ts first epoch judges m kicked) {c : Nat}
    (hc : Electable (kickAll m.ballots kicked).candidates c) : safeSize ≤ c := by
  obtain ⟨es', hes', hlen⟩ := hc
  have hcount : c = es'.length := (h.turned kicked []).electable ⟨es', hes', hlen⟩ hes'
  have hlost : es.length ≤ es'.length + (kicked.map (·.1.bytes)).length := by
    refine hes.length_le hes' _ fun k v _ hv => ?_
    by_cases hkick : k ∈ kicked.map (·.1.bytes)
    · exact .inr hkick
    · exact .inl ⟨v, trivial, by rw [kickAll_candidates, if_neg hkick, hv]⟩
  rw [length_map] at hlost
  have hkicked : kicked.length ≤ es.length - safeSize := by
    rcases hk with ⟨_, vs, need, es1, _, _, _, hes1, rfl⟩ | ⟨_, rfl⟩
    · rw [hes.unique hes1]
      exact length_kickedOut_le need _
    · exact Nat.zero_le _
  omega

/-- With enough candidates and someone to judge, a turn goes through. -/
theorem Books.Sound.not_stuck (h : m.Sound epoch) {es}
    (hes : Entries m.ballots.candidates (fun _ => True) es) (hsize : safeSize ≤ es.length)
    (hj : judges → ∃ vs, validatorsOf m.epoch = some vs ∧ vs ≠ []) : ¬ Stuck ts first epoch judges m := by
  intro hstuck
  rcases hstuck with ⟨hjudge, hno⟩ | ⟨kicked, c, hk, hc, hfew⟩
  · obtain ⟨vs, hvs, hne⟩ := hj hjudge
    obtain ⟨need, hneed⟩ := exists_needOf (minBlocks ts first) h.count vs
    exact hno ⟨_, vs, need, es, hvs, hne, hneed, hes, rfl⟩
  · exact absurd (h.safeSize_le hes hsize hk hc) (Nat.not_le_of_lt hfew)

variable [Rand] (balance : Address → Int) (parentHash : Hash) (ts first) {isGenesis : Bool}

/-- **An election over enough candidates succeeds**, however many epochs it spans. -/
theorem Keeping.electLoop_ok (n : Nat) :
    ∀ {d : DposContext} {m : Books} {iter : LeafIterator} {left : List Bytes} {es} (i : Int),
      Keeping d m → m.Sound epoch → (isGenesis = true ∨ iter.Yields m.mintDb left) →
      Entries m.ballots.candidates (fun _ => True) es → safeSize ≤ es.length →
      (isGenesis = false ∧ left ≠ [] → ∃ vs, validatorsOf m.epoch = some vs ∧ vs ≠ []) →
      ∃ d', electLoop balance ts first epoch isGenesis parentHash n i iter d = .ok () d' := by
  induction n with
  | zero => intro d m iter left es i _ _ _ _ _ _; exact ⟨d, rfl⟩
  | succ n ih =>
    intro d m iter left es i h hs hy hes hsize hj
    rcases h.turn balance parentHash ts first epoch hy n i with
      ⟨_, hstuck⟩ | ⟨kicked, c, vs, iter', d1, _, hc, hmany, heq, h1, hy', _, hlen, _⟩
    · exact absurd hstuck (hs.not_stuck hes hsize hj)
    · rw [heq]
      obtain ⟨es', hes', hcount⟩ := hc
      have hes'' : Entries (m.turned kicked vs).ballots.candidates (fun _ => True) es' := hes'
      have hsize' : safeSize ≤ es'.length := by
        rw [← (hs.turned kicked vs).electable ⟨es', hes', hcount⟩ hes'']
        exact hmany
      refine ih (i + 1) h1 (hs.turned kicked vs) hy' hes'' hsize' fun _ => ⟨vs, ?_, ?_⟩
      · exact validatorsOf_elected (by omega)
      · intro hnil
        rw [hnil, length_nil] at hlen
        unfold safeSize maxValidatorSize at *
        omega

end

end Bgmchain.Dpos
