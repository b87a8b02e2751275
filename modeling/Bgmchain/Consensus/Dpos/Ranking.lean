import Bgmchain.Consensus.Dpos.Rounds
import Bgmchain.Consensus.Dpos.Sample

/-! # The order of the candidates

`sortableAddresses.Less` compares weights and then the texts of the addresses, with their checksum
capitals. Different addresses have different texts, so no two candidates of a vote map are equal in
this order: whichever way the map is read and sorted, the ranking is the same. -/
namespace Bgmchain.Dpos
open Common List

/-! ## Addresses by their texts -/

/-- A hexadecimal digit with its capital taken away. -/
def uncapital (c : UInt8) : UInt8 := if 64 < c.toNat ∧ c.toNat < 71 then c + 32 else c

theorem uncapital_checksumDigit (hashDigit : Nat) {n : Nat} (hn : n < 16) :
    uncapital (checksumDigit hashDigit (hexDigit n)) = hexDigit n := by
  have hboth : ∀ m : Fin 16, uncapital (hexDigit m) = hexDigit m ∧
      (57 < (hexDigit m).toNat → uncapital (hexDigit m - 32) = hexDigit m) := by decide
  obtain ⟨hlow, hcap⟩ := hboth ⟨n, hn⟩
  unfold checksumDigit
  split
  next h => exact hcap h.1
  · exact hlow

theorem hexDigit_inj {m n : Nat} (hm : m < 16) (hn : n < 16) (h : hexDigit m = hexDigit n) : m = n := by
  have hinj : ∀ a b : Fin 16, hexDigit a = hexDigit b → a = b := by decide
  exact congrArg Fin.val (hinj ⟨m, hm⟩ ⟨n, hn⟩ h)

theorem mem_encodeHex {b : Bytes} {c : UInt8} (h : c ∈ encodeHex b) : ∃ n < 16, c = hexDigit n := by
  obtain ⟨x, -, hx⟩ := mem_flatMap.1 h
  have hlt := x.toNat_lt
  rcases mem_cons.1 hx with hx | hx
  · exact ⟨x.toNat / 16, by omega, hx⟩
  · exact ⟨x.toNat % 16, by omega, mem_singleton.1 hx⟩

theorem encodeHex_inj : ∀ {a b : Bytes}, encodeHex a = encodeHex b → a = b
  | [], [], _ => rfl
  | [], y :: ys, h | x :: xs, [], h => by cases h
  | x :: xs, y :: ys, h => by
    have hcons : ∀ (z : UInt8) (zs : Bytes), encodeHex (z :: zs) =
        hexDigit (z.toNat / 16) :: hexDigit (z.toNat % 16) :: encodeHex zs := fun _ _ => rfl
    rw [hcons, hcons, List.cons.injEq, List.cons.injEq] at h
    obtain ⟨hhigh, hlow, hrest⟩ := h
    have hx := x.toNat_lt
    have hy := y.toNat_lt
    have hdiv := hexDigit_inj (by omega) (by omega) hhigh
    have hmod := hexDigit_inj (by omega) (by omega) hlow
    have hxy : x = y := UInt8.toNat_inj.1 (by omega)
    rw [hxy, encodeHex_inj hrest]

/-- Without the capitals, the text of an address is its digits. -/
theorem map_uncapital {digits : List Nat} {text : Bytes} (hlen : text.length ≤ digits.length)
    (h : ∀ c ∈ text, ∃ n < 16, c = hexDigit n) :
    (List.zipWith checksumDigit digits text).map uncapital = text := by
  induction text generalizing digits with
  | nil => simp
  | cons c text ih =>
    cases digits with
    | nil => simp at hlen
    | cons digit digits =>
      obtain ⟨n, hn, rfl⟩ := h c mem_cons_self
      simp only [zipWith_cons_cons, map_cons, uncapital_checksumDigit digit hn]
      rw [ih (by simpa using hlen) fun c hc => h c (mem_cons_of_mem _ hc)]

theorem length_hexDigits (b : Bytes) : (hexDigits b).length = 2 * b.length := by
  unfold hexDigits
  rw [length_flatMap]
  simp [Nat.mul_comm]

theorem length_encodeHex (b : Bytes) : (encodeHex b).length = 2 * b.length := by
  unfold encodeHex
  rw [length_flatMap]
  simp [Nat.mul_comm]

section
variable [Crypto]

/-- **Different addresses have different texts**, whatever the hash is. -/
theorem hex_inj {a b : Address} (h : a.hex = b.hex) : a = b := by
  have hplain : ∀ c : Address, ((c.hex).drop 2).map uncapital = encodeHex c.bytes := by
    intro c
    have hdrop : (c.hex).drop 2 =
        List.zipWith checksumDigit (hexDigits (Crypto.keccak256 (encodeHex c.bytes)).bytes) (encodeHex c.bytes) := rfl
    rw [hdrop]
    refine map_uncapital ?_ fun _ => mem_encodeHex
    rw [length_encodeHex, length_hexDigits, c.length_eq, FixedBytes.length_eq]
    decide
  apply FixedBytes.ext
  apply encodeHex_inj
  rw [← hplain a, ← hplain b, h]

/-! ## The ranking -/

/-- A candidate comes before another one, or is it. -/
def Ranked (p q : Address × Int) : Prop := less q p = false

variable {p q : Address × Int}

theorem ranked_iff : Ranked p q ↔ q.2 < p.2 ∨ (p.2 = q.2 ∧ p.1.hex ≤ q.1.hex) := by
  unfold Ranked less
  rcases Int.lt_trichotomy q.2 p.2 with h | h | h
  · simp [h]
  · have hle : ¬ q.1.hex < p.1.hex ↔ p.1.hex ≤ q.1.hex := Iff.rfl
    simp [h, hle]
  · have hne : p.2 ≠ q.2 := by omega
    simp [h, hne]

theorem Ranked.total (p q : Address × Int) : Ranked p q ∨ Ranked q p := by
  rw [ranked_iff, ranked_iff]
  rcases Int.lt_trichotomy q.2 p.2 with h | h | h
  · exact .inl (.inl h)
  · rcases List.le_total p.1.hex q.1.hex with hle | hle
    · exact .inl (.inr ⟨h.symm, hle⟩)
    · exact .inr (.inr ⟨h, hle⟩)
  · exact .inr (.inl h)

theorem Ranked.trans {r : Address × Int} (h : Ranked p q) (h' : Ranked q r) : Ranked p r := by
  rw [ranked_iff] at h h' ⊢
  rcases h with h | ⟨h, hle⟩
  · exact .inl (by omega)
  · rcases h' with h' | ⟨h', hle'⟩
    · exact .inl (by omega)
    · exact .inr ⟨h.trans h', List.le_trans hle hle'⟩

/-- Two candidates that are both before the other are one. -/
theorem Ranked.antisymm (h : Ranked p q) (h' : Ranked q p) : p = q := by
  rw [ranked_iff] at h h'
  have heq : p.2 = q.2 := by omega
  have hle := (h.resolve_left (by omega)).2
  have hle' := (h'.resolve_left (by omega)).2
  exact Prod.ext (hex_inj (List.le_antisymm hle hle')) heq

theorem not_less_iff : (!less q p) = true ↔ Ranked p q := by
  unfold Ranked
  rw [Bool.not_eq_true']

omit [Crypto] in
theorem insertionSort_pairwise {α : Type} {le : α → α → Bool} {R : α → α → Prop} (hle : ∀ p q, le p q = true ↔ R p q)
    (htotal : ∀ p q, R p q ∨ R q p) (htrans : ∀ {p q r}, R p q → R q r → R p r) (l : List α) :
    (l.insertionSort fun p q => le p q).Pairwise R := by
  obtain rfl : (fun p q => le p q = true) = R := funext₂ fun p q => propext (hle p q)
  have : Std.Total fun p q => le p q = true := ⟨htotal⟩
  have : IsTrans α fun p q => le p q = true := ⟨fun _ _ _ => htrans⟩
  exact pairwise_insertionSort _ l

/-- `sort.Sort` puts the candidates in the order of their rank. -/
theorem sortAddresses_ranked (votes : List (Address × Int)) : (sortAddresses votes).Pairwise Ranked :=
  insertionSort_pairwise (fun _ _ => not_less_iff) Ranked.total Ranked.trans votes

/-- `sort.Sort` of the reverse puts the last candidate first. -/
theorem sortReverse_ranked (votes : List (Address × Int)) : (sortReverse votes).Pairwise fun p q => Ranked q p :=
  insertionSort_pairwise (fun _ _ => not_less_iff) (fun p q => Ranked.total q p) (fun h h' => h'.trans h) votes

/-- There is only one way to sort. -/
theorem eq_sortAddresses {votes sorted : List (Address × Int)} (hperm : sorted.Perm votes)
    (hsorted : sorted.Pairwise Ranked) : sorted = sortAddresses votes := by
  refine List.Perm.eq_of_pairwise (fun p q _ _ => Ranked.antisymm) hsorted (sortAddresses_ranked votes) ?_
  exact hperm.trans (perm_insertionSort _ votes).symm

/-- Candidates with different addresses are ranked strictly. -/
theorem less_of_ranked (h : Ranked p q) (hne : p.1 ≠ q.1) : less p q = true := by
  cases hless : less p q with
  | true => rfl
  | false => exact absurd (congrArg Prod.fst (h.antisymm hless)) hne

theorem sortAddresses_strict {votes : Votes} (h : (votes.map (·.1)).Nodup) :
    (sortAddresses votes).Pairwise fun p q => less p q = true := by
  have hperm : ((sortAddresses votes).map (·.1)).Perm (votes.map (·.1)) := (perm_insertionSort _ votes).map _
  have hne : (sortAddresses votes).Pairwise fun p q => p.1 ≠ q.1 :=
    pairwise_map.1 (hperm.nodup_iff.2 h)
  exact ((sortAddresses_ranked votes).and hne).imp fun hpq => less_of_ranked hpq.1 hpq.2

/-! ## The validators of an epoch -/

variable [Rand]

omit [Crypto] [Common.Rand] in
/-- The validators read back after an election. -/
theorem getValidators_elected (d : DposContext) {vs : List Address} (h : vs.length ≤ maxValidatorSize) :
    ((({ d with epochTrie := .empty d.db epochPrefix } : DposContext).setValidators vs).getValidators).1 = .ok vs := by
  have hepoch := (Trie.holds_empty d.db epochPrefix).update DposContext.validatorKey (DposContext.encodeValidators_ne_nil vs)
  obtain ⟨t, hget, -⟩ := hepoch.get DposContext.validatorKey
  unfold DposContext.setValidators DposContext.getValidators
  rw [hget, Function.update_self]
  dsimp only [Option.getD]
  rw [decodeValidators_encode h]

/-- **The validators of one epoch** are the first candidates of the ranking, each once, in an order
that the seed determines. The ranking is strict, and there is one way to sort the candidates,
in whatever order the map gives them. -/
theorem electRound_exact (balance : Address → Int) (parentHash : Hash) (i : Int) {votes : Votes}
    (hkeys : (votes.map (·.1)).Nodup) (hsafe : safeSize ≤ votes.length) :
    (∀ d, countVotes balance d = .ok votes → ∃ d', electRound balance parentHash i d = .ok () d' ∧
      d'.getValidators.1 = .ok (electValidators parentHash i votes)) ∧
    (∀ order : Votes, order.Perm votes → electValidators parentHash i order = electValidators parentHash i votes) ∧
    (∀ sorted : Votes, sorted.Perm votes → sorted.Pairwise (fun p q => less q p = false) →
      sorted = sortAddresses votes) ∧ (sortAddresses votes).Pairwise (fun p q => less p q = true) ∧
    (electValidators parentHash i votes).Perm (((sortAddresses votes).take maxValidatorSize).map (·.1)) ∧
    (electValidators parentHash i votes).Nodup ∧
    (electValidators parentHash i votes).length = min votes.length maxValidatorSize := by
  have hcounts : votes.Counts (votes.map (·.1)) := ⟨hkeys, fun _ => Iff.rfl⟩
  obtain ⟨hnodup, -, hlen⟩ := electValidators_spec hcounts parentHash i
  have hfew : ¬ votes.length < safeSize := Nat.not_lt.2 hsafe
  refine ⟨?_, ?_, fun sorted => eq_sortAddresses, sortAddresses_strict hkeys, ?_, hnodup, ?_⟩
  · intro d hd
    refine ⟨_, by rw [electRound_eq, hd]; exact if_neg hfew, ?_⟩
    exact getValidators_elected d (by rw [hlen]; exact Nat.min_le_left _ _)
  · intro order hperm
    have hsort : sortAddresses order = sortAddresses votes :=
      eq_sortAddresses ((perm_insertionSort _ order).trans hperm) (sortAddresses_ranked order)
    unfold electValidators
    rw [hsort]
  · exact (shuffle_perm _ _ _).map _
  · rw [hlen, Nat.min_comm]

end

namespace Sample

/-- Three candidates, two of them with the same weight. -/
def threeVotes : Votes := [(address 2, 5), (address 1, 5), (address 3, 9)]

theorem electRound_exact_three :
    (electValidators (.zero 32) 7 threeVotes).Perm [address 3, address 1, address 2] := by
  have hkeys : (threeVotes.map (·.1)).Nodup := by decide
  have hexact := electRound_exact (fun _ => 0) (.zero 32) 7 hkeys (by decide)
  exact hexact.2.2.2.2.1

end Sample

end Bgmchain.Dpos
