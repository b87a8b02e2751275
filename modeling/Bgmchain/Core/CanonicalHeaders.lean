import Bgmchain.Core.Linked
import Bgmchain.Core.Sample

/-! # The canonical hashes follow the current header

`WriteHeader` deletes canonical hashes upwards to the first gap and rewrites them
downwards to the first that fits. Where the hashes were those of the current header and
its ancestors, both loops stop and the hashes are again those of the current header
and its ancestors, with nothing above. -/
namespace Bgmchain.Core
open Common Function List
open Dpos (predUint64)
open Lib.Lineage (Branch)

namespace Canonical

theorem get_eq_zero_iff {c : Canonical} {n : Nat} (h : c.hash? n ≠ some (.zero 32)) :
    c.get n = .zero 32 ↔ c.hash? n = none := by
  unfold get
  cases hn : c.hash? n with
  | none => simp
  | some x =>
    rw [hn] at h
    simpa using h

theorem deleteFrom_top (f i : Nat) (c : Canonical) : (c.deleteFrom f i).top = c.top := by
  induction f generalizing i c with
  | zero => rfl
  | succ f ih =>
    rw [deleteFrom]
    split
    · rfl
    · exact ih _ _

/-- The deleting loop, once it has come from `start` to `i`. -/
theorem deleteFrom_hash? {hashes : List Hash} (hne : .zero 32 ∉ hashes) (hlen : hashes.length < 2 ^ 64)
    {start : Nat} (f i : Nat) (c : Canonical) (hi : start ≤ i) (hf : hashes.length ≤ i + f)
    (h : ∀ n, c.hash? n = if start ≤ n ∧ n < i then none else hashes[n]?) (n : Nat) :
    (c.deleteFrom f i).hash? n = if start ≤ n then none else hashes[n]? := by
  have hdone : ∀ (i : Nat) (c : Canonical), (∀ n, c.hash? n = if start ≤ n ∧ n < i then none else hashes[n]?) →
      hashes.length ≤ i → c.hash? n = if start ≤ n then none else hashes[n]? := by
    intro i c h hle
    rw [h n]
    split
    next hcase =>
      rw [if_pos hcase.1]
    next hcase =>
      split
      · exact getElem?_eq_none (by omega)
      · rfl
  induction f generalizing i c with
  | zero => exact hdone i c h (by omega)
  | succ f ih =>
    have hci : c.hash? i = hashes[i]? := by rw [h i, if_neg (by omega)]
    have hzero : c.hash? i ≠ some (.zero 32) := by
      rw [hci]
      exact fun hget => hne (mem_of_getElem? hget)
    rw [deleteFrom]
    split
    next hget =>
      rw [get_eq_zero_iff hzero, hci, getElem?_eq_none_iff] at hget
      exact hdone i c h hget
    next hget =>
      rw [get_eq_zero_iff hzero, hci, getElem?_eq_none_iff, not_le] at hget
      rw [Nat.mod_eq_of_lt (by omega)]
      have hnext : ∀ n, (c.delete i).hash? n = if start ≤ n ∧ n < i + 1 then none else hashes[n]? := by
        intro n
        by_cases hn : n = i
        · subst hn
          rw [if_pos ⟨hi, by omega⟩]
          exact update_self ..
        · have hiff : (start ≤ n ∧ n < i + 1) ↔ (start ≤ n ∧ n < i) := by omega
          simp only [hiff]
          exact (update_of_ne hn ..).trans (h n)
      exact ih (i + 1) _ (by omega) (by omega) hnext

/-- The deleting loop clears everything from `start` on, and stops. -/
theorem Follows.deleteFrom {c : Canonical} {hashes : List Hash} (h : c.Follows hashes)
    (hne : .zero 32 ∉ hashes) (hlen : hashes.length < 2 ^ 64) (start extra : Nat) :
    (c.deleteFrom (c.top + 1 + extra) start).Follows (hashes.take start) := by
  intro n
  have hle := h.length_le
  rw [deleteFrom_hash? hne hlen (c.top + 1 + extra) start c le_rfl (by omega)
    (fun n => by rw [if_neg (by omega)]; exact h n) n, getElem?_take]
  by_cases hn : start ≤ n
  · rw [if_pos hn, if_neg (by omega)]
  · rw [if_neg hn, if_pos (by omega)]

end Canonical

section
variable [Crypto]

/-- The ancestors of a header, from the genesis up. -/
abbrev HeaderBranch (hc : HeaderChain) : Hash → Nat → List Header → Prop := Branch hc.headers (·.parentHash)

/-- The headers of the database, with their ancestors and total difficulties. -/
abbrev HeaderChain.Linked (hc : HeaderChain) : Prop := Core.Linked (fun header => header) hc.headers hc.tds

/-- A header that can be written. -/
abbrev HeaderChain.Writable (hc : HeaderChain) (header : Header) : Prop := Core.Writable (fun header => header) hc.headers header

/-- **The canonical hashes are those of the current header and its ancestors**, from
number zero to its own, and there is none above. -/
def HeaderChain.OnLine (hc : HeaderChain) : Prop :=
  ∃ l, HeaderBranch hc hc.currentHeader.hash (uint64 hc.currentHeader.number) l ∧
    hc.canonical.Follows (l.map Header.hash)

namespace HeaderChain

variable {hc : HeaderChain} {l : List Header}

/-- The rewriting loop: the branch replaces what was there, down to where it was
already there. -/
theorem makeCanonical_branch (h : hc.Linked) {k : Hash} {n : Nat}
    (hb : HeaderBranch hc k n l) {c : Canonical} (hroot : c.get 0 = (l.map Header.hash)[0]?.getD (.zero 32))
    (hagree : ∀ m ≤ n, some (c.get m) = (l.map Header.hash)[m]? →
      ∀ j ≤ m, c.hash? j = (l.map Header.hash)[j]?) {f : Nat} (hf : n < f) :
    ∃ c', hc.makeCanonical f k n c = .ok c' ∧
      ∀ j, c'.hash? j = if j ≤ n then (l.map Header.hash)[j]? else c.hash? j := by
  induction hb generalizing c f with
  | @root k x hx =>
    obtain _ | f := f
    · omega
    have hk : c.get 0 = k := by rw [hroot, ← (h.keyed hx).1]; rfl
    refine ⟨c, ?_, ?_⟩
    · rw [HeaderChain.makeCanonical, if_pos hk]
    · intro j
      split
      next hj =>
        exact hagree 0 (Nat.le_refl 0) (by rw [hroot]; rfl) j hj
      · rfl
  | @step k n x l hx hb ih =>
    have hlen := hb.length
    obtain _ | f := f
    · omega
    have htop : (map Header.hash (l ++ [x]))[n + 1]? = some k := by
      rw [getElem?_map, ← hlen, getElem?_concat_length, Option.map_some, (h.keyed hx).1]
    have hlow : ∀ j ≤ n, (map Header.hash (l ++ [x]))[j]? = (l.map Header.hash)[j]? := by
      intro j hj
      rw [map_append, getElem?_append_left (by rw [length_map]; omega)]
    rw [HeaderChain.makeCanonical]
    by_cases hk : c.get (n + 1) = k
    · refine ⟨c, by rw [if_pos hk], ?_⟩
      intro j
      split
      next hj =>
        exact hagree (n + 1) le_rfl (by rw [hk, htop]) j hj
      · rfl
    · rw [if_neg hk]
      have hpred : predUint64 (uint64 x.number) = n := by
        have := h.number_lt hx
        rw [(h.keyed hx).2, predUint64]
        omega
      have hget : ∀ m ≤ n, (c.write k (n + 1)).get m = c.get m :=
        fun m hm => c.get_write_of_ne k (by omega)
      have hhash : ∀ m, m ≠ n + 1 → (c.write k (n + 1)).hash? m = c.hash? m :=
        fun m hm => update_of_ne hm ..
      obtain ⟨c', hok, hc'⟩ := ih (c := c.write k (n + 1)) (f := f)
        (by rw [hget 0 (Nat.zero_le n), hroot, hlow 0 (Nat.zero_le n)])
        (by
          intro m hm hmk j hj
          rw [hget m hm, ← hlow m hm] at hmk
          rw [hhash j (by omega), ← hlow j (by omega)]
          exact hagree m (by omega) hmk j hj)
        (by omega)
      refine ⟨c', ?_, ?_⟩
      · rw [show hc.getHeader k (n + 1) = some x from hx]
        simp only [hpred]
        exact hok
      · intro j
        rw [hc' j]
        rcases Nat.lt_trichotomy j (n + 1) with hj | hj | hj
        · rw [if_pos (by omega), if_pos (by omega), hlow j (by omega)]
        · subst hj
          rw [if_neg (by omega), if_pos le_rfl, htop]
          exact update_self ..
        · rw [if_neg (by omega), if_neg (by omega), hhash j (by omega)]

/-- Two branches that share a canonical hash share all below it. -/
theorem Linked.agree (h : hc.Linked) {k k' : Hash} {n n' : Nat} {l' : List Header}
    (hb : HeaderBranch hc k n l) (hb' : HeaderBranch hc k' n' l') {c : Canonical} {start : Nat}
    (hc : c.Follows ((l.map Header.hash).take start)) {m : Nat} (hm : m < start)
    (heq : some (c.get m) = (l'.map Header.hash)[m]?) {j : Nat} (hj : j ≤ m) :
    c.hash? j = (l'.map Header.hash)[j]? := by
  rw [hc j, getElem?_take_of_lt (by omega)]
  rw [hc.get, getElem?_take_of_lt hm] at heq
  cases hx : l[m]? with
  | none =>
    rw [getElem?_map, hx] at heq
    exact absurd (mem_of_getElem? heq.symm) (h.zero_notMem hb')
  | some x =>
    cases hx' : l'[m]? with
    | none => simp [hx, hx'] at heq
    | some x' =>
      simp only [getElem?_map, hx, hx', Option.map_some, Option.getD_some, Option.some.injEq] at heq
      rw [getElem?_map, getElem?_map, hb.getElem?_eq h.keys hb' hx hx' heq hj]

variable {header : Header}

/-- The canonical hashes once a header has been chosen for head. -/
theorem Linked.rewired (h : hc.Linked) {k : Hash} {n n' : Nat} {l' : List Header}
    (hb : HeaderBranch hc k n l) (hfollows : hc.canonical.Follows (l.map Header.hash))
    (hnum : uint64 header.number = n' + 1) (hlt : uint64 header.number < 2 ^ 64 - 1)
    (hb' : HeaderBranch hc header.parentHash n' l') : ∃ c, hc.rewired header = .ok c ∧
      (c.write header.hash (uint64 header.number)).Follows ((l' ++ [header]).map Header.hash) := by
  have hlen := hb.length
  have hlen' := hb'.length
  have hbound := (h.top hb).1
  have hdel := hfollows.deleteFrom (h.zero_notMem hb) (by rw [length_map]; omega)
    (uint64 header.number + 1) 0
  generalize hD : hc.canonical.deleteFrom (hc.canonical.top + 1 + 0) (uint64 header.number + 1) = D at hdel
  have hroot : D.get 0 = (l'.map Header.hash)[0]?.getD (.zero 32) := by
    rw [hdel.get, getElem?_take_of_lt (by omega), getElem?_map, getElem?_map, h.root_eq hb hb']
  obtain ⟨c, hok, hc⟩ := makeCanonical_branch h hb' hroot
    (fun m hm heq j hj => h.agree hb hb' hdel (by omega) heq hj) (show n' < uint64 header.number + 2 by omega)
  refine ⟨c, ?_, ?_⟩
  · have hstart : (uint64 header.number + 1) % 2 ^ 64 = uint64 header.number + 1 := Nat.mod_eq_of_lt (by omega)
    have hpred : predUint64 (uint64 header.number) = n' := by
      unfold predUint64
      omega
    rw [HeaderChain.rewired, hpred, hstart]
    exact hD ▸ hok
  · intro j
    rw [map_append]
    rcases Nat.lt_trichotomy j (uint64 header.number) with hj | hj | hj
    · rw [getElem?_append_left (by rw [length_map]; omega)]
      refine (update_of_ne (by omega) ..).trans ?_
      rw [hc j, if_pos (by omega)]
    · subst hj
      rw [getElem?_append_right (by rw [length_map]; omega), length_map, hnum, hlen', Nat.sub_self]
      exact update_self ..
    · rw [getElem?_eq_none (by simp; omega)]
      refine (update_of_ne (by omega) ..).trans ?_
      rw [hc j, if_neg (by omega), hdel j, getElem?_take, if_neg (by omega)]

/-- **One call of `WriteHeader`** on a chain whose canonical hashes follow the current
header succeeds and leaves such a chain. -/
theorem Linked.writeHeader (h : hc.Linked) (hline : hc.OnLine) (hw : hc.Writable header) (coin : Bool) :
    ∃ status hc', hc.writeHeader coin header = .ok (status, hc') ∧ hc'.Linked ∧ hc'.OnLine := by
  obtain ⟨l, hb, hfollows⟩ := hline
  obtain ⟨n', l', hnum, hpred, hb'⟩ := hw.branch h
  obtain ⟨ptd, hptd, _, htd, hencodable⟩ := hw.td h
  obtain ⟨_, x, hx⟩ := h.top hb
  obtain ⟨localTd, hlocal, _⟩ := h.td hx
  have hlinked : (hc.entered header (header.difficulty + ptd)).Linked := h.put hw htd
  by_cases hpref : prefers coin (header.difficulty + ptd) localTd = true
  · obtain ⟨c, hrewired, hcanonical⟩ :=
      hlinked.rewired (hb.mono hw.mono) hfollows hnum hw.number_lt (hb'.mono hw.mono)
    refine ⟨.canonStatTy, { hc.entered header (header.difficulty + ptd) with
        canonical := c.write header.hash (uint64 header.number), currentHeader := header },
      writeHeader_ok_iff.mpr ⟨ptd, localTd, hptd, hlocal, htd, hencodable, ?_⟩, hlinked, l' ++ [header],
      hw.put_branch hnum hb', hcanonical⟩
    rw [if_pos hpref]
    exact ⟨rfl, c, hrewired, rfl⟩
  · refine ⟨.sideStatTy, hc.entered header (header.difficulty + ptd),
      writeHeader_ok_iff.mpr ⟨ptd, localTd, hptd, hlocal, htd, hencodable, ?_⟩, hlinked, l, hb.mono hw.mono, hfollows⟩
    rw [if_neg hpref]
    exact ⟨rfl, rfl⟩

/-! ## Sequences of writes -/

/-- Headers written one after the other, each with its coin for the fork choice. -/
def writeHeaders (hc : HeaderChain) : List (Bool × Header) → Except Error HeaderChain
  | [] => .ok hc
  | (coin, header) :: rest =>
    match hc.writeHeader coin header with
    | .error e => .error e
    | .ok (_, hc') => hc'.writeHeaders rest

/-- Each header of a sequence can be written when its turn comes. -/
def AllWritable (hc : HeaderChain) : List (Bool × Header) → Prop
  | [] => True
  | (coin, header) :: rest =>
    hc.Writable header ∧ ∀ status hc', hc.writeHeader coin header = .ok (status, hc') → hc'.AllWritable rest

/-- **The canonical hashes follow the current header.** From a chain whose canonical
hashes are those of the current header and its ancestors, any headers with known
parents can be written in any order: after each call the canonical hashes are again those of
the current header and its ancestors, with none above, and both loops come to an end,
however often they may be repeated. -/
theorem writeHeaders_onLine {hc : HeaderChain} (h : hc.Linked) (hline : hc.OnLine)
    {steps : List (Bool × Header)} (hw : hc.AllWritable steps) (k : Nat) :
    ∃ hc', hc.writeHeaders (steps.take k) = .ok hc' ∧ hc'.OnLine ∧
      ∀ start extra, hc'.canonical.deleteFrom (hc'.canonical.top + 1 + extra) start =
        hc'.canonical.deleteFrom (hc'.canonical.top + 1) start := by
  have hstop : ∀ {hc : HeaderChain}, hc.Linked → hc.OnLine → ∀ start extra,
      hc.canonical.deleteFrom (hc.canonical.top + 1 + extra) start =
        hc.canonical.deleteFrom (hc.canonical.top + 1) start := by
    intro hc h hline start extra
    obtain ⟨l, hb, hfollows⟩ := hline
    have hlen : (l.map Header.hash).length < 2 ^ 64 := by
      have := (h.top hb).1
      rw [length_map, hb.length]
      omega
    have hclear := hfollows.deleteFrom (h.zero_notMem hb) hlen start
    exact (hclear extra).ext (hclear 0) (by rw [Canonical.deleteFrom_top, Canonical.deleteFrom_top])
  induction steps generalizing hc k with
  | nil => exact ⟨hc, by simp [writeHeaders], hline, hstop h hline⟩
  | cons step rest ih =>
    obtain ⟨coin, header⟩ := step
    cases k with
    | zero => exact ⟨hc, rfl, hline, hstop h hline⟩
    | succ k =>
      obtain ⟨status, hc1, hok, h1, hline1⟩ := h.writeHeader hline hw.1 coin
      obtain ⟨hc', hrun, hrest⟩ := ih h1 hline1 (hw.2 status hc1 hok) k
      refine ⟨hc', ?_, hrest⟩
      rw [take_succ_cons, writeHeaders, hok]
      exact hrun

theorem writeHeader_headers {hc' : HeaderChain} {coin : Bool} {status : WriteStatus}
    (h : hc.writeHeader coin header = .ok (status, hc')) : hc'.headers = put (fun header => header) hc.headers header := by
  obtain ⟨ptd, localTd, _, _, _, _, hrest⟩ := writeHeader_ok_iff.mp h
  split at hrest
  · obtain ⟨_, c, _, rfl⟩ := hrest
    rfl
  · obtain ⟨_, rfl⟩ := hrest
    rfl

end HeaderChain

end

/-! ## Two headers on a genesis -/

section
open Dpos.Sample Sample HeaderChain

theorem chainOf_headers (genesis : Header) (db : NodeDatabase) (h : Hash) (n : Nat) :
    (chainOf genesis db).hc.headers h n = if h = genesis.hash ∧ n = 0 then some genesis else none := rfl

theorem linked_genesis (genesis : Header) (hnum : uint64 genesis.number = 0) (hne : genesis.hash ≠ .zero 32)
    (htd : 0 ≤ genesis.difficulty) (db : NodeDatabase) :
    (chainOf genesis db).hc.Linked ∧ (chainOf genesis db).hc.OnLine := by
  have htds : (chainOf genesis db).hc.tds genesis.hash 0 = some genesis.difficulty := if_pos ⟨rfl, rfl⟩
  obtain ⟨hlinked, hbranch⟩ :=
    @linked_root _ _ (fun header => header) _ _ genesis hnum hne _ htd (chainOf_headers genesis db) htds
  refine ⟨hlinked, [genesis], hbranch, ?_⟩
  intro n
  cases n with
  | zero | succ n => rfl

/-- A header on the genesis, and another that replaces it. -/
def firstOfTwo : Header := header 1 10 (address 1) plainGenesis.hash

def secondOfTwo : Header := header 1 20 (address 2) plainGenesis.hash

theorem writeHeaders_onLine_two :
    ∃ hc', plainChain.hc.writeHeaders [(false, firstOfTwo), (true, secondOfTwo)] = .ok hc' ∧ hc'.OnLine := by
  obtain ⟨hlinked, hline⟩ := linked_genesis plainGenesis rfl (by decide +kernel) (by decide) nodes
  have hgenesis : plainChain.hc.headers plainGenesis.hash 0 = some plainGenesis := by
    rw [plainChain, chainOf_headers, if_pos ⟨rfl, rfl⟩]
  have hnone : ∀ h, plainChain.hc.headers h 1 = none := by
    intro h
    rw [plainChain, chainOf_headers, if_neg (by simp)]
  have hnum : uint64 firstOfTwo.number = 1 ∧ uint64 secondOfTwo.number = 1 := by decide
  have hpred : predUint64 1 = 0 := by simp [predUint64]
  have hfirst : plainChain.hc.Writable firstOfTwo := by
    refine ⟨⟨plainGenesis, ?_⟩, by decide +kernel, by decide, by decide +kernel, ?_⟩
    · rw [hnum.1, hpred]
      exact hgenesis
    · intro x hx
      rw [hnum.1, hnone] at hx
      cases hx
  have hne : secondOfTwo.hash ≠ firstOfTwo.hash := by decide +kernel
  have hwritable : plainChain.hc.AllWritable [(false, firstOfTwo), (true, secondOfTwo)] := by
    refine ⟨hfirst, fun status hc' hok => ⟨?_, fun _ _ _ => trivial⟩⟩
    have hheaders := writeHeader_headers hok
    refine ⟨⟨plainGenesis, ?_⟩, by decide +kernel, by decide, by decide +kernel, ?_⟩
    · rw [hheaders, hnum.2, hpred]
      exact hfirst.mono _ _ _ hgenesis
    · intro x hx
      rw [hheaders] at hx
      rcases put_eq_some hx with ⟨heq, _, _⟩ | hx
      · exact absurd heq hne
      · rw [hnum.2, hnone] at hx
        cases hx
  obtain ⟨hc', hrun, honline, _⟩ := writeHeaders_onLine hlinked hline hwritable 2
  exact ⟨hc', hrun, honline⟩

end

end Bgmchain.Core
