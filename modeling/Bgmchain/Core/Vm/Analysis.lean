import Bgmchain.Consensus.Dpos.Sample

/-! # Jump analysis

`core/vm/analysis.go`: the bit vector that marks the data of the push instructions, and
the check of a jump destination against it, which keeps one vector for the hash of each
code. -/
namespace Bgmchain.Vm
open Common Crypto List Function

/-- `bitvec`, a set bit for each byte of data. -/
abbrev Bitvec := List UInt8

/-- `0x80 >> (pos % 8)` -/
def bit (pos : Nat) : UInt8 := 0x80 >>> UInt8.ofNat (pos % 8)

/-- `0xFF >> (pos % 8)` -/
def upper (pos : Nat) : UInt8 := 0xFF >>> UInt8.ofNat (pos % 8)

namespace Bitvec

/-- `set`; none where the index is out of range. -/
def set (bits : Bitvec) (pos : Nat) : Option Bitvec :=
  if pos / 8 < bits.length then some (bits.modify (pos / 8) (· ||| bit pos)) else none

/-- `set8` -/
def set8 (bits : Bitvec) (pos : Nat) : Option Bitvec :=
  if pos / 8 + 1 < bits.length then
    some ((bits.modify (pos / 8) (· ||| upper pos)).modify (pos / 8 + 1) (· ||| ~~~upper pos))
  else none

/-- `codeSegment` -/
def codeSegment (bits : Bitvec) (pos : Nat) : Option Bool := bits[pos / 8]?.map (· &&& bit pos = 0)

/-- A loop of `codeBitmap` over the data of a push, by whole bytes or by single bits. -/
def mark (put : Bitvec → Nat → Option Bitvec) (width : Nat) : Nat → Bitvec → Nat → Option Bitvec
  | 0, bits, _ => some bits
  | n + 1, bits, pc => (put bits pc).bind (mark put width n · (pc + width))

/-- Both loops. -/
def markPush (n : Nat) (bits : Bitvec) (pc : Nat) : Option Bitvec :=
  (mark set8 8 (n / 8) bits pc).bind (mark set 1 (n % 8) · (pc + n / 8 * 8))

end Bitvec

/-- The number of bytes of data behind an instruction. -/
def pushSize (op : UInt8) : Nat := if 0x60 ≤ op ∧ op ≤ 0x7f then (op - 0x60 + 1).toNat else 0

/-- The loop of `codeBitmap` over the code. Every turn moves on, so the length of the code is fuel enough. -/
def bitmapLoop (code : Bytes) : Nat → Nat → Bitvec → Option Bitvec
  | 0, _, bits => some bits
  | fuel + 1, pc, bits =>
    match code[pc]? with
    | none => some bits
    | some op => (Bitvec.markPush (pushSize op) bits (pc + 1)).bind (bitmapLoop code fuel (pc + 1 + pushSize op))

/-- `codeBitmap`; none where it writes outside its bit vector. -/
def codeBitmap (code : Bytes) : Option Bitvec :=
  bitmapLoop code code.length 0 (replicate (code.length / 8 + 1 + 4) 0)

/-- `destinations` -/
abbrev Destinations := Hash → Option Bitvec

/-- `has`; none where an index is out of range. -/
def Destinations.has (d : Destinations) (codehash : Hash) (code : Bytes) (dest : Nat) : Option (Bool × Destinations) :=
  let udest := dest % 2 ^ 64
  if 2 ^ 62 ≤ dest then some (false, d)
  else
    match code[udest]? with
    | none => some (false, d)
    | some op => do
      let m ← (d codehash).or (codeBitmap code)
      let found ← if op = 0x5b then m.codeSegment udest else some false
      some (found, update d codehash (some m))

/-! ## Marking -/

namespace Bitvec
variable {put : Bitvec → Nat → Option Bitvec} {width : Nat}

/-- A position that is not marked. -/
def Clear (bits : Bitvec) (pos : Nat) : Prop := bits.getD (pos / 8) 0 &&& bit pos = 0

theorem clear_modify (bits : Bitvec) {i : Nat} (hi : i < bits.length) (m : UInt8) (q : Nat) :
    Clear (bits.modify i (· ||| m)) q ↔ bits.Clear q ∧ (i = q / 8 → m &&& bit q = 0) := by
  have hdistrib : ∀ x : UInt8, (x ||| m) &&& bit q = x &&& bit q ||| m &&& bit q := by
    intro x
    apply UInt8.toNat_inj.mp
    simp [Nat.and_or_distrib_right]
  simp only [Clear, getD_eq_getElem?_getD, getElem?_modify]
  by_cases h : i = q / 8
  · subst h
    simp [getElem?_eq_getElem hi, hdistrib]
  · simp [h]

theorem bit_and_bit : ∀ r s : Fin 8, bit r &&& bit s = 0 ↔ r ≠ s := by decide

theorem upper_and_bit : ∀ r s : Fin 8, (upper r &&& bit s = 0 ↔ s < r) ∧ (~~~upper r &&& bit s = 0 ↔ r ≤ s) := by decide

/-- What is put marks the positions from one on, and no others. -/
def Marks (put : Bitvec → Nat → Option Bitvec) (width : Nat) : Prop :=
  ∀ bits pos, (pos + width) / 8 < bits.length → ∃ bits', put bits pos = some bits' ∧ bits'.length = bits.length ∧
    ∀ q, bits'.Clear q ↔ bits.Clear q ∧ ¬ (pos ≤ q ∧ q < pos + width)

theorem marks_set : Marks set 1 := by
  intro bits pos h
  have hpos : pos / 8 < bits.length := by omega
  refine ⟨_, if_pos hpos, length_modify .., fun q => ?_⟩
  have hbit := bit_and_bit ⟨pos % 8, Nat.mod_lt _ (by decide)⟩ ⟨q % 8, Nat.mod_lt _ (by decide)⟩
  simp only [bit, Nat.mod_mod, ne_eq, Fin.mk.injEq] at hbit
  rw [clear_modify bits hpos, bit, bit, hbit]
  refine and_congr_right fun _ => ?_
  omega

theorem marks_set8 : Marks set8 8 := by
  intro bits pos h
  have hpos : pos / 8 + 1 < bits.length := by omega
  refine ⟨_, if_pos hpos, by simp, fun q => ?_⟩
  have hbit := upper_and_bit ⟨pos % 8, Nat.mod_lt _ (by decide)⟩ ⟨q % 8, Nat.mod_lt _ (by decide)⟩
  simp only [bit, upper, Nat.mod_mod, Fin.mk_lt_mk, Fin.mk_le_mk] at hbit
  rw [clear_modify _ (by simpa using hpos), clear_modify _ (by omega), bit, upper, hbit.1, hbit.2, and_assoc]
  refine and_congr_right fun _ => ?_
  omega

theorem Marks.seq (h : Marks put width) {put' : Bitvec → Nat → Option Bitvec} {width' : Nat} (h' : Marks put' width') :
    Marks (fun bits pc => (put bits pc).bind (put' · (pc + width))) (width + width') := by
  intro bits pc hlen
  obtain ⟨bits1, hput, hlen1, hmark1⟩ := h bits pc (by omega)
  obtain ⟨bits2, hput', hlen2, hmark2⟩ := h' bits1 (pc + width) (by rw [hlen1]; omega)
  refine ⟨bits2, Option.bind_eq_some_iff.mpr ⟨bits1, hput, hput'⟩, hlen2.trans hlen1, fun q => ?_⟩
  rw [hmark2, hmark1, and_assoc]
  refine and_congr_right fun _ => ?_
  omega

theorem Marks.mark (h : Marks put width) (n : Nat) : Marks (mark put width n) (n * width) := by
  induction n with
  | zero => exact fun bits pos _ => ⟨bits, rfl, rfl, fun q => by simp⟩
  | succ n ih =>
    rw [Nat.succ_mul, Nat.add_comm (n * width)]
    exact h.seq ih

theorem marks_push (n : Nat) : Marks (markPush n) n := by
  have h := (marks_set8.mark (n / 8)).seq (marks_set.mark (n % 8))
  rwa [Nat.mul_one, Nat.div_add_mod'] at h

end Bitvec

/-! ## Instructions -/

/-- Where the next instruction starts. -/
def next (code : Bytes) (pc : Nat) : Nat := pc + 1 + (code[pc]?).elim 0 pushSize

/-- Where an instruction starts when the code is decoded from the beginning. -/
def start (code : Bytes) (i : Nat) : Nat := (next code)^[i] 0

variable {code : Bytes}

theorem start_succ (i : Nat) : start code (i + 1) = next code (start code i) := iterate_succ_apply' ..

theorem start_strictMono : StrictMono (start code) := by
  refine strictMono_nat_of_lt_succ fun i => ?_
  rw [start_succ, next]
  omega

theorem pushSize_le (op : UInt8) : pushSize op ≤ 32 := by
  unfold pushSize
  split
  next h =>
    simp only [UInt8.le_iff_toNat_le, UInt8.toNat_add, UInt8.toNat_sub, UInt8.reduceToNat] at h ⊢
    omega
  · omega

/-- **The loop leaves unmarked what starts an instruction**, and stays in the bit vector. -/
theorem bitmapLoop_spec (fuel i : Nat) (bits : Bitvec) (hlen : bits.length = code.length / 8 + 1 + 4)
    (hfuel : code.length ≤ fuel + start code i)
    (hbits : ∀ q, bits.Clear q ↔ start code i ≤ q ∨ ∃ j, start code j = q) :
    ∃ bits', bitmapLoop code fuel (start code i) bits = some bits' ∧ bits'.length = code.length / 8 + 1 + 4 ∧
      ∀ q < code.length, (bits'.Clear q ↔ ∃ j, start code j = q) := by
  induction fuel generalizing i bits with
  | zero =>
    refine ⟨bits, rfl, hlen, fun q hq => (hbits q).trans (or_iff_right ?_)⟩
    omega
  | succ fuel ih =>
    rw [bitmapLoop]
    cases hop : code[start code i]? with
    | none =>
      have hend := getElem?_eq_none_iff.mp hop
      exact ⟨bits, rfl, hlen, fun q hq => (hbits q).trans (or_iff_right (by omega))⟩
    | some op =>
      obtain ⟨hpc, -⟩ := List.getElem?_eq_some_iff.mp hop
      have hsize := pushSize_le op
      have hnext : start code (i + 1) = start code i + 1 + pushSize op := by rw [start_succ, next, hop]; rfl
      obtain ⟨bits1, hmark, hlen1, hseg⟩ := Bitvec.marks_push (pushSize op) bits (start code i + 1) (by omega)
      have hmono : Monotone (start code) := start_strictMono.monotone
      obtain ⟨bits', hloop, hspec⟩ := ih (i + 1) bits1 (by omega) (by omega) fun q => by
        -- unmarked is what lies before the data or behind it
        have hout : ¬ (start code i + 1 ≤ q ∧ q < start code i + 1 + pushSize op) ↔
            q ≤ start code i ∨ start code (i + 1) ≤ q := by omega
        rw [hseg, hbits, hout]
        constructor
        · rintro ⟨hge | hj, hle | hge'⟩
          · exact .inr ⟨i, Nat.le_antisymm hge hle⟩
          · exact .inl hge'
          · exact .inr hj
          · exact .inl hge'
        · rintro (hge | ⟨j, rfl⟩)
          · exact ⟨.inl (by omega), .inr hge⟩
          · exact ⟨.inr ⟨j, rfl⟩, (Nat.lt_or_ge i j).elim (fun h => .inr (hmono h)) fun h => .inl (hmono h)⟩
      rw [hnext] at hloop
      exact ⟨bits', Option.bind_eq_some_iff.mpr ⟨bits1, hmark, hloop⟩, hspec⟩

theorem codeBitmap_spec (code : Bytes) : ∃ bits, codeBitmap code = some bits ∧
    ∀ q < code.length, ∃ b, bits.codeSegment q = some b ∧ (b = true ↔ ∃ i, start code i = q) := by
  obtain ⟨bits, hbits, hlen, hspec⟩ := bitmapLoop_spec code.length 0 (replicate _ 0) length_replicate (Nat.le_add_right ..) fun q => by
    rw [Bitvec.Clear, getD_eq_getElem?_getD, getElem?_replicate]
    split <;> simp [start]
  refine ⟨bits, hbits, fun q hq => ?_⟩
  have hin : q / 8 < bits.length := by omega
  refine ⟨_, by rw [Bitvec.codeSegment, getElem?_eq_getElem hin]; rfl, ?_⟩
  rw [← hspec q hq, Bitvec.Clear, getD_eq_getElem?_getD, getElem?_eq_getElem hin]
  exact decide_eq_true_iff

/-! ## Destinations -/

section
variable [Crypto]

/-- Lookups of destinations in codes, each under the hash of its code. -/
def Destinations.lookups : Destinations → List (Bytes × Nat) → Option Destinations :=
  foldlM fun d e => (d.has (keccak256 e.1) e.1 e.2).map (·.2)

/-- The vectors are those of codes among these. -/
def Destinations.Analysed (P : Set Bytes) (d : Destinations) : Prop :=
  ∀ h m, d h = some m → ∃ code ∈ P, h = keccak256 code ∧ codeBitmap code = some m

variable {P : Set Bytes} {d : Destinations}

theorem Destinations.Analysed.has (hP : NoCollision P) (h : d.Analysed P) (hcode : code ∈ P) (hlen : code.length ≤ 2 ^ 62)
    (dest : Nat) : ∃ found d', d.has (keccak256 code) code dest = some (found, d') ∧ d'.Analysed P ∧
      (found = true ↔ code[dest]? = some 0x5b ∧ ∃ i, start code i = dest) := by
  obtain ⟨bits, hbits, hspec⟩ := codeBitmap_spec code
  have hm : (d (keccak256 code)).or (codeBitmap code) = some bits := by
    cases hd : d (keccak256 code) with
    | none => exact hbits
    | some m =>
      obtain ⟨code', hcode', hhash, hm⟩ := h _ m hd
      obtain rfl := hP _ hcode _ hcode' hhash
      exact hm.symm.trans hbits
  unfold Destinations.has
  by_cases hbig : 2 ^ 62 ≤ dest
  · refine ⟨false, d, if_pos hbig, h, iff_of_false Bool.false_ne_true ?_⟩
    simp [getElem?_eq_none (hlen.trans hbig)]
  · have hdest : dest % 2 ^ 64 = dest := Nat.mod_eq_of_lt (by omega)
    simp only [if_neg hbig, hdest]
    cases hop : code[dest]? with
    | none => exact ⟨false, d, rfl, h, by simp⟩
    | some op =>
      obtain ⟨hlt, -⟩ := List.getElem?_eq_some_iff.mp hop
      obtain ⟨b, hb, hstart⟩ := hspec dest hlt
      have hkept : Destinations.Analysed P (update d (keccak256 code) (some bits)) := by
        intro k m hk
        by_cases hkey : k = keccak256 code
        · subst hkey
          rw [update_self] at hk
          exact ⟨code, hcode, rfl, hk ▸ hbits⟩
        · exact h k m (by rwa [update_of_ne hkey] at hk)
      by_cases hjump : op = 0x5b
      · refine ⟨b, _, by simp [hm, hjump, hb], hkept, ?_⟩
        rw [hjump, hstart, and_iff_right rfl]
      · refine ⟨false, _, by simp [hm, hjump], hkept, iff_of_false Bool.false_ne_true fun hf => ?_⟩
        exact hjump (Option.some.inj hf.1)

/-- **The analysis is exact**: after any lookups a destination is found exactly when it holds a
`JUMPDEST` that is an instruction and no data. -/
theorem has_iff (hP : NoCollision P) (hlen : ∀ code ∈ P, code.length ≤ 2 ^ 62) {earlier : List (Bytes × Nat)}
    (hearlier : ∀ e ∈ earlier, e.1 ∈ P) (hcode : code ∈ P) (dest : Nat) :
    ∃ d found d', Destinations.lookups (fun _ => none) earlier = some d ∧
      d.has (keccak256 code) code dest = some (found, d') ∧
      (found = true ↔ code[dest]? = some 0x5b ∧ ∃ i, start code i = dest) := by
  have hrun : ∀ d : Destinations, d.Analysed P → ∃ d', d.lookups earlier = some d' ∧ d'.Analysed P := by
    induction earlier with
    | nil => exact fun d hd => ⟨d, rfl, hd⟩
    | cons e earlier ih =>
      intro d hd
      have he := hearlier e mem_cons_self
      obtain ⟨found, d1, hhas, hd1, -⟩ := hd.has hP he (hlen _ he) e.2
      obtain ⟨d2, hrest, hd2⟩ := ih (fun e he => hearlier e (mem_cons_of_mem _ he)) d1 hd1
      refine ⟨d2, ?_, hd2⟩
      rw [Destinations.lookups, foldlM_cons, hhas]
      exact hrest
  obtain ⟨d, hd, ha⟩ := hrun (fun _ => none) nofun
  obtain ⟨found, d', hhas, -, hfound⟩ := ha.has hP hcode (hlen _ hcode) dest
  exact ⟨d, found, d', hd, hhas, hfound⟩

end

/-- A `PUSH1` whose data is a `JUMPDEST`, and one behind it. -/
def pushed : Bytes := [0x60, 0x5b, 0x5b]

open Dpos.Sample in
theorem has_pushed : ∃ d found d', Destinations.lookups (fun _ => none) [(pushed, 1)] = some d ∧
    d.has (keccak256 pushed) pushed 2 = some (found, d') ∧
    (found = true ↔ pushed[2]? = some 0x5b ∧ ∃ i, start pushed i = 2) :=
  has_iff (P := {pushed}) (fun _ ha _ hb _ => ha.trans hb.symm) (fun _ h => by rw [h]; decide)
    (fun _ he => by rw [mem_singleton.mp he]; rfl) rfl 2

end Bgmchain.Vm
