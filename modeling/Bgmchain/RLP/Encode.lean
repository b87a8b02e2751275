import Bgmchain.Common.Types
import Bgmchain.Lib.RlpHead

/-! # Writing RLP

`encbuf` of `rlp/encode.go`. Strings are written at once, but the size of a list is known
only at its end: its header is kept apart, with the place where it belongs, and put between
the strings at last. -/
namespace Bgmchain.RLP
open Common Lib List Tree BigEndian

/-- A tree of byte strings and lists: what an `interface{}` holds. -/
inductive Tree where
  | string (b : Bytes)
  | list (ts : List Tree)

mutual
/-- Induction over trees: a list with all its elements. -/
theorem Tree.induct {P : Tree → Prop} (hstring : ∀ b, P (.string b)) (hlist : ∀ ts, (∀ t ∈ ts, P t) → P (.list ts)) :
    ∀ t, P t
  | .string b => hstring b
  | .list ts => hlist ts (inductAll hstring hlist ts)

theorem Tree.inductAll {P : Tree → Prop} (hstring : ∀ b, P (.string b)) (hlist : ∀ ts, (∀ t ∈ ts, P t) → P (.list ts)) :
    ∀ ts : List Tree, ∀ t ∈ ts, P t
  | [], _, h => nomatch h
  | t :: ts, t', h =>
    (mem_cons.mp h).elim (fun heq => heq ▸ induct hstring hlist t) (inductAll hstring hlist ts t')
end

/-! ## Integers -/

/-- `putint` -/
def putint (i : Nat) : Bytes :=
  if i < 2 ^ 8 then encode 1 i
  else if i < 2 ^ 16 then encode 2 i
  else if i < 2 ^ 24 then encode 3 i
  else if i < 2 ^ 32 then encode 4 i
  else if i < 2 ^ 40 then encode 5 i
  else if i < 2 ^ 48 then encode 6 i
  else if i < 2 ^ 56 then encode 7 i
  else encode 8 i

/-- `intsize` -/
def intsize (i : Nat) : Nat := if i / 256 = 0 then 1 else intsize (i / 256) + 1
termination_by i

/-- `headsize` -/
def headsize (size : Nat) : Nat := if size < 56 then 1 else 1 + intsize size

/-- `puthead` -/
def puthead (smalltag largetag : Nat) (size : Nat) : Bytes :=
  if size < 56 then [UInt8.ofNat (smalltag + size)]
  else UInt8.ofNat (largetag + (putint size).length) :: putint size

theorem encode_eq_minimal {k i : Nat} (hlo : 256 ^ k ≤ i) (hhi : i < 256 ^ (k + 1)) :
    encode (k + 1) i = Rlp.minimal i := by
  have hhead : ∀ (k i : Nat), (encode (k + 1) i).head? = some (UInt8.ofNat (i / 256 ^ k)) := by
    intro k
    induction k with
    | zero => intro i; simp [encode]
    | succ k ih =>
      intro i
      rw [encode, List.head?_append, ih, Nat.div_div_eq_div_mul, Nat.pow_succ, Nat.mul_comm]
      rfl
  have hne : (encode (k + 1) i).head? ≠ some 0 := by
    rw [hhead]
    intro hzero
    have hpos : 0 < i / 256 ^ k := Nat.div_pos hlo (Nat.pow_pos (by omega))
    have hlt : i / 256 ^ k < 256 := Nat.div_lt_of_lt_mul (by rw [Nat.pow_succ] at hhi; exact hhi)
    have h0 : (UInt8.ofNat (i / 256 ^ k)).toNat = 0 := congrArg UInt8.toNat (Option.some.inj hzero)
    rw [UInt8.toNat_ofNat', Nat.mod_eq_of_lt hlt] at h0
    omega
  rw [← Rlp.minimal_decode hne, decode_encode_of_lt hhi]

theorem putint_eq {i : Nat} (h0 : i ≠ 0) (h : i < 2 ^ 64) : putint i = Rlp.minimal i := by
  unfold putint
  repeat' split
  all_goals exact encode_eq_minimal (by omega) (by omega)

theorem intsize_eq {i : Nat} (h0 : i ≠ 0) : intsize i = (Rlp.minimal i).length := by
  induction i using Nat.strongRecOn with
  | _ i ih =>
    have hdigits : Nat.digits 256 i = (i % 256) :: Nat.digits 256 (i / 256) := Nat.digits_def' (by omega) (by omega)
    rw [intsize]
    split
    next hz =>
      simp [Rlp.minimal, hdigits, hz]
    next hnz =>
      rw [ih (i / 256) (Nat.div_lt_self (by omega) (by omega)) hnz]
      simp [Rlp.minimal, hdigits]

theorem puthead_eq {off size : Nat} (h : size < 2 ^ 64) : puthead off (off + 55) size = Rlp.sizeHeader off size := by
  unfold puthead Rlp.sizeHeader
  split
  · rfl
  · rw [putint_eq (by omega) h]

theorem headsize_eq (off size : Nat) : headsize size = (Rlp.sizeHeader off size).length := by
  unfold headsize Rlp.sizeHeader
  split
  · rfl
  · rw [intsize_eq (by omega), length_cons, Nat.add_comm]

/-! ## The buffer -/

structure ListHead where
  offset : Nat
  size : Nat

structure Encbuf where
  str : Bytes
  lheads : List ListHead
  lhsize : Nat

namespace Encbuf

def empty : Encbuf := ⟨[], [], 0⟩

def size (w : Encbuf) : Nat := w.str.length + w.lhsize

/-- `w.str = append(w.str, b...)` -/
def append (w : Encbuf) (b : Bytes) : Encbuf := { w with str := w.str ++ b }

def encodeStringHeader (w : Encbuf) (size : Nat) : Encbuf := w.append (puthead 0x80 0xB7 size)

def encodeString (w : Encbuf) (b : Bytes) : Encbuf :=
  match b with
  | [c] => if c.toNat ≤ 0x7F then w.append [c] else (w.encodeStringHeader 1).append [c]
  | b => (w.encodeStringHeader b.length).append b

/-- `list`. The header that it returns is the last one. -/
def list (w : Encbuf) : Encbuf := { w with lheads := w.lheads ++ [⟨w.str.length, w.lhsize⟩] }

/-- `listEnd` of the header at an index. -/
def listEnd (w : Encbuf) (lh : Nat) : Encbuf :=
  match w.lheads[lh]? with
  | none => w
  | some head =>
    let size := w.size - head.offset - head.size
    { w with
      lheads := w.lheads.set lh { head with size := size }
      lhsize := w.lhsize + if size < 56 then 1 else 1 + intsize size }

/-- The loop of `toBytes`. -/
def render (str : Bytes) : Nat → List ListHead → Bytes
  | strpos, [] => str.drop strpos
  | strpos, head :: heads =>
    let piece := (str.drop strpos).take (head.offset - strpos)
    piece ++ puthead 0xC0 0xF7 head.size ++ render str (strpos + piece.length) heads

/-- `toBytes`. That its buffer has the right length is `length_toBytes`. -/
def toBytes (w : Encbuf) : Bytes := render w.str 0 w.lheads

end Encbuf

/-! ## Writing a tree -/

mutual
/-- `writeInterface`, `writeBytes` and the writer of a slice. -/
def Tree.write : Tree → Encbuf → Encbuf
  | .string b, w => w.encodeString b
  | .list ts, w => (writeAll ts w.list).listEnd w.lheads.length

def Tree.writeAll : List Tree → Encbuf → Encbuf
  | [], w => w
  | t :: ts, w => writeAll ts (t.write w)
end

/-- `EncodeToBytes` -/
def encodeToBytes (t : Tree) : Bytes := (t.write .empty).toBytes

/-! ## The format -/

mutual
/-- The bytes of a tree. -/
def Tree.encode : Tree → Bytes
  | .string b => Rlp.encodeString b
  | .list ts => Rlp.encodeList (encodeAll ts)

def Tree.encodeAll : List Tree → Bytes
  | [] => []
  | t :: ts => t.encode ++ encodeAll ts
end

mutual
/-- The bytes of the strings alone. -/
def Tree.flat : Tree → Bytes
  | .string b => Rlp.encodeString b
  | .list ts => flatAll ts

def Tree.flatAll : List Tree → Bytes
  | [] => []
  | t :: ts => t.flat ++ flatAll ts
end

mutual
/-- The headers of the lists, for strings that start at an offset. -/
def Tree.heads (off : Nat) : Tree → List ListHead
  | .string _ => []
  | .list ts => ⟨off, (encodeAll ts).length⟩ :: headsAll off ts

def Tree.headsAll (off : Nat) : List Tree → List ListHead
  | [] => []
  | t :: ts => t.heads off ++ headsAll (off + t.flat.length) ts
end

mutual
/-- The length of the headers. -/
def Tree.headBytes : Tree → Nat
  | .string _ => 0
  | .list ts => headsize (encodeAll ts).length + headBytesAll ts

def Tree.headBytesAll : List Tree → Nat
  | [] => 0
  | t :: ts => t.headBytes + headBytesAll ts
end

mutual
theorem Tree.length_encode : ∀ t : Tree, t.encode.length = t.flat.length + t.headBytes
  | .string b => by simp [encode, flat, headBytes]
  | .list ts => by
    have h := length_encodeAll ts
    rw [encode, Rlp.encodeList, length_append, ← headsize_eq, flat, headBytes]
    omega

theorem Tree.length_encodeAll : ∀ ts : List Tree, (encodeAll ts).length = (flatAll ts).length + headBytesAll ts
  | [] => rfl
  | t :: ts => by
    have h := t.length_encode
    have hs := length_encodeAll ts
    rw [encodeAll, length_append, flatAll, length_append, headBytesAll]
    omega
end

theorem Encbuf.encodeString_eq {w : Encbuf} {b : Bytes} (h : b.length < 2 ^ 64) :
    w.encodeString b = w.append (Rlp.encodeString b) := by
  have happend : ∀ a c : Bytes, (w.append a).append c = w.append (a ++ c) := by
    intro a c
    simp [Encbuf.append]
  match b, h with
  | [], _ => exact happend _ _
  | [c], _ =>
    unfold Encbuf.encodeString Rlp.encodeString Encbuf.encodeStringHeader
    dsimp only
    by_cases hc : c.toNat ≤ 0x7F
    · rw [if_pos hc, if_pos (by omega)]
    · rw [if_neg hc, if_neg (by omega), happend, puthead_eq (by omega)]
  | c :: d :: b, h =>
    show (w.append (puthead 0x80 0xB7 _)).append _ = w.append (Rlp.sizeHeader 0x80 _ ++ _)
    rw [happend, puthead_eq h]

mutual
/-- What writing a tree adds to the buffer. -/
theorem Tree.write_eq : ∀ (t : Tree) (w : Encbuf), t.encode.length < 2 ^ 64 →
    t.write w = ⟨w.str ++ t.flat, w.lheads ++ t.heads w.str.length, w.lhsize + t.headBytes⟩
  | .string b, w, h => by
    have hb : b.length < 2 ^ 64 := (Rlp.length_le_encodeString b).trans_lt h
    rw [write, Encbuf.encodeString_eq hb, flat, heads, headBytes]
    simp [Encbuf.append]
  | .list ts, w, h => by
    have hlen := length_encodeAll ts
    have hts : (encodeAll ts).length < 2 ^ 64 := (Rlp.length_le_encodeList _).trans_lt h
    rw [write, writeAll_eq ts w.list hts]
    unfold Encbuf.list Encbuf.listEnd Encbuf.size
    have hget : (w.lheads ++ [⟨w.str.length, w.lhsize⟩] ++ headsAll w.str.length ts)[w.lheads.length]? =
        some ⟨w.str.length, w.lhsize⟩ := by simp
    rw [hget]
    dsimp only
    have hsize : (w.str ++ flatAll ts).length + (w.lhsize + headBytesAll ts) - w.str.length - w.lhsize =
        (encodeAll ts).length := by
      rw [length_append]
      omega
    rw [hsize, flat, heads, headBytes]
    simp [headsize]
    omega

theorem Tree.writeAll_eq : ∀ (ts : List Tree) (w : Encbuf), (encodeAll ts).length < 2 ^ 64 →
    writeAll ts w = ⟨w.str ++ flatAll ts, w.lheads ++ headsAll w.str.length ts, w.lhsize + headBytesAll ts⟩
  | [], w, _ => by simp [writeAll, flatAll, headsAll, headBytesAll]
  | t :: ts, w, h => by
    rw [encodeAll, length_append] at h
    rw [writeAll, write_eq t w (by omega), writeAll_eq ts _ (by omega), flatAll, headsAll, headBytesAll]
    simp [Nat.add_assoc]
end

/-! ## Putting the headers in -/

mutual
theorem Tree.le_offset : ∀ (t : Tree) (off : Nat), ∀ head ∈ t.heads off, off ≤ head.offset
  | .string _, _, _, h => by cases h
  | .list ts, off, head, h => by
    rcases mem_cons.mp h with rfl | h
    · exact le_rfl
    · exact le_offsetAll ts off head h

theorem Tree.le_offsetAll : ∀ (ts : List Tree) (off : Nat), ∀ head ∈ headsAll off ts, off ≤ head.offset
  | [], _, _, h => by cases h
  | t :: ts, off, head, h => by
    rcases mem_append.mp h with h | h
    · exact t.le_offset off head h
    · exact (Nat.le_add_right _ _).trans (le_offsetAll ts _ head h)
end

/-- A string before all headers that are left. -/
theorem Encbuf.render_string {str s0 b rest : Bytes} (hstr : str = s0 ++ b ++ rest) {heads : List ListHead}
    (hle : ∀ head ∈ heads, s0.length + b.length ≤ head.offset) :
    Encbuf.render str s0.length heads = b ++ Encbuf.render str (s0.length + b.length) heads := by
  have hdrop : str.drop s0.length = b ++ str.drop (s0.length + b.length) := by
    rw [hstr, append_assoc, drop_left' rfl, ← append_assoc, drop_left' (by simp)]
  cases heads with
  | nil => exact hdrop
  | cons head heads =>
    have hoff := hle head mem_cons_self
    obtain ⟨d, hd⟩ : ∃ d, head.offset - s0.length = b.length + d := ⟨head.offset - s0.length - b.length, by omega⟩
    have hd' : head.offset - (s0.length + b.length) = d := by omega
    unfold Encbuf.render
    dsimp only
    rw [hdrop, hd, hd', take_length_add_append, length_append, ← Nat.add_assoc]
    simp only [append_assoc]

mutual
theorem Tree.render_eq : ∀ (t : Tree) {str s0 rest : Bytes} {heads : List ListHead}, str = s0 ++ t.flat ++ rest →
    t.encode.length < 2 ^ 64 → (∀ head ∈ heads, s0.length + t.flat.length ≤ head.offset) →
    Encbuf.render str s0.length (t.heads s0.length ++ heads) =
      t.encode ++ Encbuf.render str (s0.length + t.flat.length) heads
  | .string b, str, s0, rest, heads, hstr, _, hle => Encbuf.render_string hstr hle
  | .list ts, str, s0, rest, heads, hstr, hlen, hle => by
    have hts : (encodeAll ts).length < 2 ^ 64 := (Rlp.length_le_encodeList _).trans_lt hlen
    have hrest := renderAll_eq ts hstr hts hle
    rw [Tree.heads, cons_append, Encbuf.render]
    rw [Nat.sub_self, take_zero, length_nil, Nat.add_zero, hrest, puthead_eq hts, encode, Rlp.encodeList,
      flat]
    simp only [nil_append, append_assoc]

theorem Tree.renderAll_eq : ∀ (ts : List Tree) {str s0 rest : Bytes} {heads : List ListHead},
    str = s0 ++ flatAll ts ++ rest → (encodeAll ts).length < 2 ^ 64 →
    (∀ head ∈ heads, s0.length + (flatAll ts).length ≤ head.offset) →
    Encbuf.render str s0.length (headsAll s0.length ts ++ heads) =
      encodeAll ts ++ Encbuf.render str (s0.length + (flatAll ts).length) heads
  | [], str, s0, rest, heads, _, _, _ => by simp [headsAll, encodeAll, flatAll]
  | t :: ts, str, s0, rest, heads, hstr, hlen, hle => by
    rw [flatAll] at hstr hle
    rw [encodeAll, length_append] at hlen
    rw [length_append] at hle
    have hfirst : str = s0 ++ t.flat ++ (flatAll ts ++ rest) := by rw [hstr]; simp
    have hthen : str = (s0 ++ t.flat) ++ flatAll ts ++ rest := by rw [hstr]; simp
    have hoff : ∀ head ∈ headsAll (s0.length + t.flat.length) ts ++ heads, s0.length + t.flat.length ≤ head.offset := by
      intro head hmem
      rcases mem_append.mp hmem with hmem | hmem
      · exact le_offsetAll ts _ head hmem
      · have := hle head hmem
        omega
    have hlater : ∀ head ∈ heads, (s0 ++ t.flat).length + (flatAll ts).length ≤ head.offset := by
      intro head hmem
      have := hle head hmem
      rw [length_append]
      omega
    have hts := renderAll_eq ts hthen (by omega) hlater
    rw [length_append] at hts
    rw [headsAll, append_assoc, render_eq t hfirst (by omega) hoff, hts, encodeAll, flatAll,
      length_append]
    simp only [append_assoc, Nat.add_assoc]
end

/-- **The headers end up where they belong**, so that the bytes are those of the format. -/
theorem encodeToBytes_eq {t : Tree} (h : t.encode.length < 2 ^ 64) : encodeToBytes t = t.encode := by
  have hrender : Encbuf.render t.flat ([] : Bytes).length (t.heads ([] : Bytes).length ++ []) =
      t.encode ++ Encbuf.render t.flat (([] : Bytes).length + t.flat.length) [] :=
    t.render_eq (append_nil t.flat).symm h nofun
  unfold encodeToBytes Encbuf.toBytes
  rw [t.write_eq _ h]
  simpa [Encbuf.empty, Encbuf.render] using hrender

end Bgmchain.RLP
