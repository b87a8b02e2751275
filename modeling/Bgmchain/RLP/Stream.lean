import Bgmchain.Common.Types
import Bgmchain.Lib.RlpHead

/-! # The RLP input stream

`Stream` of `rlp/decode.go`, over an input that is all there, as `DecodeBytes` sets it up.
`Kind` looks ahead: it reads the header of the next item and keeps it until the item is
read. A stack holds the sizes of the lists that are open, and how much of each is read. -/
namespace Bgmchain.RLP
open Common Lib Rlp List BigEndian

/-- What decoding fails with. The type that an error of the decoder names is left out. -/
inductive Err where
  | eol
  | eof
  | unexpectedEOF
  | expectedString
  | expectedList
  | canonInt
  | canonSize
  | elemTooLarge
  | valueTooLarge
  | moreThanOneValue
  | notInList
  | notAtEOL
  | uintOverflow
  | invalidBool (n : Nat)
  | decode (msg : String) (ctx : List String)
  /-- not in the source: a loop of the model has run out of its turns -/
  | exhausted
deriving DecidableEq

/-- An error that says nothing about the end of a list, nor about turns. -/
def Err.Plain (e : Err) : Prop := e ≠ .eol ∧ e ≠ .exhausted

inductive Kind where
  | byte
  | string
  | list
deriving DecidableEq

structure ListPos where
  pos : Nat
  size : Nat
deriving DecidableEq

/-- `Stream`. Of the reader only what it has not yet delivered is left; `stack` has the
innermost list in front. Sizes stay below the length of the input, so that nothing of them
wraps around. -/
structure Stream where
  input : Bytes
  remaining : Nat
  limited : Bool
  kind : Option Kind
  size : Nat
  byteval : UInt8
  kinderr : Option Err
  stack : List ListPos

/-- A result, with the stream that is left. -/
abbrev Res (α : Type) := EStateM.Result Err Stream α

namespace Stream

/-- `NewStream` over a `bytes.Reader` with its length as limit. -/
def new (b : Bytes) : Stream := ⟨b, b.length, true, none, 0, 0, none, []⟩

/-- The end of `willRead`. -/
def spend (s : Stream) (n : Nat) : Res Unit :=
  if s.limited then
    if s.remaining < n then .error .valueTooLarge s
    else .ok () { s with remaining := s.remaining - n }
  else .ok () s

/-- `willRead` -/
def willRead (s : Stream) (n : Nat) : Res Unit :=
  match s.stack with
  | [] => spend { s with kind := none } n
  | tos :: stack =>
    if tos.size - tos.pos < n then .error .elemTooLarge { s with kind := none }
    else spend { s with kind := none, stack := { tos with pos := tos.pos + n } :: stack } n

def readByte (s : Stream) : Res UInt8 :=
  match s.willRead 1 with
  | .error e s => .error e s
  | .ok _ s =>
    match s.input with
    | [] => .error .unexpectedEOF s
    | b :: rest => .ok b { s with input := rest }

/-- `readFull` into a buffer of `n` bytes. -/
def readFull (s : Stream) (n : Nat) : Res Bytes :=
  match s.willRead n with
  | .error e s => .error e s
  | .ok _ s =>
    if s.input.length < n then .error .unexpectedEOF { s with input := [] }
    else .ok (s.input.take n) { s with input := s.input.drop n }

def readUint (s : Stream) (size : Nat) : Res Nat :=
  match size with
  | 0 => .ok 0 { s with kind := none }
  | 1 =>
    match s.readByte with
    | .error e s => .error e s
    | .ok b s => .ok b.toNat s
  | size + 2 =>
    match s.readFull (size + 2) with
    | .error e s => .error e s
    | .ok buf s => if buf.head? = some 0 then .error .canonSize s else .ok (decode buf) s

/-- A size behind a long header. -/
def readSize (s : Stream) (n : Nat) : (Nat × Option Err) × Stream :=
  match s.readUint n with
  | .error e s => ((0, some e), s)
  | .ok size s => ((size, if size < 56 then some .canonSize else none), s)

/-- The kind and size of a long header. -/
def ofSize (kind : Kind) (r : (Nat × Option Err) × Stream) : (Kind × Nat × Option Err) × Stream :=
  ((kind, r.1.1, r.1.2), r.2)

/-- `readKind`, which has a kind and a size also where it has an error. -/
def readKind (s : Stream) : (Kind × Nat × Option Err) × Stream :=
  match s.readByte with
  | .error e s =>
    let e := if s.stack = [] && (e = .unexpectedEOF || e = .valueTooLarge) then .eof else e
    ((.byte, 0, some e), s)
  | .ok b s =>
    if b.toNat < 0x80 then ((.byte, 0, none), { s with byteval := b })
    else if b.toNat < 0xB8 then ((.string, b.toNat - 0x80, none), { s with byteval := 0 })
    else if b.toNat < 0xC0 then
      ofSize .string (readSize { s with byteval := 0 } (b.toNat - 0xB7))
    else if b.toNat < 0xF8 then ((.list, b.toNat - 0xC0, none), { s with byteval := 0 })
    else
      ofSize .list (readSize { s with byteval := 0 } (b.toNat - 0xF7))

/-- The check of a size against what is left of the list, or of the input. -/
def sizeErr (s : Stream) (size : Nat) : Option Err :=
  match s.stack with
  | [] => if s.limited && s.remaining < size then some .valueTooLarge else none
  | tos :: _ => if tos.size - tos.pos < size then some .elemTooLarge else none

/-- The innermost list is read to its end. -/
def atEnd (s : Stream) : Bool := s.stack.head?.any fun tos => tos.pos = tos.size

/-- `Kind`, where no header has been read ahead. -/
def lookAhead (s : Stream) : Res (Kind × Nat) :=
  if s.atEnd then .error .eol { s with kinderr := none }
  else
    let ((kind, size, err), s) := readKind { s with kinderr := none }
    let err := err.or (s.sizeErr size)
    let s := { s with kind := some kind, size := size, kinderr := err }
    match err with
    | none => .ok (kind, size) s
    | some e => .error e s

/-- `Kind` -/
def nextKind (s : Stream) : Res (Kind × Nat) :=
  match s.kind with
  | none => s.lookAhead
  | some kind =>
    match s.kinderr with
    | none => .ok (kind, s.size) s
    | some e => .error e s

/-- `Bytes` -/
def bytes (s : Stream) : Res Bytes :=
  match s.nextKind with
  | .error e s => .error e s
  | .ok (.byte, _) s => .ok [s.byteval] { s with kind := none }
  | .ok (.string, size) s =>
    match s.readFull size with
    | .error e s => .error e s
    | .ok b s => if size = 1 && b.head?.any (·.toNat < 128) then .error .canonSize s else .ok b s
  | .ok (.list, _) s => .error .expectedString s

/-- `uint` -/
def uint (s : Stream) (maxbits : Nat) : Res Nat :=
  match s.nextKind with
  | .error e s => .error e s
  | .ok (.byte, _) s => if s.byteval = 0 then .error .canonInt s else .ok s.byteval.toNat { s with kind := none }
  | .ok (.string, size) s =>
    if maxbits / 8 < size then .error .uintOverflow s
    else
      match s.readUint size with
      | .error .canonSize s => .error .canonInt s
      | .error e s => .error e s
      | .ok v s => if 0 < size && v < 128 then .error .canonSize s else .ok v s
  | .ok (.list, _) s => .error .expectedString s

/-- `Bool` -/
def bool (s : Stream) : Res Bool :=
  match s.uint 8 with
  | .error e s => .error e s
  | .ok 0 s => .ok false s
  | .ok 1 s => .ok true s
  | .ok n s => .error (.invalidBool n) s

/-- `List` -/
def list (s : Stream) : Res Nat :=
  match s.nextKind with
  | .error e s => .error e s
  | .ok (.list, size) s => .ok size { s with stack := ⟨0, size⟩ :: s.stack, kind := none, size := 0 }
  | .ok (_, _) s => .error .expectedList s

/-- `ListEnd` -/
def listEnd (s : Stream) : Res Unit :=
  match s.stack with
  | [] => .error .notInList s
  | tos :: stack =>
    if tos.pos ≠ tos.size then .error .notAtEOL s
    else
      let outer := match stack with
        | [] => []
        | lp :: outer => { lp with pos := lp.pos + tos.size } :: outer
      .ok () { s with stack := outer, kind := none, size := 0 }

end Stream

/-! ## What is still to be read -/

def headKind : Head → Kind
  | .byte _ => .byte
  | .string _ => .string
  | .list _ => .list

/-- The sizes of the open lists fit what is still to be read: of the innermost, of the one
around it behind the innermost, and so on; last, of the input behind all lists. `inner` is
the size of the list inside, which the position does not yet count. -/
def Nested : Nat → List ListPos → List Bytes → Prop
  | _, [], us => us.length = 1
  | _, _ :: _, [] => False
  | inner, lp :: stack, u :: us => lp.pos + inner + u.length = lp.size ∧ Nested lp.size stack us

/-- A header that has been read ahead. -/
def Stream.Pending (s : Stream) : Option Head → Prop
  | none => s.kind = none
  | some hd =>
    s.kind = some (headKind hd) ∧ s.size = hd.size ∧ s.kinderr = none ∧
      match hd with
      | .byte b => s.byteval = b
      | _ => True

/-- A stream, by what is still to be read, and the header that has been read ahead. -/
structure Stream.Sees (s : Stream) (hd : Option Head) (u : Bytes) (us : List Bytes) : Prop where
  pending : s.Pending hd
  fits : ∀ h, hd = some h → h.size ≤ u.length
  input : s.input = u ++ us.flatten
  remaining : s.remaining = s.input.length
  limited : s.limited = true
  nested : Nested 0 s.stack (u :: us)

theorem Stream.sees_new (b : Bytes) : (Stream.new b).Sees none b [] :=
  ⟨rfl, nofun, by simp [Stream.new], rfl, rfl, rfl⟩

namespace Stream
variable {s s' : Stream} {hd : Option Head} {u : Bytes} {us : List Bytes} {n : Nat} {e : Err} {kind : Kind}

/-- Part of the innermost list is read. -/
theorem Sees.willRead (h : s.Sees hd u us) (n : Nat) : if n ≤ u.length then
      ∃ s1, s.willRead n = .ok () s1 ∧ s1.input = s.input ∧ s1.remaining = s.remaining - n ∧ s1.limited = true ∧
        s1.kind = none ∧ Nested 0 s1.stack (u.drop n :: us)
    else ∃ e s1, s.willRead n = .error e s1 ∧ e.Plain := by
  have hrem := h.remaining
  have hin := congrArg List.length h.input
  rw [length_append] at hin
  have hnested := h.nested
  unfold Stream.willRead
  cases hstack : s.stack with
  | nil =>
    rw [hstack] at hnested
    obtain rfl : us = [] := by simpa [Nested] using hnested
    rw [flatten_nil, length_nil] at hin
    split
    · unfold spend
      dsimp only
      rw [if_pos h.limited, if_neg (by omega)]
      exact ⟨_, rfl, rfl, rfl, h.limited, rfl, rfl⟩
    · unfold spend
      dsimp only
      rw [if_pos h.limited, if_pos (by omega)]
      exact ⟨_, _, rfl, nofun, nofun⟩
  | cons tos stack =>
    rw [hstack] at hnested
    obtain ⟨hpos, houter⟩ := hnested
    split
    · unfold spend
      dsimp only
      rw [if_neg (by omega), if_pos h.limited, if_neg (by omega)]
      refine ⟨_, rfl, rfl, rfl, h.limited, rfl, ?_, houter⟩
      dsimp only
      rw [length_drop]
      omega
    · dsimp only
      rw [if_pos (by omega)]
      exact ⟨_, _, rfl, nofun, nofun⟩

/-- So many bytes of the innermost list are read, if it has them. -/
theorem Sees.readFull (h : s.Sees hd u us) (hn : n ≤ u.length) :
    ∃ s', s.readFull n = .ok (u.take n) s' ∧ s'.Sees none (u.drop n) us := by
  have hread := h.willRead n
  rw [if_pos hn] at hread
  obtain ⟨s1, hwill, hin, hrem, hlim, hkind, hnested⟩ := hread
  have hlen := congrArg List.length h.input
  rw [length_append] at hlen
  unfold Stream.readFull
  rw [hwill]
  dsimp only
  rw [hin, h.input, if_neg (by rw [length_append]; omega), take_append_of_le_length hn, drop_append_of_le_length hn]
  refine ⟨_, rfl, hkind, nofun, rfl, ?_, hlim, hnested⟩
  rw [hrem, h.remaining, h.input, length_append, length_append, length_drop]
  omega

theorem Sees.readFull_error (h : s.Sees hd u us) (hn : u.length < n) :
    ∃ e s', s.readFull n = .error e s' ∧ e.Plain := by
  have hread := h.willRead n
  rw [if_neg (by omega)] at hread
  obtain ⟨e, s1, hwill, he⟩ := hread
  unfold Stream.readFull
  rw [hwill]
  exact ⟨e, s1, rfl, he⟩

/-- A byte is read as a buffer of length one. -/
theorem readByte_eq (s : Stream) : s.readByte = match s.readFull 1 with
    | .error e s => .error e s
    | .ok buf s => .ok (buf.headD 0) s := by
  unfold Stream.readByte Stream.readFull
  cases s.willRead 1 with
  | error e s => rfl
  | ok _ s =>
    obtain ⟨input, remaining, limited, kind, size, byteval, kinderr, stack⟩ := s
    cases input with
    | nil => rfl
    | cons b rest => simp

theorem Sees.readByte {b : UInt8} (h : s.Sees hd (b :: u) us) : ∃ s', s.readByte = .ok b s' ∧ s'.Sees none u us := by
  obtain ⟨s', hread, hs'⟩ := h.readFull (n := 1) (by simp)
  rw [readByte_eq, hread]
  exact ⟨s', rfl, hs'⟩

theorem Sees.readByte_error (h : s.Sees hd [] us) : ∃ e s', s.readByte = .error e s' ∧ e.Plain := by
  obtain ⟨e, s', hread, he⟩ := h.readFull_error (n := 1) (by simp)
  rw [readByte_eq, hread]
  exact ⟨e, s', rfl, he⟩

/-! ## Numbers -/

/-- The bytes of a number, without a zero in front unless there is only one. -/
theorem Sees.readUint {bs : Bytes} (h : s.Sees hd (bs ++ u) us) (hne : bs ≠ []) (hhead : bs.length = 1 ∨ bs.head? ≠ some 0) :
    ∃ s', s.readUint bs.length = .ok (decode bs) s' ∧ s'.Sees none u us := by
  match bs, hne with
  | [b], _ =>
    obtain ⟨s', hread, hs'⟩ := h.readByte
    unfold Stream.readUint
    simp only [length_singleton, hread]
    exact ⟨s', by simp [decode], hs'⟩
  | b :: c :: bs, _ =>
    obtain ⟨s', hread, hs'⟩ := h.readFull (n := (b :: c :: bs).length) (by simp)
    rw [take_left' rfl, drop_left' rfl] at *
    have hhead := hhead.resolve_left (by simp)
    refine ⟨s', ?_, hs'⟩
    unfold Stream.readUint
    simp only [length_cons] at hread ⊢
    rw [hread]
    dsimp only
    rw [if_neg hhead]

theorem Sees.readUint_spec (h : s.Sees hd u us) (hn : n ≠ 0) :
    match s.readUint n with
    | .ok v s' => ∃ bs rest, u = bs ++ rest ∧ bs.length = n ∧ (n = 1 ∨ bs.head? ≠ some 0) ∧ v = decode bs ∧
      s'.Sees none rest us
    | .error e _ => e.Plain := by
  obtain _ | _ | n := n
  · exact absurd rfl hn
  · rw [Stream.readUint]
    cases u with
    | nil =>
      obtain ⟨e, s1, herr, hne⟩ := h.readByte_error
      rw [herr]
      exact hne
    | cons b rest =>
      obtain ⟨s1, hok, hs1⟩ := h.readByte
      rw [hok]
      exact ⟨[b], rest, rfl, rfl, .inl rfl, by simp [decode], hs1⟩
  · rw [Stream.readUint]
    by_cases hlen : n + 2 ≤ u.length
    · obtain ⟨s1, hok, hs1⟩ := h.readFull hlen
      rw [hok]
      dsimp only
      by_cases hhead : (u.take (n + 2)).head? = some 0
      · rw [if_pos hhead]
        exact ⟨by simp, by simp⟩
      · rw [if_neg hhead]
        exact ⟨_, _, (take_append_drop _ u).symm, length_take_of_le hlen, .inr hhead, rfl, hs1⟩
    · obtain ⟨e, s1, herr, hne⟩ := h.readFull_error (n := n + 2) (by omega)
      rw [herr]
      exact hne

/-! ## Headers -/

theorem Sees.setByteval (h : s.Sees none u us) (b : UInt8) : Sees { s with byteval := b } none u us :=
  ⟨h.pending, h.fits, h.input, h.remaining, h.limited, h.nested⟩

theorem Sees.readSize (h : s.Sees hd (minimal n ++ u) us) (hn : 56 ≤ n) :
    ∃ s', s.readSize (minimal n).length = ((n, none), s') ∧ s'.Sees none u us := by
  obtain ⟨s', hread, hs'⟩ := h.readUint (minimal_ne_nil (by omega)) (.inr (head_minimal n))
  rw [decode_minimal] at hread
  unfold Stream.readSize
  rw [hread]
  dsimp only
  rw [if_neg (by omega)]
  exact ⟨s', rfl, hs'⟩

theorem Sees.readSize_spec (h : s.Sees hd u us) {k : Nat} (hk : k ≠ 0) :
    match s.readSize k with
    | ((n, none), s') => ∃ rest, u = minimal n ++ rest ∧ (minimal n).length = k ∧ 56 ≤ n ∧ s'.Sees none rest us
    | ((_, some e), _) => e.Plain := by
  have hread := h.readUint_spec hk
  unfold Stream.readSize
  cases hu : s.readUint k with
  | error e s1 =>
    rw [hu] at hread
    exact hread
  | ok size s1 =>
    rw [hu] at hread
    obtain ⟨bs, rest, rfl, hlen, hhead, rfl, hs1⟩ := hread
    dsimp only
    by_cases hbig : decode bs < 56
    · rw [if_pos hbig]
      exact ⟨nofun, nofun⟩
    · rw [if_neg hbig]
      -- a single byte is not zero, as it stands for 56 at least
      have hhead : bs.head? ≠ some 0 := by
        rcases hhead with hone | hhead
        · intro hzero
          match bs, hlen with
          | [b], _ =>
            cases hzero
            exact hbig (by decide)
          | b :: c :: bs, hlen => simp at hlen; omega
        · exact hhead
      exact ⟨rest, by rw [minimal_decode hhead], by rw [minimal_decode hhead, hlen], by omega, hs1⟩

theorem Sees.readKind {hd' : Head} (h : s.Sees hd (hd'.bytes ++ u) us) (hv : hd'.Valid) :
    ∃ s', s.readKind = ((headKind hd', hd'.size, none), s') ∧ s'.Sees none u us ∧ ∀ b, hd' = .byte b → s'.byteval = b := by
  unfold Stream.readKind
  cases hd' with
  | byte b =>
    obtain ⟨s1, hread, hs1⟩ := h.readByte
    have hb : b.toNat < 0x80 := hv
    rw [hread]
    dsimp only
    rw [if_pos hb]
    exact ⟨_, rfl, hs1.setByteval b, fun b' hb' => by cases hb'; rfl⟩
  | string n =>
    have h : s.Sees hd (sizeHeader 0x80 n ++ u) us := h
    obtain ⟨hn, b, hhead, hb⟩ | ⟨hn, hpos, hle, b, hhead, hb⟩ := sizeHeader_cases hv (show 0x80 ≤ 0xC0 by omega)
    · rw [hhead] at h
      obtain ⟨s1, hread, hs1⟩ := h.readByte
      rw [hread]
      dsimp only
      rw [hb, if_neg (by omega), if_pos (by omega), Nat.add_sub_cancel_left]
      exact ⟨_, rfl, hs1.setByteval 0, nofun⟩
    · rw [hhead] at h
      obtain ⟨s1, hread, hs1⟩ := h.readByte
      obtain ⟨s2, hsize, hs2⟩ := (hs1.setByteval 0).readSize (by omega)
      rw [hread]
      dsimp only
      rw [hb, if_neg (by omega), if_neg (by omega), if_pos (by omega), Nat.add_sub_cancel_left, hsize]
      exact ⟨_, rfl, hs2, nofun⟩
  | list n =>
    have h : s.Sees hd (sizeHeader 0xC0 n ++ u) us := h
    obtain ⟨hn, b, hhead, hb⟩ | ⟨hn, hpos, hle, b, hhead, hb⟩ := sizeHeader_cases hv le_rfl
    · rw [hhead] at h
      obtain ⟨s1, hread, hs1⟩ := h.readByte
      rw [hread]
      dsimp only
      rw [hb, if_neg (by omega), if_neg (by omega), if_neg (by omega), if_pos (by omega), Nat.add_sub_cancel_left]
      exact ⟨_, rfl, hs1.setByteval 0, nofun⟩
    · rw [hhead] at h
      obtain ⟨s1, hread, hs1⟩ := h.readByte
      obtain ⟨s2, hsize, hs2⟩ := (hs1.setByteval 0).readSize (by omega)
      rw [hread]
      dsimp only
      rw [hb, if_neg (by omega), if_neg (by omega), if_neg (by omega), if_neg (by omega), Nat.add_sub_cancel_left, hsize]
      exact ⟨_, rfl, hs2, nofun⟩

theorem Sees.readKind_spec (h : s.Sees hd u us) :
    match s.readKind with
    | ((kind, n, none), s') => ∃ hd' rest, hd'.Valid ∧ u = hd'.bytes ++ rest ∧ kind = headKind hd' ∧ n = hd'.size ∧
      s'.Sees none rest us ∧ ∀ b, hd' = .byte b → s'.byteval = b
    | ((_, _, some e), _) => e.Plain := by
  unfold Stream.readKind
  cases u with
  | nil =>
    obtain ⟨e, s1, herr, hne⟩ := h.readByte_error
    rw [herr]
    dsimp only
    split
    · exact ⟨by simp, by simp⟩
    · exact hne
  | cons b u =>
    have hb := b.toNat_lt
    have hvalid : ∀ {n k : Nat}, k ≤ 8 → (minimal n).length = k → n < 256 ^ 8 := by
      intro n k hk hlen
      have hlt : n < 256 ^ (Nat.digits 256 n).length := Nat.lt_base_pow_length_digits (by omega)
      have hdigits : (Nat.digits 256 n).length ≤ 8 := by simpa [minimal, ← hlen] using hk
      exact hlt.trans_le (Nat.pow_le_pow_right (by omega) hdigits)
    -- the header that the byte is, or begins
    have hofNat : ∀ {m : Nat}, m = b.toNat → UInt8.ofNat m = b := fun hm => by rw [hm, UInt8.ofNat_toNat]
    have hshort : ∀ off, off ≤ b.toNat → b.toNat < off + 56 → b :: u = sizeHeader off (b.toNat - off) ++ u := by
      intro off hle hlt
      rw [sizeHeader_small (by omega), hofNat (by omega)]
      rfl
    have hlarge : ∀ off n rest, 56 ≤ n → off + 55 + (minimal n).length = b.toNat →
        b :: (minimal n ++ rest) = sizeHeader off n ++ rest := by
      intro off n rest hn hoff
      rw [sizeHeader_large (by omega), hofNat hoff]
      rfl
    obtain ⟨s1, hok, hs1⟩ := h.readByte
    have hs0 := hs1.setByteval 0
    rw [hok]
    dsimp only
    by_cases hbyte : b.toNat < 0x80
    · rw [if_pos hbyte]
      exact ⟨.byte b, u, hbyte, rfl, rfl, rfl, hs1.setByteval b, fun b' hb' => by cases hb'; rfl⟩
    rw [if_neg hbyte]
    by_cases hstring : b.toNat < 0xB8
    · rw [if_pos hstring]
      refine ⟨.string (b.toNat - 0x80), u, ?_, hshort 0x80 (by omega) (by omega), rfl, rfl, hs0, fun _ h => by cases h⟩
      simp only [Head.Valid]
      omega
    rw [if_neg hstring]
    by_cases hlong : b.toNat < 0xC0
    · rw [if_pos hlong]
      generalize hk : b.toNat - 0xB7 = k
      have hsize := hs0.readSize_spec (k := k) (by omega)
      generalize Stream.readSize _ _ = r at hsize ⊢
      obtain ⟨⟨n, _ | e⟩, s2⟩ := r
      · obtain ⟨rest, rfl, hlen, hbig, hs2⟩ := hsize
        exact ⟨.string n, rest, hvalid (by omega) hlen, hlarge 0x80 n rest hbig (by omega), rfl, rfl, hs2, fun _ h => by cases h⟩
      · exact hsize
    rw [if_neg hlong]
    by_cases hlist : b.toNat < 0xF8
    · rw [if_pos hlist]
      refine ⟨.list (b.toNat - 0xC0), u, ?_, hshort 0xC0 (by omega) (by omega), rfl, rfl, hs0, fun _ h => by cases h⟩
      simp only [Head.Valid]
      omega
    · rw [if_neg hlist]
      generalize hk : b.toNat - 0xF7 = k
      have hsize := hs0.readSize_spec (k := k) (by omega)
      generalize Stream.readSize _ _ = r at hsize ⊢
      obtain ⟨⟨n, _ | e⟩, s2⟩ := r
      · obtain ⟨rest, rfl, hlen, hbig, hs2⟩ := hsize
        exact ⟨.list n, rest, hvalid (by omega) hlen, hlarge 0xC0 n rest hbig (by omega), rfl, rfl, hs2, fun _ h => by cases h⟩
      · exact hsize

/-! ## Looking ahead -/

/-- The header of the next item, whether it has been read ahead or not. -/
def Next (s : Stream) (hd : Head) (u : Bytes) (us : List Bytes) : Prop :=
  s.Sees (some hd) u us ∨ hd.Valid ∧ hd.size ≤ u.length ∧ s.Sees none (hd.bytes ++ u) us

theorem Sees.nextKind {hd : Head} (h : s.Sees (some hd) u us) : s.nextKind = .ok (headKind hd, hd.size) s := by
  obtain ⟨hkind, hsize, herr, _⟩ := h.pending
  unfold Stream.nextKind
  rw [hkind]
  rw [herr, hsize]

theorem Sees.nextKind_none (h : s.Sees none u us) : s.nextKind = s.lookAhead := by
  have hkind : s.kind = none := h.pending
  unfold Stream.nextKind
  rw [hkind]

theorem Sees.atEnd_iff (h : s.Sees hd u us) : s.atEnd = true ↔ u = [] ∧ us ≠ [] := by
  have hnested := h.nested
  unfold Stream.atEnd
  cases hstack : s.stack with
  | nil =>
    rw [hstack] at hnested
    obtain rfl : us = [] := by simpa [Nested] using hnested
    simp
  | cons tos stack =>
    rw [hstack] at hnested
    obtain ⟨hpos, houter⟩ := hnested
    have hus : us ≠ [] := by
      rintro rfl
      cases stack <;> cases houter
    simp only [List.head?_cons, Option.any_some, decide_eq_true_eq]
    constructor
    · intro heq
      exact ⟨length_eq_zero_iff.mp (by omega), hus⟩
    · rintro ⟨rfl, -⟩
      simpa using hpos

theorem Sees.sizeErr (h : s.Sees hd u us) (n : Nat) : s.sizeErr n = none ↔ n ≤ u.length := by
  have hnested := h.nested
  have hin := congrArg List.length h.input
  rw [length_append] at hin
  unfold Stream.sizeErr
  cases hstack : s.stack with
  | nil =>
    rw [hstack] at hnested
    obtain rfl : us = [] := by simpa [Nested] using hnested
    rw [flatten_nil, length_nil] at hin
    rw [h.limited, h.remaining, hin]
    simp
  | cons tos stack =>
    rw [hstack] at hnested
    have hpos := hnested.1
    have hleft : tos.size - tos.pos = u.length := by omega
    dsimp only
    rw [hleft]
    simp

theorem plain_sizeErr (h : s.sizeErr n = some e) : e.Plain := by
  unfold Stream.sizeErr at h
  split at h
  · split at h
    · cases h
      exact ⟨nofun, nofun⟩
    · cases h
  · split at h
    · cases h
      exact ⟨nofun, nofun⟩
    · cases h

theorem Head.bytes_ne_nil (hd : Head) : hd.bytes ≠ [] := by
  cases hd with
  | byte b => exact nofun
  | string n =>
    show sizeHeader 0x80 n ≠ []
    unfold sizeHeader
    split <;> exact nofun
  | list n =>
    show sizeHeader 0xC0 n ≠ []
    unfold sizeHeader
    split <;> exact nofun

theorem Sees.clearErr (h : s.Sees none u us) : Sees { s with kinderr := none } none u us :=
  ⟨h.pending, h.fits, h.input, h.remaining, h.limited, h.nested⟩

/-- The header that has been read is kept. -/
theorem Sees.keep (h : s.Sees none u us) {hd : Head} (hle : hd.size ≤ u.length) (hbyte : ∀ b, hd = .byte b → s.byteval = b) :
    Sees { s with kind := some (headKind hd), size := hd.size, kinderr := none } (some hd) u us := by
  refine ⟨⟨rfl, rfl, rfl, ?_⟩, ?_, h.input, h.remaining, h.limited, h.nested⟩
  · cases hd with
    | byte b => exact hbyte b rfl
    | string n | list n => trivial
  · intro hd' heq
    cases heq
    exact hle

/-- At the end of a list. -/
theorem Sees.nextKind_nil {v : Bytes} (h : s.Sees none [] (v :: us)) :
    ∃ s', s.nextKind = .error .eol s' ∧ s'.Sees none [] (v :: us) := by
  rw [h.nextKind_none]
  unfold Stream.lookAhead
  rw [if_pos (h.atEnd_iff.mpr ⟨rfl, nofun⟩)]
  exact ⟨_, rfl, h.clearErr⟩

theorem Next.nextKind {hd : Head} (h : s.Next hd u us) :
    ∃ s', s.nextKind = .ok (headKind hd, hd.size) s' ∧ s'.Sees (some hd) u us := by
  rcases h with h | ⟨hv, hle, h⟩
  · exact ⟨s, h.nextKind, h⟩
  · obtain ⟨s1, hread, hs1, hbyte⟩ := h.clearErr.readKind hv
    have hend : s.atEnd ≠ true := by
      intro hend
      exact Head.bytes_ne_nil hd (append_eq_nil_iff.mp (h.atEnd_iff.mp hend).1).1
    rw [h.nextKind_none]
    unfold Stream.lookAhead
    rw [if_neg hend, hread]
    dsimp only
    rw [Option.none_or, (hs1.sizeErr _).mpr hle]
    exact ⟨_, rfl, hs1.keep hle hbyte⟩

/-- How reading may fail: at the end of a list, or for another reason. -/
def Fails (hd : Option Head) (u : Bytes) (us : List Bytes) (e : Err) (s' : Stream) : Prop :=
  e = .eol ∧ hd = none ∧ u = [] ∧ us ≠ [] ∧ s'.Sees none [] us ∨ e.Plain

/-- What `Kind` returns is the next header, and it reports the end of a list only there. -/
theorem Sees.nextKind_spec (h : s.Sees hd u us) :
    match s.nextKind with
    | .ok (kind, n) s' => ∃ hd' rest, kind = headKind hd' ∧ n = hd'.size ∧ s'.Sees (some hd') rest us ∧
      (hd = some hd' ∧ rest = u ∨ hd = none ∧ hd'.Valid ∧ u = hd'.bytes ++ rest)
    | .error e s' => Fails hd u us e s' := by
  cases hd with
  | some hd =>
    rw [h.nextKind]
    exact ⟨hd, u, rfl, rfl, h, .inl ⟨rfl, rfl⟩⟩
  | none =>
    rw [h.nextKind_none]
    unfold Stream.lookAhead
    by_cases hend : s.atEnd = true
    · obtain ⟨rfl, hus⟩ := h.atEnd_iff.mp hend
      rw [if_pos hend]
      exact .inl ⟨rfl, rfl, rfl, hus, h.clearErr⟩
    rw [if_neg hend]
    have hread := h.clearErr.readKind_spec
    generalize Stream.readKind { s with kinderr := none } = r at hread ⊢
    obtain ⟨⟨k, m, _ | e⟩, s1⟩ := r
    · obtain ⟨hd', rest, hv, hu, rfl, rfl, hs1, hbyte⟩ := hread
      dsimp only
      rw [Option.none_or]
      cases hse : s1.sizeErr hd'.size with
      | some e => exact .inr (plain_sizeErr hse)
      | none => exact ⟨hd', rest, rfl, rfl, hs1.keep ((hs1.sizeErr _).mp hse) hbyte, .inr ⟨rfl, hv, hu⟩⟩
    · exact .inr hread

theorem Sees.nextKind_ok (h : s.Sees hd u us) (hk : s.nextKind = .ok (kind, n) s') :
    ∃ hd' rest, kind = headKind hd' ∧ n = hd'.size ∧ s'.Sees (some hd') rest us ∧
      (hd = some hd' ∧ rest = u ∨ hd = none ∧ hd'.Valid ∧ u = hd'.bytes ++ rest) := by
  have hspec := h.nextKind_spec
  rwa [hk] at hspec

theorem Sees.nextKind_error (h : s.Sees hd u us) (hk : s.nextKind = .error e s') : Fails hd u us e s' := by
  have hspec := h.nextKind_spec
  rwa [hk] at hspec

/-- After `Kind`, `Kind` returns the same. -/
theorem Sees.nextKind_again {r : Kind × Nat} (hs : s.Sees hd u us) (hk : s.nextKind = .ok r s') :
    s'.nextKind = .ok r s' := by
  obtain ⟨kind, n⟩ := r
  obtain ⟨hd', rest, rfl, rfl, hs1, -⟩ := hs.nextKind_ok hk
  exact hs1.nextKind

end Stream

end Bgmchain.RLP
