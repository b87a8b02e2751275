import Bgmchain.RLP.Stream

/-! # Reading items from a stream

What the readers of `Stream` take from the input: a string, an integer, the start and the
end of a list. Each is given on a stream with a header that has been read ahead; a reader
begins with `Kind`, so that it makes no difference whether the header was read before. -/
namespace Bgmchain.RLP.Stream
open Common Lib Rlp List BigEndian

variable {α : Type} {s s' s1 : Stream} {hd : Option Head} {u : Bytes} {us : List Bytes} {e : Err}

/-! ## The readers begin with `Kind` -/

/-- A reader that begins with `Kind`. -/
structure KindFirst (read : Stream → Res α) : Prop where
  error : ∀ {s s1 : Stream} {e : Err}, s.nextKind = .error e s1 → read s = .error e s1
  again : ∀ {s s1 : Stream} {r : Kind × Nat}, s.nextKind = .ok r s1 → s1.nextKind = .ok r s1 → read s = read s1

theorem kindFirst_bytes : KindFirst Stream.bytes :=
  ⟨fun h => by unfold Stream.bytes; rw [h], fun h h1 => by unfold Stream.bytes; rw [h, h1]⟩

theorem kindFirst_uint (maxbits : Nat) : KindFirst (Stream.uint · maxbits) :=
  ⟨fun h => by unfold Stream.uint; rw [h], fun h h1 => by unfold Stream.uint; rw [h, h1]⟩

theorem kindFirst_list : KindFirst Stream.list :=
  ⟨fun h => by unfold Stream.list; rw [h], fun h h1 => by unfold Stream.list; rw [h, h1]⟩

section
variable {read : Stream → Res α} (hread : KindFirst read)
include hread

/-- What was written behind a header is read behind it. -/
theorem KindFirst.eq (hd : Head) (h : s.Sees none (hd.bytes ++ u) us) (hv : hd.Valid) (hle : hd.size ≤ u.length) :
    ∃ s1, read s = read s1 ∧ s1.Sees (some hd) u us := by
  have hnext : s.Next hd u us := .inr ⟨hv, hle, h⟩
  obtain ⟨s1, hk, hs1⟩ := hnext.nextKind
  exact ⟨s1, hread.again hk hs1.nextKind, hs1⟩

/-- What is read was read behind a header. -/
theorem KindFirst.ok (h : s.Sees none u us) {v : α} (hok : read s = .ok v s') :
    ∃ hd rest s1, hd.Valid ∧ u = hd.bytes ++ rest ∧ s1.Sees (some hd) rest us ∧ read s1 = .ok v s' := by
  cases hk : s.nextKind with
  | error e s1 => cases (hread.error hk).symm.trans hok
  | ok r s1 =>
    obtain ⟨kind, n⟩ := r
    obtain ⟨hd, rest, rfl, rfl, hs1, hu⟩ := h.nextKind_ok hk
    obtain ⟨-, hv, rfl⟩ := hu.resolve_left fun hu => nomatch hu.1
    exact ⟨hd, rest, s1, hv, rfl, hs1, (hread.again hk hs1.nextKind).symm.trans hok⟩

theorem KindFirst.fails (h : s.Sees hd u us) (herr : read s = .error e s')
    (hplain : ∀ {hd : Head} {rest : Bytes} {s1 : Stream}, s1.Sees (some hd) rest us → read s1 = .error e s' → e.Plain) :
    Fails hd u us e s' := by
  cases hk : s.nextKind with
  | error e s1 =>
    cases (hread.error hk).symm.trans herr
    exact h.nextKind_error hk
  | ok r s1 =>
    obtain ⟨kind, n⟩ := r
    obtain ⟨hd, rest, rfl, rfl, hs1, -⟩ := h.nextKind_ok hk
    exact .inr (hplain hs1 ((hread.again hk hs1.nextKind).symm.trans herr))

end

/-! ## Strings -/

theorem Sees.clear {h : Head} (hs : s.Sees (some h) u us) : Sees { s with kind := none } none u us :=
  ⟨rfl, nofun, hs.input, hs.remaining, hs.limited, hs.nested⟩

theorem Sees.bytes_byte {b : UInt8} (h : s.Sees (some (.byte b)) u us) :
    ∃ s', s.bytes = .ok [b] s' ∧ s'.Sees none u us := by
  unfold Stream.bytes
  rw [h.nextKind]
  dsimp only [headKind]
  rw [h.pending.2.2.2]
  exact ⟨_, rfl, h.clear.setByteval b⟩

variable {n : Nat}

/-- A string is taken as long as it is no small byte with a header. -/
theorem Sees.bytes_string (h : s.Sees (some (.string n)) u us) :
    if n = 1 ∧ (u.take n).head?.any (·.toNat < 128) then ∃ s', s.bytes = .error .canonSize s'
    else ∃ s', s.bytes = .ok (u.take n) s' ∧ s'.Sees none (u.drop n) us := by
  obtain ⟨s1, hread, hs1⟩ := h.readFull (h.fits _ rfl)
  unfold Stream.bytes
  rw [h.nextKind]
  dsimp only [headKind, Head.size] at hread ⊢
  rw [hread]
  dsimp only
  split
  next hsmall =>
    rw [if_pos (by simpa using hsmall)]
    exact ⟨_, rfl⟩
  next hsmall =>
    rw [if_neg (by simpa using hsmall)]
    exact ⟨_, rfl, hs1⟩

theorem Sees.bytes_list (h : s.Sees (some (.list n)) u us) : s.bytes = .error .expectedString s := by
  unfold Stream.bytes
  rw [h.nextKind]
  rfl

/-! ## Lists -/

theorem Sees.list (h : s.Sees (some (.list n)) u us) :
    ∃ s', s.list = .ok n s' ∧ s'.Sees none (u.take n) (u.drop n :: us) := by
  have hle : n ≤ u.length := h.fits _ rfl
  have hnested := h.nested
  unfold Stream.list
  rw [h.nextKind]
  refine ⟨_, rfl, rfl, nofun, ?_, h.remaining, h.limited, ?_, ?_⟩
  · rw [flatten_cons, ← append_assoc, take_append_drop]
    exact h.input
  · dsimp only [Head.size]
    rw [length_take_of_le hle]
    omega
  · dsimp only [Head.size]
    cases hstack : s.stack with
    | nil =>
      rw [hstack] at hnested
      exact hnested
    | cons lp stack =>
      rw [hstack] at hnested
      refine ⟨?_, hnested.2⟩
      have := hnested.1
      rw [length_drop]
      omega

theorem Sees.list_other {h : Head} (hs : s.Sees (some h) u us) (hne : ∀ n, h ≠ .list n) :
    s.list = .error .expectedList s := by
  unfold Stream.list
  rw [hs.nextKind]
  cases h with
  | byte b | string n => rfl
  | list n => exact absurd rfl (hne n)

/-- The end of a list clears what has been read ahead. -/
theorem Sees.listEnd {v : Bytes} (h : s.Sees hd [] (v :: us)) : ∃ s', s.listEnd = .ok () s' ∧ s'.Sees none v us := by
  have hnested := h.nested
  have hin : s.input = v ++ us.flatten := h.input
  unfold Stream.listEnd
  cases hstack : s.stack with
  | nil =>
    rw [hstack] at hnested
    cases hnested
  | cons tos stack =>
    rw [hstack] at hnested
    obtain ⟨hpos, houter⟩ := hnested
    dsimp only
    rw [if_neg (by simpa using hpos)]
    refine ⟨_, rfl, rfl, nofun, hin, h.remaining, h.limited, ?_⟩
    cases stack with
    | nil => exact houter
    | cons lp stack =>
      obtain ⟨hlp, hrest⟩ := houter
      exact ⟨by dsimp only; omega, hrest⟩

theorem Sees.listEnd_error {b : UInt8} (h : s.Sees hd (b :: u) us) : ∃ e, s.listEnd = .error e s := by
  have hnested := h.nested
  unfold Stream.listEnd
  cases hstack : s.stack with
  | nil => exact ⟨_, rfl⟩
  | cons tos stack =>
    rw [hstack] at hnested
    have hpos := hnested.1
    rw [length_cons] at hpos
    dsimp only
    rw [if_pos (by omega)]
    exact ⟨_, rfl⟩

/-! ## Whole items -/

/-- **A string that was written is read.** -/
theorem Sees.bytes_encode {b : Bytes} (h : s.Sees none (encodeString b ++ u) us) (hb : b.length < 256 ^ 8) :
    ∃ s', s.bytes = .ok b s' ∧ s'.Sees none u us := by
  obtain ⟨c, rfl, hc, henc⟩ | ⟨hbig, henc⟩ := encodeString_cases b
  · rw [henc] at h
    obtain ⟨s1, heq, hs1⟩ := kindFirst_bytes.eq (.byte c) h hc (Nat.zero_le _)
    rw [heq]
    exact hs1.bytes_byte
  · rw [henc, append_assoc] at h
    obtain ⟨s1, heq, hs1⟩ := kindFirst_bytes.eq (.string b.length) h hb (by simp [Head.size])
    have hbytes := hs1.bytes_string
    rw [take_left' rfl, drop_left' rfl, if_neg ?_] at hbytes
    · rw [heq]
      exact hbytes
    · intro ⟨hlen, hsmall⟩
      match b, hlen with
      | [c], _ => exact hbig c rfl (by simpa using hsmall)

/-- Bytes that are no small byte with a header. -/
theorem encodeString_of_not_small {b : Bytes} {n : Nat} (hlen : b.length = n)
    (h : ¬ (n = 1 ∧ b.head?.any (·.toNat < 128))) : encodeString b = (Head.string n).bytes ++ b := by
  obtain ⟨c, rfl, hc, -⟩ | ⟨-, henc⟩ := encodeString_cases b
  · exact absurd ⟨hlen.symm, by simpa using hc⟩ h
  · rw [henc, hlen]
    rfl

/-- **Only what was written as a string is read as one.** -/
theorem Sees.bytes_ok (h : s.Sees none u us) {b : Bytes} (hok : s.bytes = .ok b s') :
    ∃ rest, u = encodeString b ++ rest ∧ b.length < 256 ^ 8 ∧ s'.Sees none rest us := by
  obtain ⟨hd, rest, s1, hv, rfl, hs1, hok⟩ := kindFirst_bytes.ok h hok
  cases hd with
  | byte c =>
    obtain ⟨s2, hbytes, hs2⟩ := hs1.bytes_byte
    cases hbytes.symm.trans hok
    have hc : c.toNat < 0x80 := hv
    exact ⟨rest, by simp [encodeString, hc, Head.bytes], by simp, hs2⟩
  | list n => cases hs1.bytes_list.symm.trans hok
  | string n =>
    have hlen : (rest.take n).length = n := length_take_of_le (hs1.fits _ rfl)
    have hbytes := hs1.bytes_string
    split at hbytes
    · obtain ⟨s2, hbytes⟩ := hbytes
      cases hbytes.symm.trans hok
    next hsmall =>
      obtain ⟨s2, hbytes, hs2⟩ := hbytes
      cases hbytes.symm.trans hok
      refine ⟨rest.drop n, ?_, hlen.symm ▸ hv, hs2⟩
      rw [encodeString_of_not_small hlen hsmall, append_assoc, take_append_drop]

theorem Sees.nextKind_encodeList {p : Bytes} (h : s.Sees none (encodeList p ++ u) us) (hp : p.length < 256 ^ 8) :
    ∃ s1, s.nextKind = .ok (.list, p.length) s1 ∧ s1.Sees (some (.list p.length)) (p ++ u) us := by
  rw [encodeList, append_assoc] at h
  have hnext : s.Next (.list p.length) (p ++ u) us := .inr ⟨hp, by simp [Head.size], h⟩
  exact hnext.nextKind

/-- **A list that was written is opened.** -/
theorem Sees.list_encode {p : Bytes} (h : s.Sees none (encodeList p ++ u) us) (hp : p.length < 256 ^ 8) :
    ∃ s', s.list = .ok p.length s' ∧ s'.Sees none p (u :: us) := by
  obtain ⟨s1, hk, hs1⟩ := h.nextKind_encodeList hp
  rw [kindFirst_list.again hk hs1.nextKind]
  obtain ⟨s', hlist, hs'⟩ := hs1.list
  rw [take_left' rfl, drop_left' rfl] at hs'
  exact ⟨s', hlist, hs'⟩

/-- **Only what was written as a list is opened.** -/
theorem Sees.list_ok (h : s.Sees none u us) (hok : s.list = .ok n s') :
    ∃ p rest, u = encodeList p ++ rest ∧ p.length = n ∧ n < 256 ^ 8 ∧ s'.Sees none p (rest :: us) := by
  obtain ⟨hd, rest, s1, hv, rfl, hs1, hok⟩ := kindFirst_list.ok h hok
  cases hd with
  | byte c | string m => cases (hs1.list_other nofun).symm.trans hok
  | list m =>
    obtain ⟨s2, hlist, hs2⟩ := hs1.list
    cases hlist.symm.trans hok
    have hlen : (rest.take n).length = n := length_take_of_le (hs1.fits _ rfl)
    refine ⟨rest.take n, rest.drop n, ?_, hlen, hv, hs2⟩
    unfold encodeList
    rw [hlen, append_assoc, take_append_drop]
    rfl

/-! ## Failing -/

theorem Sees.bytes_fails (hs : s.Sees hd u us) (h : s.bytes = .error e s') : Fails hd u us e s' := by
  refine kindFirst_bytes.fails hs h fun {hd' _ _} hs1 h => ?_
  cases hd' with
  | byte c =>
    obtain ⟨s2, hbytes, -⟩ := hs1.bytes_byte
    cases hbytes.symm.trans h
  | list n =>
    cases hs1.bytes_list.symm.trans h
    exact ⟨nofun, nofun⟩
  | string n =>
    have hbytes := hs1.bytes_string
    split at hbytes
    · obtain ⟨s2, hbytes⟩ := hbytes
      cases hbytes.symm.trans h
      exact ⟨nofun, nofun⟩
    · obtain ⟨s2, hbytes, -⟩ := hbytes
      cases hbytes.symm.trans h

theorem Sees.list_fails (hs : s.Sees hd u us) (h : s.list = .error e s') : Fails hd u us e s' := by
  refine kindFirst_list.fails hs h fun {hd' _ _} hs1 h => ?_
  cases hd' with
  | byte c | string n =>
    cases (hs1.list_other nofun).symm.trans h
    exact ⟨nofun, nofun⟩
  | list n =>
    obtain ⟨s2, hlist, -⟩ := hs1.list
    cases hlist.symm.trans h

theorem plain_listEnd (h : s.listEnd = .error e s') : e.Plain := by
  unfold Stream.listEnd at h
  split at h
  · cases h
    exact ⟨nofun, nofun⟩
  · split at h
    · cases h
      exact ⟨nofun, nofun⟩
    · cases h

/-! ## Integers -/

theorem Sees.uint_byte {b : UInt8} (h : s.Sees (some (.byte b)) u us) (maxbits : Nat) :
    if b = 0 then s.uint maxbits = .error .canonInt s
    else ∃ s', s.uint maxbits = .ok b.toNat s' ∧ s'.Sees none u us := by
  unfold Stream.uint
  rw [h.nextKind]
  dsimp only [headKind]
  rw [h.pending.2.2.2]
  split
  · rfl
  · exact ⟨_, rfl, h.clear.setByteval b⟩

theorem Sees.uint_list (h : s.Sees (some (.list n)) u us) (maxbits : Nat) :
    s.uint maxbits = .error .expectedString s := by
  unfold Stream.uint
  rw [h.nextKind]
  rfl

/-- The integer zero. -/
theorem Sees.uint_empty (h : s.Sees (some (.string 0)) u us) (maxbits : Nat) :
    ∃ s', s.uint maxbits = .ok 0 s' ∧ s'.Sees none u us := by
  unfold Stream.uint
  rw [h.nextKind]
  exact ⟨_, rfl, h.clear⟩

variable {maxbits : Nat}

/-- The bytes of an integer, which are no small byte and have no zero in front. -/
theorem Sees.uint_string {bs : Bytes} (h : s.Sees (some (.string bs.length)) (bs ++ u) us)
    (hlen : bs.length ≤ maxbits / 8) (hne : bs ≠ []) (hhead : bs.length = 1 ∨ bs.head? ≠ some 0)
    (hbig : ¬ decode bs < 128) : ∃ s', s.uint maxbits = .ok (decode bs) s' ∧ s'.Sees none u us := by
  obtain ⟨s1, hread, hs1⟩ := h.readUint hne hhead
  unfold Stream.uint
  rw [h.nextKind]
  dsimp only [headKind, Head.size]
  rw [if_neg (by omega), hread]
  dsimp only
  rw [if_neg (by simp [hbig])]
  exact ⟨s1, rfl, hs1⟩

theorem Sees.uint_string_spec (h : s.Sees (some (.string n)) u us) (hn : n ≠ 0) (maxbits : Nat) :
    match s.uint maxbits with
    | .ok v s' => ∃ bs rest, u = bs ++ rest ∧ bs.length = n ∧ v = decode bs ∧ ¬ v < 128 ∧ s'.Sees none rest us
    | .error e _ => e.Plain := by
  have hspec := h.readUint_spec hn
  unfold Stream.uint
  rw [h.nextKind]
  dsimp only [headKind, Head.size]
  by_cases hbig : maxbits / 8 < n
  · rw [if_pos hbig]
    exact ⟨nofun, nofun⟩
  rw [if_neg hbig]
  cases hread : s.readUint n with
  | error e s1 =>
    rw [hread] at hspec
    cases e with
    | canonSize => exact ⟨nofun, nofun⟩
    | _ => exact hspec
  | ok v s1 =>
    rw [hread] at hspec
    obtain ⟨bs, rest, hu, hlen, -, hv, hs1⟩ := hspec
    by_cases hsmall : v < 128
    · simp [Nat.pos_of_ne_zero hn, hsmall, Err.Plain]
    · dsimp only
      rw [if_neg (by simp [hsmall])]
      exact ⟨bs, rest, hu, hlen, hv, hsmall, hs1⟩

/-- A string of more than one byte, or of one byte that is not small. -/
theorem encodeString_of_big {bs : Bytes} (h : ¬ decode bs < 128 ∨ bs = []) :
    encodeString bs = (Head.string bs.length).bytes ++ bs := by
  obtain ⟨c, rfl, hc, -⟩ | ⟨-, henc⟩ := encodeString_cases bs
  · rcases h with h | h
    · exact absurd (by simpa [decode] using hc) h
    · cases h
  · exact henc

/-- **An integer that was written is read.** -/
theorem Sees.uint_encode {v : Nat} (h : s.Sees none (encodeNat v ++ u) us) (hv : v < 256 ^ (maxbits / 8))
    (hmax : maxbits / 8 ≤ 8) : ∃ s', s.uint maxbits = .ok v s' ∧ s'.Sees none u us := by
  have hlen : (minimal v).length ≤ maxbits / 8 := length_minimal_le hv
  have hdec := decode_minimal v
  unfold encodeNat at h
  by_cases hzero : v = 0
  · subst hzero
    obtain ⟨s1, heq, hs1⟩ := (kindFirst_uint maxbits).eq (.string 0) h (Nat.pow_pos (by omega)) (Nat.zero_le _)
    rw [heq]
    exact hs1.uint_empty maxbits
  by_cases hsmall : v < 128
  · have hmin : minimal v = [UInt8.ofNat v] := by
      have hdigits : Nat.digits 256 v = [v] := Nat.digits_of_lt 256 v hzero (by omega)
      simp [minimal, hdigits]
    have hb : (UInt8.ofNat v).toNat = v := by rw [UInt8.toNat_ofNat']; omega
    have hlt : (UInt8.ofNat v).toNat < 0x80 := by omega
    rw [hmin, show encodeString [UInt8.ofNat v] = [UInt8.ofNat v] from if_pos hlt] at h
    obtain ⟨s1, heq, hs1⟩ := (kindFirst_uint maxbits).eq (.byte (UInt8.ofNat v)) h hlt (Nat.zero_le _)
    have huint := hs1.uint_byte maxbits
    rw [if_neg (fun h0 => hzero (by rw [← hb, h0]; rfl)), hb] at huint
    rw [heq]
    exact huint
  · rw [encodeString_of_big (.inl (by omega)), append_assoc] at h
    have hvalid : (minimal v).length < 256 ^ 8 := by omega
    obtain ⟨s1, heq, hs1⟩ := (kindFirst_uint maxbits).eq _ h hvalid (by simp [Head.size])
    have huint := hs1.uint_string hlen (minimal_ne_nil hzero) (.inr (head_minimal v)) (by omega)
    rw [hdec] at huint
    rw [heq]
    exact huint

/-- A small byte is one item. -/
theorem item_byte {c : UInt8} (hc : c.toNat < 0x80) : Item [c] := by
  have hitem : Item (encodeString [c]) := item_encodeString (by simp)
  rwa [show encodeString [c] = [c] from if_pos hc] at hitem

/-- An integer is one item. -/
theorem Sees.uint_ok (h : s.Sees none u us) {v : Nat} (hok : s.uint maxbits = .ok v s') :
    ∃ item rest, Item item ∧ u = item ++ rest ∧ s'.Sees none rest us := by
  obtain ⟨hd, rest, s1, hv, rfl, hs1, hok⟩ := (kindFirst_uint maxbits).ok h hok
  cases hd with
  | byte c =>
    have huint := hs1.uint_byte maxbits
    split at huint
    · cases huint.symm.trans hok
    · obtain ⟨s2, huint, hs2⟩ := huint
      cases huint.symm.trans hok
      exact ⟨[c], rest, item_byte hv, rfl, hs2⟩
  | list n => cases (hs1.uint_list maxbits).symm.trans hok
  | string n =>
    by_cases hn : n = 0
    · subst hn
      obtain ⟨s2, huint, hs2⟩ := hs1.uint_empty maxbits
      cases huint.symm.trans hok
      exact ⟨encodeString [], rest, item_encodeString (Nat.pow_pos (by omega)), rfl, hs2⟩
    · have huint := hs1.uint_string_spec hn maxbits
      rw [hok] at huint
      obtain ⟨bs, rest', rfl, hlen, hdec, hbig, hs2⟩ := huint
      have hvalid : n < 256 ^ 8 := hv
      refine ⟨encodeString bs, rest', item_encodeString (by omega), ?_, hs2⟩
      rw [encodeString_of_big (.inl (by omega)), hlen, append_assoc]

theorem Sees.uint_fails (hs : s.Sees hd u us) (h : s.uint maxbits = .error e s') : Fails hd u us e s' := by
  refine (kindFirst_uint maxbits).fails hs h fun {hd' _ _} hs1 h => ?_
  cases hd' with
  | byte c =>
    have huint := hs1.uint_byte maxbits
    split at huint
    · cases huint.symm.trans h
      exact ⟨nofun, nofun⟩
    · obtain ⟨s2, huint, -⟩ := huint
      cases huint.symm.trans h
  | list n =>
    cases (hs1.uint_list maxbits).symm.trans h
    exact ⟨nofun, nofun⟩
  | string n =>
    by_cases hn : n = 0
    · subst hn
      obtain ⟨s2, huint, -⟩ := hs1.uint_empty maxbits
      cases huint.symm.trans h
    · have huint := hs1.uint_string_spec hn maxbits
      rwa [h] at huint

end Bgmchain.RLP.Stream
