import Bgmchain.RLP.Values

/-! # What the decoders of types do to the input

Every decoder looks at the kind of the next item first. If it succeeds it has taken one item
from the input, or the byte that a decoder of `[1]byte` before it has left, and may leave such
a byte itself. That the end of a list is reported only there is what the loops rely on. -/
namespace Bgmchain.RLP
open Common Lib Rlp List

variable {α β : Type} {st : Prop} {dec : Stream → Res α}

/-- What may be left of an item. -/
def Left (sticky : Prop) (hd : Option Head) : Prop := hd = none ∨ sticky ∧ hd = some (.byte 0)

variable {hd : Option Head}

theorem Left.weaken {sticky : Prop} (h : Left sticky hd) : Left True hd :=
  h.imp_right fun h => ⟨trivial, h.2⟩

/-- Success takes an item, or what was left of the one before. -/
structure Consumes (sticky : Prop) (dec : Stream → Res α) : Prop where
  fresh : ∀ {s s' : Stream} {u : Bytes} {us : List Bytes} {v : α}, s.Sees none u us → dec s = .ok v s' →
    ∃ item rest hd, Item item ∧ u = item ++ rest ∧ s'.Sees hd rest us ∧ Left sticky hd
  ahead : ∀ {s s' : Stream} {u : Bytes} {us : List Bytes} {v : α}, s.Sees (some (.byte 0)) u us → dec s = .ok v s' →
    ∃ hd, s'.Sees hd u us ∧ Left sticky hd
  fails : ∀ {s s' : Stream} {hd : Option Head} {u : Bytes} {us : List Bytes} {e : Err}, s.Sees hd u us → Left True hd →
    dec s = .error e s' → Stream.Fails hd u us e s' ∨ e = .exhausted

/-- A decoder that starts with `Kind`. -/
structure Reads (sticky : Prop) (dec : Stream → Res α) : Prop extends Consumes sticky dec where
  kindError : ∀ {s s1 : Stream} {e : Err}, s.nextKind = .error e s1 →
    dec s = .error e s1 ∨ dec s = .error (wrapStreamError e) s1
  again : ∀ {s s1 : Stream} {r : Kind × Nat}, s.nextKind = .ok r s1 → s1.nextKind = .ok r s1 → dec s = dec s1

/-- What stands in a list. -/
structure Inside (inside : Stream → Res α) : Prop where
  ok : ∀ {s s' : Stream} {hd : Option Head} {u : Bytes} {us : List Bytes} {v : α}, s.Sees hd u us → Left True hd →
    inside s = .ok v s' → ∃ hd' u', s'.Sees hd' u' us
  fails : ∀ {s s' : Stream} {hd : Option Head} {u : Bytes} {us : List Bytes} {e : Err}, s.Sees hd u us → Left True hd →
    inside s = .error e s' → e.Plain ∨ e = .exhausted

variable {u : Bytes} {us : List Bytes} {e : Err} {s' : Stream}

theorem Stream.Fails.wrap (h : Stream.Fails hd u us e s') : Stream.Fails hd u us (wrapStreamError e) s' := by
  rcases h with ⟨rfl, h⟩ | h
  · exact .inl ⟨rfl, h⟩
  · exact .inr h.wrap

variable {r : Res α} {s : Stream} {v : α} {n : Nat}

theorem mapOk_ok {f : α → β} {v : β} (h : mapOk f r = .ok v s) : ∃ a, r = .ok a s ∧ v = f a := by
  cases r with
  | ok a s' => cases h; exact ⟨a, rfl, rfl⟩
  | error e s' => cases h

theorem mapOk_error {f : α → β} (h : mapOk f r = .error e s) : r = .error e s := by
  cases r with
  | ok a s' => cases h
  | error e s' => cases h; rfl

theorem mapError_ok {f : Err → Err} (h : mapError f r = .ok v s) : r = .ok v s := by
  cases r with
  | ok a s' => cases h; rfl
  | error e s' => cases h

theorem mapError_error {f : Err → Err} (h : mapError f r = .error e s) : ∃ e', r = .error e' s ∧ e = f e' := by
  cases r with
  | ok a s' => cases h
  | error e' s' => cases h; exact ⟨e', rfl, rfl⟩

/-! ## Decoders in general -/

theorem Tree.item_encode (t : Tree) (hlen : t.encode.length < 256 ^ 8) : Item t.encode := by
  cases t with
  | string b => exact (encoded_encodeString b).item hlen
  | list ts => exact (encoded_encodeList _).item hlen

/-- The end of a list is reported. -/
theorem Reads.eol (h : Reads st dec) {v : Bytes} (hs : s.Sees none [] (v :: us)) :
    ∃ s', dec s = .error .eol s' ∧ s'.Sees none [] (v :: us) := by
  obtain ⟨s', hk, hs'⟩ := hs.nextKind_nil
  exact ⟨s', (h.kindError hk).elim id id, hs'⟩

/-- At the end of a list nothing is decoded. -/
theorem Consumes.not_ok_nil (h : Consumes st dec) (hs : s.Sees none [] us) (v : α) : dec s ≠ .ok v s' := by
  intro hok
  obtain ⟨item, rest, -, hitem, hnil, -⟩ := h.fresh hs hok
  exact hitem.ne_nil (append_eq_nil_iff.mp hnil.symm).1

theorem Consumes.step (h : Consumes st dec)
    (hs : s.Sees hd u us) (hleft : Left True hd) (hok : dec s = .ok v s') :
    ∃ hd' u', s'.Sees hd' u' us ∧ Left True hd' ∧ u'.length ≤ u.length := by
  rcases hleft with rfl | ⟨-, rfl⟩
  · obtain ⟨item, rest, hd', -, rfl, hs', hleft'⟩ := h.fresh hs hok
    exact ⟨hd', rest, hs', hleft'.weaken, by rw [length_append]; omega⟩
  · obtain ⟨hd', hs', hleft'⟩ := h.ahead hs hok
    exact ⟨hd', u, hs', hleft'.weaken, le_rfl⟩

/-- One of the items in the input is taken. -/
theorem Consumes.next (h : Consumes st dec) {ts : List Tree}
    (hlen : (Tree.encodeAll ts).length < 256 ^ 8) (hs : s.Sees none (Tree.encodeAll ts) us) (hok : dec s = .ok v s') :
    ∃ t ts' hd, ts = t :: ts' ∧ s'.Sees hd (Tree.encodeAll ts') us ∧ Left st hd := by
  obtain ⟨item, rest, hd, hitem, hu, hs', hleft⟩ := h.fresh hs hok
  cases ts with
  | nil => exact absurd (append_eq_nil_iff.mp hu.symm).1 hitem.ne_nil
  | cons t ts =>
    rw [Tree.encodeAll, length_append] at hlen
    have ht : Item t.encode := t.item_encode (by omega)
    obtain ⟨-, rfl⟩ := ht.append_inj hitem hu
    exact ⟨t, ts, hd, rfl, hs', hleft⟩

theorem Reads.map (h : Reads st dec) (f : α → β) : Reads st fun s => mapOk f (dec s) where
  fresh hs hok := by
    obtain ⟨a, hok, -⟩ := mapOk_ok hok
    exact h.fresh hs hok
  ahead hs hok := by
    obtain ⟨a, hok, -⟩ := mapOk_ok hok
    exact h.ahead hs hok
  fails hs hleft herr := h.fails hs hleft (mapOk_error herr)
  kindError hk := by
    rcases h.kindError hk with h | h
    · left; rw [h]; rfl
    · right; rw [h]; rfl
  again hk hk1 := by rw [h.again hk hk1]

/-! ## Strings and integers -/

section
variable {s s' : Stream} {hd : Option Head} {u : Bytes} {us : List Bytes} {e : Err}

section
variable (hs : s.Sees hd u us)
include hs

theorem uint_fails {maxbits : Nat} (herr : mapError wrapStreamError (s.uint maxbits) = .error e s') :
    Stream.Fails hd u us e s' := by
  obtain ⟨e', huint, rfl⟩ := mapError_error herr
  exact (hs.uint_fails huint).wrap

theorem decodeBool_fails (herr : decodeBool s = .error e s') : Stream.Fails hd u us e s' := by
  obtain ⟨e', hbool, rfl⟩ := mapError_error herr
  unfold Stream.bool at hbool
  split at hbool
  next huint =>
    cases hbool
    exact (hs.uint_fails huint).wrap
  · cases hbool
  · cases hbool
  · cases hbool
    exact .inr ⟨nofun, nofun⟩

theorem decodeByteSlice_fails (herr : decodeByteSlice s = .error e s') : Stream.Fails hd u us e s' := by
  obtain ⟨e', hbytes, rfl⟩ := mapError_error herr
  exact (hs.bytes_fails hbytes).wrap

theorem decodeBigInt_fails (herr : decodeBigInt s = .error e s') : Stream.Fails hd u us e s' := by
  unfold decodeBigInt at herr
  split at herr
  next hbytes =>
    cases herr
    exact (hs.bytes_fails hbytes).wrap
  · split at herr
    · cases herr
      exact .inr ⟨nofun, nofun⟩
    · cases herr

end

end

theorem reads_uint (maxbits : Nat) : Reads False fun s => mapError wrapStreamError (s.uint maxbits) where
  fresh hs hok := by
    obtain ⟨item, rest, hitem, hu, hs'⟩ := hs.uint_ok (mapError_ok hok)
    exact ⟨item, rest, none, hitem, hu, hs', .inl rfl⟩
  ahead hs hok := by
    have huint := hs.uint_byte maxbits
    rw [if_pos rfl] at huint
    cases huint.symm.trans (mapError_ok hok)
  fails hs _ herr := .inl (uint_fails hs herr)
  kindError hk := .inr (by rw [(Stream.kindFirst_uint _).error hk]; rfl)
  again hk hk1 := by rw [(Stream.kindFirst_uint _).again hk hk1]

theorem bool_ok {b : Bool} (h : s.bool = .ok b s') : s.uint 8 = .ok b.toNat s' := by
  unfold Stream.bool at h
  split at h
  · cases h
  · cases h; assumption
  · cases h; assumption
  · cases h

theorem reads_bool : Reads False decodeBool where
  fresh hs hok := (reads_uint 8).fresh hs (congrArg (mapError _) (bool_ok (mapError_ok hok)))
  ahead hs hok := (reads_uint 8).ahead hs (congrArg (mapError _) (bool_ok (mapError_ok hok)))
  fails hs _ herr := .inl (decodeBool_fails hs herr)
  kindError hk := .inr (by unfold decodeBool Stream.bool; rw [(Stream.kindFirst_uint _).error hk]; rfl)
  again hk hk1 := by unfold decodeBool Stream.bool; rw [(Stream.kindFirst_uint _).again hk hk1]

theorem reads_byteSlice : Reads False decodeByteSlice where
  fresh hs hok := by
    obtain ⟨rest, hu, hlen, hs'⟩ := hs.bytes_ok (mapError_ok hok)
    exact ⟨_, rest, none, item_encodeString hlen, hu, hs', .inl rfl⟩
  ahead hs hok := by
    obtain ⟨s1, hbytes, hs1⟩ := hs.bytes_byte
    cases hbytes.symm.trans (mapError_ok hok)
    exact ⟨none, hs1, .inl rfl⟩
  fails hs _ herr := .inl (decodeByteSlice_fails hs herr)
  kindError hk := .inr (by unfold decodeByteSlice; rw [Stream.kindFirst_bytes.error hk]; rfl)
  again hk hk1 := by unfold decodeByteSlice; rw [Stream.kindFirst_bytes.again hk hk1]

theorem decodeBigInt_ok {i : Int} (h : decodeBigInt s = .ok i s') :
    ∃ b, s.bytes = .ok b s' ∧ b.head? ≠ some 0 := by
  unfold decodeBigInt at h
  split at h
  · cases h
  next b s1 hbytes =>
    split at h
    · cases h
    next hhead =>
      cases h
      exact ⟨b, hbytes, hhead⟩

theorem reads_bigInt : Reads False decodeBigInt where
  fresh hs hok := by
    obtain ⟨b, hbytes, -⟩ := decodeBigInt_ok hok
    exact reads_byteSlice.fresh hs (congrArg (mapError _) hbytes)
  ahead hs hok := by
    obtain ⟨b, hbytes, hhead⟩ := decodeBigInt_ok hok
    obtain ⟨s1, hzero, -⟩ := hs.bytes_byte
    cases hzero.symm.trans hbytes
    exact absurd rfl hhead
  fails hs _ herr := .inl (decodeBigInt_fails hs herr)
  kindError hk := .inr (by unfold decodeBigInt; rw [Stream.kindFirst_bytes.error hk])
  again hk hk1 := by unfold decodeBigInt; rw [Stream.kindFirst_bytes.again hk hk1]

/-! ## Byte arrays -/

section
variable {s s' : Stream} {u : Bytes} {us : List Bytes} {n : Nat}

/-- **The byte `0x00` is decoded and stays.** -/
theorem byteArray_zero (hs : s.Sees (some (.byte 0)) u us) : decodeByteArray 1 s = .ok ⟨[0], rfl⟩ s := by
  have huint := hs.uint_byte 64
  rw [if_pos rfl] at huint
  unfold decodeByteArray
  rw [hs.nextKind]
  dsimp only [headKind]
  rw [if_neg (by omega), dif_pos rfl, huint]

theorem byteArray_byte {b : UInt8} (hs : s.Sees (some (.byte b)) u us) (hb : b ≠ 0) :
    ∃ s', decodeByteArray 1 s = .ok ⟨[b], rfl⟩ s' ∧ s'.Sees none u us := by
  have huint := hs.uint_byte 64
  rw [if_neg hb] at huint
  obtain ⟨s1, huint, hs1⟩ := huint
  unfold decodeByteArray
  rw [hs.nextKind]
  dsimp only [headKind]
  rw [if_neg (by omega), dif_pos rfl, huint]
  exact ⟨s1, by simp, hs1⟩

theorem byteArray_misfit {hd : Head} (hs : s.Sees (some hd) u us)
    (hne : match hd with | .byte _ => n ≠ 1 | .string m => m ≠ n | .list _ => True) :
    ∃ e, decodeByteArray n s = .error e s ∧ e.Plain := by
  unfold decodeByteArray
  rw [hs.nextKind]
  cases hd with
  | list m => exact ⟨_, rfl, nofun, nofun⟩
  | byte b =>
    dsimp only [headKind] at hne ⊢
    split
    · exact ⟨_, rfl, nofun, nofun⟩
    · exact ⟨_, rfl, nofun, nofun⟩
  | string m =>
    dsimp only [headKind, Head.size] at hne ⊢
    split
    · exact ⟨_, rfl, nofun, nofun⟩
    · rw [if_pos (by omega)]
      exact ⟨_, rfl, nofun, nofun⟩

/-- A string of the length of the array, which is no small byte. -/
theorem byteArray_string (hs : s.Sees (some (.string n)) u us) :
    if n = 1 ∧ (u.take n).head?.any (·.toNat < 128) then ∃ e s', decodeByteArray n s = .error e s' ∧ e.Plain
    else ∃ hb s', decodeByteArray n s = .ok ⟨u.take n, hb⟩ s' ∧ s'.Sees none (u.drop n) us := by
  have hle : n ≤ u.length := hs.fits _ rfl
  have hlen : (u.take n).length = n := length_take_of_le hle
  obtain ⟨s1, hread, hs1⟩ := hs.readFull hle
  have heq : decodeByteArray n s = if n = 1 && (u.take n).head?.any (·.toNat < 128) then
      .error (wrapStreamError .canonSize) s1 else .ok ⟨u.take n, hlen⟩ s1 := by
    unfold decodeByteArray
    rw [hs.nextKind]
    dsimp only [headKind, Head.size] at hread ⊢
    rw [if_neg (Nat.lt_irrefl n), if_neg (Nat.lt_irrefl n), hread]
    dsimp only
    rw [dif_pos hlen]
  rw [heq]
  split
  next hsmall =>
    rw [if_pos (by simpa using hsmall)]
    exact ⟨_, _, rfl, nofun, nofun⟩
  next hsmall =>
    rw [if_neg (by simpa using hsmall)]
    exact ⟨hlen, s1, rfl, hs1⟩

end

theorem kindFirst_byteArray (n : Nat) : Stream.KindFirst (decodeByteArray n) :=
  ⟨fun h => by unfold decodeByteArray; rw [h], fun h h1 => by unfold decodeByteArray; rw [h, h1]⟩

/-- What is decoded to an array was written as its bytes. -/
theorem byteArray_spec {hd : Head} (hs : s.Sees (some hd) u us) :
    match decodeByteArray n s with
    | .ok _ s' => hd.Valid → ∃ item rest hd', Item item ∧ hd.bytes ++ u = item ++ rest ∧ s'.Sees hd' rest us ∧ Left (n = 1) hd'
    | .error e _ => e.Plain := by
  cases hd with
  | list m =>
    obtain ⟨e, herr, hplain⟩ := byteArray_misfit (n := n) hs trivial
    rw [herr]
    exact hplain
  | byte b =>
    by_cases hn : n = 1
    · subst hn
      by_cases hzero : b = 0
      · subst hzero
        rw [byteArray_zero hs]
        exact fun hv => ⟨[0], u, _, Stream.item_byte hv, rfl, hs, .inr ⟨rfl, rfl⟩⟩
      · obtain ⟨s1, hbyte, hs1⟩ := byteArray_byte hs hzero
        rw [hbyte]
        exact fun hv => ⟨[b], u, none, Stream.item_byte hv, rfl, hs1, .inl rfl⟩
    · obtain ⟨e, herr, hplain⟩ := byteArray_misfit hs hn
      rw [herr]
      exact hplain
  | string m =>
    by_cases hm : m = n
    · subst hm
      have hstring := byteArray_string hs
      split at hstring
      · obtain ⟨e, s1, herr, hplain⟩ := hstring
        rw [herr]
        exact hplain
      next hsmall =>
        obtain ⟨hlen, s1, hstring, hs1⟩ := hstring
        rw [hstring]
        intro hv
        have hvalid : m < 256 ^ 8 := hv
        refine ⟨_, _, none, item_encodeString (hlen.trans_lt hvalid), ?_, hs1, .inl rfl⟩
        rw [Stream.encodeString_of_not_small hlen hsmall, append_assoc, take_append_drop]
    · obtain ⟨e, herr, hplain⟩ := byteArray_misfit hs hm
      rw [herr]
      exact hplain

theorem byteArray_ok {v : { b : Bytes // b.length = n }}
    (hs : s.Sees none u us) (hok : decodeByteArray n s = .ok v s') :
    ∃ item rest hd, Item item ∧ u = item ++ rest ∧ s'.Sees hd rest us ∧ Left (n = 1) hd := by
  obtain ⟨hd, rest, s1, hv, rfl, hs1, hok⟩ := (kindFirst_byteArray n).ok hs hok
  have hspec := byteArray_spec (n := n) hs1
  rw [hok] at hspec
  exact hspec hv

theorem byteArray_fails
    (hs : s.Sees hd u us) (herr : decodeByteArray n s = .error e s') : Stream.Fails hd u us e s' := by
  refine (kindFirst_byteArray n).fails hs herr fun hs1 herr => ?_
  have hspec := byteArray_spec (n := n) hs1
  rwa [herr] at hspec

theorem reads_byteArray (n : Nat) : Reads (n = 1) (decodeByteArray n) where
  fresh := byteArray_ok
  ahead {s s' u us v} hs hok := by
    by_cases hn : n = 1
    · subst hn
      cases (byteArray_zero hs).symm.trans hok
      exact ⟨_, hs, .inr ⟨rfl, rfl⟩⟩
    · obtain ⟨e, herr, -⟩ := byteArray_misfit hs hn
      cases herr.symm.trans hok
  fails hs _ herr := .inl (byteArray_fails hs herr)
  kindError hk := .inl ((kindFirst_byteArray n).error hk)
  again hk hk1 := (kindFirst_byteArray n).again hk hk1

/-! ## Slices -/

section
variable {us : List Bytes} {s' : Stream} {turns : Nat}

/-- The loop ends at the end of the list. -/
theorem Consumes.loops (h : Consumes st dec) {s : Stream} {hd : Option Head} {u : Bytes} {vs : List α}
    (hloops : Loops dec turns s vs s') (hs : s.Sees hd u us) (hleft : Left True hd) : s'.Sees none [] us := by
  induction hloops generalizing hd u with
  | eol hdec =>
    rcases h.fails hs hleft hdec with (⟨-, -, -, -, hs1⟩ | hplain) | hex
    · exact hs1
    · exact absurd rfl hplain.1
    · cases hex
  | cons hdec _ ih =>
    obtain ⟨hd', u', hs1, hleft', -⟩ := h.step hs hleft hdec
    exact ih hs1 hleft'

theorem Consumes.breaks (h : Consumes st dec) {s : Stream} {hd : Option Head} {u : Bytes} {e : Err}
    (hbreaks : Breaks dec turns s e s') (hs : s.Sees hd u us) (hleft : Left True hd) : e.Plain ∨ e = .exhausted := by
  induction hbreaks generalizing hd u with
  | turns => exact .inr rfl
  | elem ctx hdec he =>
    rcases h.fails hs hleft hdec with (⟨heol, -⟩ | hplain) | rfl
    · exact absurd heol he
    · exact .inl (hplain.addContext ctx)
    · exact .inr rfl
  | later hdec _ ih =>
    obtain ⟨hd', u', hs1, hleft', -⟩ := h.step hs hleft hdec
    exact ih hs1 hleft'

/-- There is an element for every item, and one for what was left of the item before. -/
theorem Consumes.length_loops (h : Consumes st dec) {s : Stream} {hd : Option Head} {ts : List Tree} {vs : List α}
    (hloops : Loops dec turns s vs s') (hlen : (Tree.encodeAll ts).length < 256 ^ 8) (hs : s.Sees hd (Tree.encodeAll ts) us)
    (hleft : Left True hd) : ts.length ≤ vs.length ∧ (hd ≠ none → ts.length < vs.length) := by
  induction hloops generalizing hd ts with
  | eol hdec =>
    rcases h.fails hs hleft hdec with (⟨-, rfl, hnil, -⟩ | hplain) | hex
    · have hcount := Tree.length_le_encodeAll ts
      rw [hnil] at hcount
      exact ⟨hcount.trans (Nat.zero_le _), absurd rfl⟩
    · exact absurd rfl hplain.1
    · cases hex
  | cons hdec _ ih =>
    rw [length_cons]
    rcases hleft with rfl | ⟨-, rfl⟩
    · obtain ⟨t, ts', hd', rfl, hs1, hleft'⟩ := h.next hlen hs hdec
      rw [Tree.encodeAll, length_append] at hlen
      have hcount := (ih (by omega) hs1 hleft'.weaken).1
      exact ⟨by rw [length_cons]; omega, absurd rfl⟩
    · obtain ⟨hd', hs1, hleft'⟩ := h.ahead hs hdec
      have hcount := (ih hlen hs1 hleft'.weaken).1
      exact ⟨by omega, fun _ => by omega⟩

end

/-! ## Lists -/

theorem decodeInList_between (inside : Stream → Res α) : decodeInList inside = between wrapStreamError fun _ => inside := rfl

/-- A list that can be left has been read to its end. -/
theorem Stream.Sees.nil_of_listEnd (hs : s.Sees hd u us) (h : s.listEnd = .ok () s') : u = [] := by
  cases u with
  | nil => rfl
  | cons b u =>
    obtain ⟨e, herr⟩ := hs.listEnd_error
    cases herr.symm.trans h

theorem Stream.Sees.not_list_ahead (hs : s.Sees (some (.byte 0)) u us) : s.list ≠ .ok n s' := by
  intro hok
  cases (hs.list_other nofun).symm.trans hok

theorem reads_between {wrap : Err → Err} {inside : Nat → Stream → Res α} (hwrap : ∀ {e : Err}, e.Plain → (wrap e).Plain)
    (h : ∀ n, Inside (inside n)) : Reads False (between wrap inside) where
  fresh {s s' u us v} hs hok := by
    obtain ⟨n, s1, s2, hl, hin, hend⟩ := between_ok hok
    obtain ⟨p, rest, rfl, hp, hn, hs1⟩ := hs.list_ok hl
    obtain ⟨hd', u', hs2⟩ := (h n).ok hs1 (.inl rfl) hin
    obtain rfl := hs2.nil_of_listEnd hend
    obtain ⟨s3, hend', hs3⟩ := hs2.listEnd
    cases hend'.symm.trans hend
    exact ⟨_, rest, none, item_encodeList (hp.trans_lt hn), rfl, hs3, .inl rfl⟩
  ahead hs hok := by
    obtain ⟨n, s1, s2, hl, -⟩ := between_ok hok
    exact absurd hl hs.not_list_ahead
  fails {s s' hd u us e} hs hleft herr := by
    rcases between_fails herr with ⟨e1, hl, rfl⟩ | ⟨n, s1, hl, hin⟩
    · exact .inl (hs.list_fails hl).wrap
    · rcases hleft with rfl | ⟨-, rfl⟩
      · obtain ⟨p, rest, -, -, -, hs1⟩ := hs.list_ok hl
        rcases hin with hin | ⟨e1, hplain, rfl⟩
        · exact ((h n).fails hs1 (.inl rfl) hin).imp_left .inr
        · exact .inl (.inr (hwrap hplain))
      · exact absurd hl hs.not_list_ahead
  kindError hk := .inr (between_error (Stream.kindFirst_list.error hk))
  again hk hk1 := between_again (Stream.kindFirst_list.again hk hk1)

theorem Inside.inList {inside : Stream → Res α} (h : Inside inside) : Reads False (decodeInList inside) :=
  reads_between Err.Plain.wrap fun _ => h

theorem Consumes.sliceElems (h : Consumes st dec) (turns n : Nat) : Inside (sliceElems dec turns n) where
  ok {s s' hd u us vs} hs hleft hok := by
    rcases sliceElems_ok hok with ⟨-, -, rfl⟩ | hok
    · exact ⟨hd, u, hs⟩
    · exact ⟨none, [], h.loops (.of_ok hok) hs hleft⟩
  fails hs hleft herr := h.breaks (sliceElems_fails herr) hs hleft

theorem Consumes.listSlice (h : Consumes st dec) (turns : Nat) : Reads False (decodeListSlice dec turns) := by
  rw [decodeListSlice_between]
  exact reads_between id (h.sliceElems turns)

/-! ## Arrays and fields -/

/-- Two decoders in turn, where the errors of the first are wrapped: a field and the fields behind it. -/
def inTurn (f : Err → Err) (dec : Stream → Res α) (rest : Stream → Res β) (s : Stream) : Res (α × β) :=
  match dec s with
  | .error e s => .error (f e) s
  | .ok v s =>
    match rest s with
    | .error e s => .error e s
    | .ok vs s => .ok (v, vs) s

/-- How the errors of an element are wrapped. -/
def elemError (i : Nat) : Err → Err
  | .eol => .decode "input list has too few elements" []
  | e => addErrorContext e s!"[{i}]"

theorem decodeArrayElems_succ (n i : Nat) : decodeArrayElems dec (n + 1) i = fun s =>
    mapOk (fun p => ⟨p.1 :: p.2.val, congrArg (· + 1) p.2.property⟩)
      (inTurn (elemError i) dec (decodeArrayElems dec n (i + 1)) s) := by
  funext s
  rw [decodeArrayElems, inTurn]
  cases dec s with
  | error e s1 => cases e <;> rfl
  | ok v s1 =>
    dsimp only
    cases decodeArrayElems dec n (i + 1) s1 <;> rfl

/-- Running out of turns stays what it is, and all other errors get plain. -/
structure Wraps (f : Err → Err) : Prop where
  plain : ∀ {e}, e ≠ .exhausted → (f e).Plain
  exhausted : f .exhausted = .exhausted

theorem wraps_fieldError (name : String) : Wraps (fieldError name) := by
  refine ⟨fun {e} h => ?_, rfl⟩
  cases e <;> first | exact absurd rfl h | exact ⟨nofun, nofun⟩

theorem wraps_elemError (i : Nat) : Wraps (elemError i) := by
  refine ⟨fun {e} h => ?_, rfl⟩
  cases e <;> first | exact absurd rfl h | exact ⟨nofun, nofun⟩

section
variable {f : Err → Err} {rest : Stream → Res β} {s s1 s2 s' : Stream}

theorem inTurn_error {e : Err} (h : dec s = .error e s1) : inTurn f dec rest s = .error (f e) s1 := by
  unfold inTurn
  rw [h]

theorem inTurn_rest {e : Err} (h : dec s = .ok v s1) (hrest : rest s1 = .error e s2) :
    inTurn f dec rest s = .error e s2 := by
  unfold inTurn
  rw [h]
  dsimp only
  rw [hrest]

theorem inTurn_cons {vs : β} (h : dec s = .ok v s1) (hrest : rest s1 = .ok vs s2) :
    inTurn f dec rest s = .ok (v, vs) s2 := by
  unfold inTurn
  rw [h]
  dsimp only
  rw [hrest]

theorem inTurn_ok {v : α × β} (h : inTurn f dec rest s = .ok v s') :
    ∃ s1, dec s = .ok v.1 s1 ∧ rest s1 = .ok v.2 s' := by
  cases hdec : dec s with
  | error e s1 => cases (inTurn_error hdec).symm.trans h
  | ok a s1 =>
    cases hrest : rest s1 with
    | error e s2 => cases (inTurn_rest hdec hrest).symm.trans h
    | ok b s2 =>
      cases (inTurn_cons hdec hrest).symm.trans h
      exact ⟨s1, rfl, hrest⟩

theorem inTurn_fails {e : Err} (h : inTurn f dec rest s = .error e s') :
    (∃ e1, dec s = .error e1 s' ∧ e = f e1) ∨ ∃ v s1, dec s = .ok v s1 ∧ rest s1 = .error e s' := by
  cases hdec : dec s with
  | error e1 s1 =>
    cases (inTurn_error hdec).symm.trans h
    exact .inl ⟨e1, rfl, rfl⟩
  | ok v s1 =>
    cases hrest : rest s1 with
    | error e2 s2 =>
      cases (inTurn_rest hdec hrest).symm.trans h
      exact .inr ⟨v, s1, rfl, hrest⟩
    | ok vs s2 => cases (inTurn_cons hdec hrest).symm.trans h

theorem Consumes.inTurn (h : Consumes st dec) (hf : Wraps f) (hrest : Inside rest) : Inside (inTurn f dec rest) where
  ok hs hleft hok := by
    obtain ⟨s1, hdec, hok'⟩ := inTurn_ok hok
    obtain ⟨hd', u', hs1, hleft', -⟩ := h.step hs hleft hdec
    exact hrest.ok hs1 hleft' hok'
  fails {s s' hd u us e} hs hleft herr := by
    rcases inTurn_fails herr with ⟨e1, -, rfl⟩ | ⟨v, s1, hdec, hr⟩
    · by_cases he : e1 = .exhausted
      · subst he
        exact .inr hf.exhausted
      · exact .inl (hf.plain he)
    · obtain ⟨hd', u', hs1, hleft', -⟩ := h.step hs hleft hdec
      exact hrest.fails hs1 hleft' hr

end

theorem Inside.map {inside : Stream → Res α} (h : Inside inside) (g : α → β) : Inside fun s => mapOk g (inside s) where
  ok hs hleft hok := by
    obtain ⟨a, hok, -⟩ := mapOk_ok hok
    exact h.ok hs hleft hok
  fails hs hleft herr := h.fails hs hleft (mapOk_error herr)

theorem Consumes.arrayElems (h : Consumes st dec) : ∀ n i : Nat, Inside (decodeArrayElems dec n i)
  | 0, _ => ⟨fun hs _ hok => by cases hok; exact ⟨_, _, hs⟩, nofun⟩
  | n + 1, i => by
    rw [decodeArrayElems_succ]
    exact (h.inTurn (wraps_elemError i) (h.arrayElems n (i + 1))).map _

theorem inside_nil : Inside fun s => (.ok () s : Res Unit) :=
  ⟨fun hs _ hok => by cases hok; exact ⟨_, _, hs⟩, nofun⟩

theorem Consumes.tail (h : Consumes st dec) (name : String) (turns : Nat) :
    Inside fun s => mapError (fieldError name) (decodeSliceElems dec turns 0 s) where
  ok hs hleft hok := ⟨none, [], h.loops (.of_ok (mapError_ok hok)) hs hleft⟩
  fails hs hleft herr := by
    obtain ⟨e', herr', rfl⟩ := mapError_error herr
    rcases h.breaks (.of_error herr') hs hleft with hplain | rfl
    · exact .inl ((wraps_fieldError name).plain hplain.2)
    · exact .inr rfl

/-! ## Pointers with the tag nil -/

section
variable {s s1 s' : Stream}

theorem decodeOptionalPtr_error {e : Err} (hk : s.nextKind = .error e s1) :
    decodeOptionalPtr dec s = .error e { s1 with kind := none } := by
  unfold decodeOptionalPtr
  rw [hk]

/-- An empty string or list is a nil pointer. -/
theorem decodeOptionalPtr_nil {kind : Kind} (hk : s.nextKind = .ok (kind, 0) s1) (hkind : kind ≠ .byte) :
    decodeOptionalPtr dec s = .ok none { s1 with kind := none } := by
  unfold decodeOptionalPtr
  rw [hk]
  dsimp only
  rw [if_pos (by simpa using hkind)]

theorem decodeOptionalPtr_some (h : Reads st dec) {kind : Kind} (hk : s.nextKind = .ok (kind, n) s1)
    (hk1 : s1.nextKind = .ok (kind, n) s1) (hne : ¬ (n = 0 ∧ kind ≠ .byte)) : decodeOptionalPtr dec s = mapOk some (dec s) := by
  unfold decodeOptionalPtr
  rw [hk]
  dsimp only
  rw [if_neg (by simpa using hne), ← h.again hk hk1]

end

theorem Reads.optional (h : Reads st dec) : Consumes st (decodeOptionalPtr dec) where
  fresh {s s' u us v} hs hok := by
    cases hk : s.nextKind with
    | error e s1 =>
      rw [decodeOptionalPtr_error hk] at hok
      cases hok
    | ok r s1 =>
      obtain ⟨kind, n⟩ := r
      by_cases hnil : n = 0 ∧ kind ≠ .byte
      · obtain ⟨hd, rest, rfl, hn, hs1, hu⟩ := hs.nextKind_ok hk
        obtain ⟨-, hv, rfl⟩ := hu.resolve_left fun hu => nomatch hu.1
        rw [hnil.1] at hk
        rw [decodeOptionalPtr_nil hk hnil.2] at hok
        cases hok
        refine ⟨hd.bytes, rest, none, ?_, rfl, hs1.clear, .inl rfl⟩
        have hsize : hd.size = 0 := hn.symm.trans hnil.1
        have hpos : List.length ([] : Bytes) < 256 ^ 8 := Nat.pow_pos (by omega)
        cases hd with
        | byte b => exact absurd rfl hnil.2
        | string m =>
          have hitem := item_encodeString hpos
          rwa [Stream.encodeString_of_big (.inr rfl), append_nil, length_nil, ← show m = 0 from hsize] at hitem
        | list m =>
          have hitem := item_encodeList hpos
          rwa [encodeList, append_nil, length_nil, ← show m = 0 from hsize] at hitem
      · rw [decodeOptionalPtr_some h hk (hs.nextKind_again hk) hnil] at hok
        exact (h.map some).fresh hs hok
  ahead hs hok := by
    rw [decodeOptionalPtr_some h hs.nextKind hs.nextKind (by simp [headKind])] at hok
    exact (h.map some).ahead hs hok
  fails {s s' hd u us e} hs hleft herr := by
    cases hk : s.nextKind with
    | error e1 s1 =>
      rw [decodeOptionalPtr_error hk] at herr
      cases herr
      rcases hs.nextKind_error hk with ⟨he, hnone, hnil, hne, hs1⟩ | hplain
      · refine .inl (.inl ⟨he, hnone, hnil, hne, ?_⟩)
        exact ⟨rfl, nofun, hs1.input, hs1.remaining, hs1.limited, hs1.nested⟩
      · exact .inl (.inr hplain)
    | ok r s1 =>
      obtain ⟨kind, n⟩ := r
      by_cases hnil : n = 0 ∧ kind ≠ .byte
      · obtain ⟨rfl, hkind⟩ := hnil
        rw [decodeOptionalPtr_nil hk hkind] at herr
        cases herr
      · rw [decodeOptionalPtr_some h hk (hs.nextKind_again hk) hnil] at herr
        exact (h.map some).fails hs hleft herr

/-! ## All types -/

mutual
/-- **Every decoder takes one item**, or what was left of the one before. -/
theorem Ty.reads (turns : Nat) : ∀ t : Ty, Reads t.HasSticky (t.decode turns)
  | .uint w => (reads_uint (8 * w.size)).map _
  | .bool => reads_bool
  | .string | .bytes => reads_byteSlice
  | .bigInt => reads_bigInt
  | .byteArray n => reads_byteArray n
  | .slice elem => (Ty.reads turns elem).listSlice turns
  | .array n elem => ((Ty.reads turns elem).arrayElems n 0).inList
  | .ptr elem => (Ty.reads turns elem).map some
  | .struct fields => (Fields.inside turns fields).inList

theorem Fields.inside (turns : Nat) : ∀ fs : Fields, Inside (fs.decode turns)
  | .nil => inside_nil
  | .tail name elem => (Ty.reads turns elem).tail name turns
  | .cons name t rest => (Ty.reads turns t).inTurn (wraps_fieldError name) (Fields.inside turns rest)
  | .opt name elem rest => (Ty.reads turns elem).optional.inTurn (wraps_fieldError name) (Fields.inside turns rest)
end

end Bgmchain.RLP
