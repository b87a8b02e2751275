import Bgmchain.Lib.BigEndian

/-! # Recursive length prefix encoding

The byte format of items that are either strings or lists of items. `split`
reads one item off the front and accepts canonical sizes only, so that what is
written is read back and nothing follows a complete item. -/
namespace Lib.Rlp
open List

/-- A number as bytes without leading zeros. -/
def minimal (n : Nat) : List UInt8 := ((Nat.digits 256 n).reverse).map UInt8.ofNat

/-- The size header of a string (`off = 0x80`) or list (`off = 0xC0`). -/
def sizeHeader (off n : Nat) : List UInt8 :=
  if n < 56 then [UInt8.ofNat (off + n)]
  else UInt8.ofNat (off + 55 + (minimal n).length) :: minimal n

def encodeString (bs : List UInt8) : List UInt8 :=
  match bs with
  | [b] => if b.toNat < 0x80 then [b] else sizeHeader 0x80 1 ++ [b]
  | bs => sizeHeader 0x80 bs.length ++ bs

def encodeNat (n : Nat) : List UInt8 := encodeString (minimal n)

/-- A list whose items, already encoded, are joined in `payload`. -/
def encodeList (payload : List UInt8) : List UInt8 := sizeHeader 0xC0 payload.length ++ payload

inductive Kind where
  | string
  | list
deriving DecidableEq

/-- The size that follows a long header: no leading zero, and 56 at least. -/
def readSize (k : Nat) (bs : List UInt8) : Option (Nat × List UInt8) :=
  let size := bs.take k
  if size.length < k ∨ size.head? = some 0 ∨ Lib.BigEndian.decode size < 56 then none
  else some (Lib.BigEndian.decode size, bs.drop k)

def readContents (kind : Kind) (n : Nat) (bs : List UInt8) :
    Option (Kind × List UInt8 × List UInt8) :=
  if bs.length < n then none else some (kind, bs.take n, bs.drop n)

/-- The kind and contents of the first item, and what follows it. -/
def split : List UInt8 → Option (Kind × List UInt8 × List UInt8)
  | [] => none
  | b :: rest =>
    if b.toNat < 0x80 then some (.string, [b], rest)
    else if b.toNat < 0xB8 then
      match readContents .string (b.toNat - 0x80) rest with
      -- a single small byte must be written as itself
      | some (kind, [c], rest') => if c.toNat < 0x80 then none else some (kind, [c], rest')
      | r => r
    else if b.toNat < 0xC0 then
      (readSize (b.toNat - 0xB7) rest).bind fun (n, rest') => readContents .string n rest'
    else if b.toNat < 0xF8 then readContents .list (b.toNat - 0xC0) rest
    else (readSize (b.toNat - 0xF7) rest).bind fun (n, rest') => readContents .list n rest'

/-- The items of a list of strings of one length. Each item takes a byte, so the
length of the input is fuel enough. -/
def splitFixed (n : Nat) : Nat → List UInt8 → Option (List { bs : List UInt8 // bs.length = n })
  | _, [] => some []
  | 0, _ :: _ => none
  | f + 1, b :: bs =>
    match split (b :: bs) with
    | some (.string, c, rest) =>
      if h : c.length = n then (splitFixed n f rest).map (⟨c, h⟩ :: ·) else none
    | _ => none

/-- A whole input that is one list of strings of length `n`. -/
def decodeFixedList (n : Nat) (bs : List UInt8) : Option (List { bs : List UInt8 // bs.length = n }) :=
  match split bs with
  | some (.list, payload, []) => splitFixed n payload.length payload
  | _ => none

def encodeFixedList {n : Nat} (items : List { bs : List UInt8 // bs.length = n }) : List UInt8 :=
  encodeList (items.flatMap fun item => encodeString item.val)

/-! ## Reading back what was written -/

theorem decode_digits {ds : List Nat} (h : ∀ d ∈ ds, d < 256) :
    Lib.BigEndian.decode (ds.reverse.map UInt8.ofNat) = Nat.ofDigits 256 ds := by
  induction ds with
  | nil => rfl
  | cons d ds ih =>
    have hd : d % 256 = d := Nat.mod_eq_of_lt (h d mem_cons_self)
    have hb : (UInt8.ofNat d).toNat = d := by rw [UInt8.toNat_ofNat', hd]
    rw [reverse_cons, map_append, map_singleton, Lib.BigEndian.decode_concat, hb,
      ih fun e he => h e (mem_cons_of_mem _ he), Nat.ofDigits_cons]
    omega

theorem decode_minimal (n : Nat) : Lib.BigEndian.decode (minimal n) = n := by
  rw [minimal, decode_digits fun d hd => Nat.digits_lt_base (by omega) hd, Nat.ofDigits_digits]

theorem head_minimal (n : Nat) : (minimal n).head? ≠ some 0 := by
  by_cases hn : n = 0
  · simp [hn, minimal]
  · have hne : Nat.digits 256 n ≠ [] := Nat.digits_ne_nil_iff_ne_zero.mpr hn
    have hlast := Nat.getLast_digit_ne_zero 256 hn
    have hlt := Nat.digits_lt_base (b := 256) (by omega) (getLast_mem hne)
    intro h
    rw [minimal, head?_map, head?_reverse, getLast?_eq_some_getLast hne] at h
    have h0 : UInt8.ofNat ((Nat.digits 256 n).getLast hne) = 0 := by simpa using h
    have := congrArg UInt8.toNat h0
    rw [UInt8.toNat_ofNat', Nat.mod_eq_of_lt hlt] at this
    exact hlast (by simpa using this)

variable {n : Nat}

theorem length_minimal_le {k : Nat} (h : n < 256 ^ k) : (minimal n).length ≤ k := by
  simpa [minimal] using (Nat.digits_length_le_iff (by omega) n).mpr h

theorem minimal_ne_nil (h : n ≠ 0) : minimal n ≠ [] := by
  simp [minimal, Nat.digits_ne_nil_iff_ne_zero.mpr h]

theorem readSize_minimal (h : 56 ≤ n) (rest : List UInt8) :
    readSize (minimal n).length (minimal n ++ rest) = some (n, rest) := by
  have hd := decode_minimal n
  have hh := head_minimal n
  simp only [readSize, take_left', drop_left', hd]
  simp [hh]
  omega

theorem readContents_append (kind : Kind) (bs rest : List UInt8) :
    readContents kind bs.length (bs ++ rest) = some (kind, bs, rest) := by
  simp [readContents]

variable {payload : List UInt8}

/-- A header is one byte that holds the size, or one that holds the length of the size. -/
theorem sizeHeader_cases (h : n < 256 ^ 8) {off : Nat} (hoff : off ≤ 0xC0) :
    (n < 56 ∧ ∃ b, sizeHeader off n = [b] ∧ b.toNat = off + n) ∨
    56 ≤ n ∧ 0 < (minimal n).length ∧ (minimal n).length ≤ 8 ∧
      ∃ b, sizeHeader off n = b :: minimal n ∧ b.toNat = off + 55 + (minimal n).length := by
  unfold sizeHeader
  by_cases hs : n < 56
  · refine .inl ⟨hs, _, if_pos hs, ?_⟩
    rw [UInt8.toNat_ofNat']
    omega
  · have hlen := length_minimal_le h
    refine .inr ⟨by omega, length_pos_of_ne_nil (minimal_ne_nil (by omega)), hlen, _, if_neg hs, ?_⟩
    rw [UInt8.toNat_ofNat']
    omega

/-- **A list is read back whole.** -/
theorem split_encodeList (h : payload.length < 256 ^ 8) (rest : List UInt8) :
    split (encodeList payload ++ rest) = some (.list, payload, rest) := by
  unfold encodeList
  obtain ⟨hs, b, hhead, hb⟩ | ⟨hs, hpos, hlen, b, hhead, hb⟩ := sizeHeader_cases h (le_refl 0xC0)
  · simp only [hhead, cons_append, nil_append, Lib.Rlp.split, hb]
    rw [if_neg (by omega), if_neg (by omega), if_neg (by omega), if_pos (by omega), Nat.add_sub_cancel_left]
    exact readContents_append _ _ _
  · simp only [hhead, cons_append, append_assoc, Lib.Rlp.split, hb]
    rw [if_neg (by omega), if_neg (by omega), if_neg (by omega), if_neg (by omega), Nat.add_sub_cancel_left,
      readSize_minimal hs]
    exact readContents_append _ _ _

variable {bs : List UInt8}

/-- A small byte is written alone, and every other string behind its size. -/
theorem encodeString_cases (bs : List UInt8) : (∃ b, bs = [b] ∧ b.toNat < 0x80 ∧ encodeString bs = [b]) ∨
    (∀ b, bs = [b] → ¬ b.toNat < 0x80) ∧ encodeString bs = sizeHeader 0x80 bs.length ++ bs := by
  unfold encodeString
  split
  next b =>
    by_cases hb : b.toNat < 0x80
    · exact .inl ⟨b, rfl, hb, if_pos hb⟩
    · refine .inr ⟨?_, if_neg hb⟩
      rintro _ ⟨⟩
      exact hb
  next hne =>
    exact .inr ⟨fun b hb => absurd hb (hne b), rfl⟩

/-- **A string is read back whole**, as long as its size can be written. -/
theorem split_encodeString (h : bs.length < 256 ^ 8) (rest : List UInt8) :
    split (encodeString bs ++ rest) = some (.string, bs, rest) := by
  obtain ⟨b, rfl, hb, henc⟩ | ⟨hbig, henc⟩ := encodeString_cases bs
  · rw [henc]
    simp only [cons_append, nil_append, Lib.Rlp.split, if_pos hb]
  rw [henc]
  obtain ⟨hs, b, hhead, hb⟩ | ⟨hs, hpos, hlen, b, hhead, hb⟩ := sizeHeader_cases h (show 0x80 ≤ 0xC0 by omega)
  · simp only [hhead, cons_append, nil_append, Lib.Rlp.split, hb]
    rw [if_neg (by omega), if_pos (by omega), Nat.add_sub_cancel_left, readContents_append]
    split
    next kind c rest' heq =>
      cases heq
      rw [if_neg (hbig c rfl)]
    · rfl
  · simp only [hhead, cons_append, append_assoc, Lib.Rlp.split, hb]
    rw [if_neg (by omega), if_neg (by omega), if_pos (by omega), Nat.add_sub_cancel_left, readSize_minimal hs]
    exact readContents_append _ _ _

variable {rest : List UInt8}

theorem readContents_length {kind kind' : Kind} {c : List UInt8}
    (h : readContents kind n bs = some (kind', c, rest)) : kind' = kind ∧ c.length + rest.length = bs.length := by
  unfold readContents at h
  split at h
  · cases h
  · cases h
    refine ⟨rfl, ?_⟩
    rw [length_take, length_drop]
    omega

theorem readSize_length {k : Nat} (h : readSize k bs = some (n, rest)) : rest.length ≤ bs.length := by
  unfold readSize at h
  dsimp only at h
  split at h
  · cases h
  · cases h
    rw [length_drop]
    omega

/-- An item has a header, unless it is a single byte. -/
theorem split_length {c : List UInt8} {kind : Kind} (h : split bs = some (kind, c, rest)) :
    c.length + rest.length < bs.length ∨ kind = .string ∧ c.length = 1 ∧ rest.length + 1 = bs.length := by
  have hlong : ∀ {k : Nat} {kind0 : Kind} {b : UInt8} {bs : List UInt8},
      ((readSize k bs).bind fun (n, rest') => readContents kind0 n rest') = some (kind, c, rest) →
      c.length + rest.length < (b :: bs).length := by
    intro k kind0 b bs h
    obtain ⟨⟨n, rest'⟩, hsize, h⟩ := Option.bind_eq_some_iff.mp h
    have := readSize_length hsize
    have := (readContents_length h).2
    rw [length_cons]
    omega
  cases bs with
  | nil => cases h
  | cons b bs =>
    unfold split at h
    dsimp only at h
    split at h
    · cases h
      exact .inr ⟨rfl, rfl, rfl⟩
    · left
      split at h
      · have hread : readContents .string (b.toNat - 0x80) bs = some (kind, c, rest) := by
          split at h
          next hr =>
            split at h
            · cases h
            · rw [hr]
              exact h
          · exact h
        rw [length_cons, ← (readContents_length hread).2]
        omega
      · split at h
        · exact hlong h
        · split at h
          · rw [length_cons, ← (readContents_length h).2]
            omega
          · exact hlong h

theorem length_encodeString_pos (bs : List UInt8) : 0 < (encodeString bs).length := by
  unfold encodeString sizeHeader
  repeat' split
  all_goals simp

theorem encodeList_ne_nil (payload : List UInt8) : encodeList payload ≠ [] := by
  unfold encodeList sizeHeader
  split <;> simp

theorem splitFixed_flatMap (h : n < 256 ^ 8) (items : List { bs : List UInt8 // bs.length = n }) :
    ∀ f, (items.flatMap fun item => encodeString item.val).length ≤ f →
      splitFixed n f (items.flatMap fun item => encodeString item.val) = some items := by
  induction items with
  | nil => intro f _; simp [splitFixed]
  | cons item items ih =>
    intro f hf
    have hpos := length_encodeString_pos item.val
    have hs := split_encodeString (by rw [item.property]; omega : item.val.length < 256 ^ 8)
      (items.flatMap fun item => encodeString item.val)
    obtain ⟨b, bs, hb⟩ := exists_cons_of_length_pos hpos
    simp only [flatMap_cons, length_append] at hf ⊢
    obtain _ | f := f
    · omega
    rw [hb, cons_append] at hs ⊢
    simp only [splitFixed, hs, item.property, dite_true]
    rw [ih f (by omega)]
    rfl

/-- **A list of strings of one length is read back**, as long as its size can
be written. -/
theorem decodeFixedList_encode (h : n < 256 ^ 8) (items : List { bs : List UInt8 // bs.length = n })
    (hsize : (items.flatMap fun item => encodeString item.val).length < 256 ^ 8) :
    decodeFixedList n (encodeFixedList items) = some items := by
  have hs := split_encodeList hsize []
  rw [append_nil] at hs
  simp only [decodeFixedList, encodeFixedList, hs]
  exact splitFixed_flatMap h items _ le_rfl

/-! ## Items in a row -/

/-- The bytes of one item: `split` reads it off whatever follows. -/
def Item (bs : List UInt8) : Prop := ∃ kind contents, ∀ rest, split (bs ++ rest) = some (kind, contents, rest)

theorem item_encodeString (h : bs.length < 256 ^ 8) : Item (encodeString bs) :=
  ⟨.string, bs, split_encodeString h⟩

theorem item_encodeList (h : payload.length < 256 ^ 8) : Item (encodeList payload) :=
  ⟨.list, payload, split_encodeList h⟩

theorem Item.ne_nil (h : Item bs) : bs ≠ [] := by
  intro hnil
  obtain ⟨kind, contents, hsplit⟩ := h
  have := hsplit []
  rw [hnil] at this
  cases this

variable {a b : List UInt8}

/-- Two items at the front of one string are the same. -/
theorem Item.append_inj {x y : List UInt8} (ha : Item a) (hb : Item b) (h : a ++ x = b ++ y) :
    a = b ∧ x = y := by
  obtain ⟨_, _, hsa⟩ := ha
  obtain ⟨_, _, hsb⟩ := hb
  have hsplit := hsa x
  rw [h, hsb y] at hsplit
  cases hsplit
  exact ⟨append_cancel_right h, rfl⟩

variable {l l' : List (List UInt8)}

/-- **Items in a row can be told apart.** -/
theorem flatten_inj (h : ∀ bs ∈ l, Item bs) (h' : ∀ bs ∈ l', Item bs)
    (heq : l.flatten = l'.flatten) : l = l' := by
  induction l generalizing l' with
  | nil =>
    cases l' with
    | nil => rfl
    | cons b l' =>
      rw [flatten_nil, flatten_cons] at heq
      exact absurd (append_eq_nil_iff.mp heq.symm).1 (h' b mem_cons_self).ne_nil
  | cons a l ih =>
    cases l' with
    | nil =>
      rw [flatten_nil, flatten_cons] at heq
      exact absurd (append_eq_nil_iff.mp heq).1 (h a mem_cons_self).ne_nil
    | cons b l' =>
      rw [flatten_cons, flatten_cons] at heq
      obtain ⟨hab, hrest⟩ := (h a mem_cons_self).append_inj (h' b mem_cons_self) heq
      rw [hab, ih (fun bs hbs => h bs (mem_cons_of_mem _ hbs))
        (fun bs hbs => h' bs (mem_cons_of_mem _ hbs)) hrest]

theorem encodeString_inj (ha : a.length < 256 ^ 8) (hb : b.length < 256 ^ 8)
    (h : encodeString a = encodeString b) : a = b := by
  have hsa := split_encodeString ha []
  rw [h, split_encodeString hb []] at hsa
  cases hsa
  rfl

theorem length_le_encodeString (bs : List UInt8) : bs.length ≤ (encodeString bs).length := by
  obtain ⟨b, rfl, -, henc⟩ | ⟨-, henc⟩ := encodeString_cases bs <;> simp [henc]

theorem encodeList_inj {p q : List UInt8} (hp : p.length < 256 ^ 8) (hq : q.length < 256 ^ 8)
    (h : encodeList p = encodeList q) : p = q := by
  have hsp := split_encodeList hp []
  rw [h, split_encodeList hq []] at hsp
  cases hsp
  rfl

theorem encodeString_inj_of_length (hlen : (encodeString a).length < 256 ^ 8)
    (h : encodeString a = encodeString b) : a = b :=
  encodeString_inj ((length_le_encodeString a).trans_lt hlen)
    ((length_le_encodeString b).trans_lt (h ▸ hlen)) h

theorem encodeString_ne_encodeList {s : List UInt8} (hs : s.length < 256 ^ 8)
    (hp : payload.length < 256 ^ 8) : encodeString s ≠ encodeList payload := by
  intro h
  have hsplit := split_encodeString hs []
  rw [h, split_encodeList hp []] at hsplit
  cases hsplit

/-- What an encoder writes: a string or a list. -/
def Encoded (bs : List UInt8) : Prop := (∃ s, bs = encodeString s) ∨ ∃ payload, bs = encodeList payload

theorem encoded_encodeString (s : List UInt8) : Encoded (encodeString s) := .inl ⟨s, rfl⟩

theorem encoded_encodeList (payload : List UInt8) : Encoded (encodeList payload) := .inr ⟨payload, rfl⟩

theorem length_le_encodeList (payload : List UInt8) : payload.length ≤ (encodeList payload).length := by
  simp [encodeList]

theorem Encoded.item (h : Encoded bs) (hlen : bs.length < 256 ^ 8) : Item bs := by
  rcases h with ⟨s, rfl⟩ | ⟨payload, rfl⟩
  · exact item_encodeString ((length_le_encodeString s).trans_lt hlen)
  · exact item_encodeList ((length_le_encodeList payload).trans_lt hlen)

/-- **A list determines its items.** -/
theorem encodeList_flatten_inj (h : ∀ bs ∈ l, Encoded bs)
    (h' : ∀ bs ∈ l', Encoded bs) (hlen : (encodeList l.flatten).length < 256 ^ 8)
    (hlen' : (encodeList l'.flatten).length < 256 ^ 8)
    (heq : encodeList l.flatten = encodeList l'.flatten) : l = l' := by
  have hp := (length_le_encodeList _).trans_lt hlen
  have hp' := (length_le_encodeList _).trans_lt hlen'
  refine flatten_inj ?_ ?_ (encodeList_inj hp hp' heq)
  · intro bs hbs
    exact (h bs hbs).item ((sublist_flatten_of_mem hbs).length_le.trans_lt hp)
  · intro bs hbs
    exact (h' bs hbs).item ((sublist_flatten_of_mem hbs).length_le.trans_lt hp')

theorem length_le_of_mem (h : bs ∈ l) : bs.length ≤ (encodeList l.flatten).length :=
  (sublist_flatten_of_mem h).length_le.trans (length_le_encodeList _)

/-- A list of values that are encoded one by one determines them. -/
theorem encodeList_map_inj {α : Type*} {e : α → List UInt8} (henc : ∀ a, Encoded (e a))
    (hinj : ∀ a b, (e a).length < 256 ^ 8 → e a = e b → a = b) {l l' : List α}
    (hlen : (encodeList (l.map e).flatten).length < 256 ^ 8)
    (h : encodeList (l.map e).flatten = encodeList (l'.map e).flatten) : l = l' := by
  have hall : ∀ (l : List α), ∀ bs ∈ l.map e, Encoded bs := by
    intro l bs hbs
    obtain ⟨a, _, rfl⟩ := mem_map.mp hbs
    exact henc a
  have hmap := encodeList_flatten_inj (hall l) (hall l') hlen (h ▸ hlen) h
  have hbound : ∀ a ∈ l, (e a).length < 256 ^ 8 :=
    fun a ha => (length_le_of_mem (mem_map_of_mem ha)).trans_lt hlen
  clear h hlen hall
  induction l generalizing l' with
  | nil =>
    cases l' with
    | nil => rfl
    | cons b l' => cases hmap
  | cons a l ih =>
    cases l' with
    | nil => cases hmap
    | cons b l' =>
      simp only [map_cons, cons.injEq] at hmap
      rw [hinj a b (hbound a mem_cons_self) hmap.1,
        ih hmap.2 fun a ha => hbound a (mem_cons_of_mem _ ha)]

/-- A list of strings. -/
def encodeStrings (l : List (List UInt8)) : List UInt8 := encodeList (l.map encodeString).flatten

/-- The strings in a row determine them. -/
theorem flatten_encodeString_inj (h : ∀ bs ∈ l, bs.length < 256 ^ 8) (h' : ∀ bs ∈ l', bs.length < 256 ^ 8)
    (heq : (l.map encodeString).flatten = (l'.map encodeString).flatten) : l = l' := by
  have hmap : l.map encodeString = l'.map encodeString := by
    refine flatten_inj ?_ ?_ heq
    · intro bs hbs
      obtain ⟨s, hs, rfl⟩ := mem_map.mp hbs
      exact item_encodeString (h s hs)
    · intro bs hbs
      obtain ⟨s, hs, rfl⟩ := mem_map.mp hbs
      exact item_encodeString (h' s hs)
  induction l generalizing l' with
  | nil =>
    cases l' with
    | nil => rfl
    | cons b l' => cases hmap
  | cons a l ih =>
    cases l' with
    | nil => cases hmap
    | cons b l' =>
      simp only [map_cons, cons.injEq] at hmap
      rw [encodeString_inj (h a mem_cons_self) (h' b mem_cons_self) hmap.1]
      exact congrArg (b :: ·) (ih (fun bs hbs => h bs (mem_cons_of_mem _ hbs))
        (fun bs hbs => h' bs (mem_cons_of_mem _ hbs)) (congrArg flatten hmap.2) hmap.2)

/-- **A list of strings determines them.** -/
theorem encodeStrings_inj (h : (encodeStrings l).length < 256 ^ 8)
    (heq : encodeStrings l = encodeStrings l') : l = l' :=
  encodeList_map_inj encoded_encodeString (fun _ _ => encodeString_inj_of_length) h heq

theorem minimal_inj {m : Nat} (h : minimal m = minimal n) : m = n := by
  rw [← decode_minimal m, h, decode_minimal]

theorem encodeNat_inj {m : Nat} (hlen : (encodeNat m).length < 256 ^ 8) (h : encodeNat m = encodeNat n) :
    m = n :=
  minimal_inj (encodeString_inj_of_length hlen h)

end Lib.Rlp
