import Bgmchain.RLP.Encode
import Bgmchain.RLP.Items

/-! # Decoding without a type

`DecodeBytes` into an `interface{}` reads any item, a list as a slice of such values. The
loop over the elements of a list ends with the error that `Kind` has at the end of a list.
Trees and the byte strings that are accepted correspond to each other. -/
namespace Bgmchain.RLP
open Common Lib Rlp List Stream

/-- `wrapStreamError` -/
def wrapStreamError : Err → Err
  | .canonInt => .decode "non-canonical integer (leading zero bytes)" []
  | .canonSize => .decode "non-canonical size information" []
  | .expectedList => .decode "expected input list" []
  | .expectedString => .decode "expected input string or byte" []
  | .uintOverflow => .decode "input string too long" []
  | .notAtEOL => .decode "input list has too many elements" []
  | e => e

/-- `addErrorContext` -/
def addErrorContext (e : Err) (ctx : String) : Err :=
  match e with
  | .decode msg ctxs => .decode msg (ctxs ++ [ctx])
  | e => e

theorem Err.Plain.wrap {e : Err} (h : e.Plain) : (wrapStreamError e).Plain := by
  cases e <;> first | exact h | exact ⟨nofun, nofun⟩

theorem Err.Plain.addContext {e : Err} (h : e.Plain) (ctx : String) : (addErrorContext e ctx).Plain := by
  cases e <;> first | exact h | exact ⟨nofun, nofun⟩

variable {α : Type}

/-- `decodeSliceElems`, for a number of turns. -/
def decodeSliceElems (elemdec : Stream → Res α) : Nat → Nat → Stream → Res (List α)
  | 0, _, s => .error .exhausted s
  | turns + 1, i, s =>
    match elemdec s with
    | .error .eol s => .ok [] s
    | .error e s => .error (addErrorContext e s!"[{i}]") s
    | .ok v s =>
      match decodeSliceElems elemdec turns (i + 1) s with
      | .error e s => .error e s
      | .ok vs s => .ok (v :: vs) s

/-- `decodeListSlice` -/
def decodeListSlice (elemdec : Stream → Res α) (turns : Nat) (s : Stream) : Res (List α) :=
  match s.list with
  | .error e s => .error (wrapStreamError e) s
  | .ok size s =>
    match if size = 0 then .ok [] s else decodeSliceElems elemdec turns 0 s with
    | .error e s => .error e s
    | .ok vs s =>
      match s.listEnd with
      | .error e s => .error e s
      | .ok _ s => .ok vs s

/-- `decodeInterface`. The depth of the lists, and the turns of their loops, are limited. -/
def decodeInterface : Nat → Stream → Res Tree
  | 0, s => .error .exhausted s
  | f + 1, s =>
    match s.nextKind with
    | .error e s => .error e s
    | .ok (.list, _) s =>
      match decodeListSlice (decodeInterface f) f s with
      | .error e s => .error e s
      | .ok ts s => .ok (.list ts) s
    | .ok (_, _) s =>
      match s.bytes with
      | .error e s => .error e s
      | .ok b s => .ok (.string b) s

/-- `DecodeBytes` with a decoder. -/
def decodeBytesWith (dec : Stream → Res α) (b : Bytes) : Except Err α :=
  match dec (.new b) with
  | .error e _ => .error e
  | .ok v s => if s.input.length > 0 then .error .moreThanOneValue else .ok v

/-- `DecodeBytes` into an `interface{}`. No list is deeper than the input is long. -/
def decodeBytes (b : Bytes) : Except Err Tree := decodeBytesWith (decodeInterface (b.length + 1)) b

/-! ## The loop over the elements -/

section
variable {dec : Stream → Res α} {s s1 : Stream} (turns i : Nat)

theorem decodeSliceElems_eol (h : dec s = .error .eol s1) : decodeSliceElems dec (turns + 1) i s = .ok [] s1 := by
  rw [decodeSliceElems, h]

theorem decodeSliceElems_error {e : Err} (h : dec s = .error e s1) (he : e ≠ .eol) :
    decodeSliceElems dec (turns + 1) i s = .error (addErrorContext e s!"[{i}]") s1 := by
  rw [decodeSliceElems, h]
  cases e with
  | eol => exact absurd rfl he
  | _ => rfl

theorem decodeSliceElems_ok {v : α} (h : dec s = .ok v s1) :
    decodeSliceElems dec (turns + 1) i s = match decodeSliceElems dec turns (i + 1) s1 with
      | .error e s => .error e s
      | .ok vs s => .ok (v :: vs) s := by
  rw [decodeSliceElems, h]

end

/-- The loop, when it comes to the end of the list. -/
inductive Loops (dec : Stream → Res α) : Nat → Stream → List α → Stream → Prop
  | eol {n s s'} : dec s = .error .eol s' → Loops dec (n + 1) s [] s'
  | cons {n s s1 s' v vs} : dec s = .ok v s1 → Loops dec n s1 vs s' → Loops dec (n + 1) s (v :: vs) s'

/-- The loop, when an element cannot be decoded or its turns are over. -/
inductive Breaks (dec : Stream → Res α) : Nat → Stream → Err → Stream → Prop
  | turns {s} : Breaks dec 0 s .exhausted s
  | elem {n s s' e} (ctx : String) : dec s = .error e s' → e ≠ .eol → Breaks dec (n + 1) s (addErrorContext e ctx) s'
  | later {n s s1 s' v e} : dec s = .ok v s1 → Breaks dec n s1 e s' → Breaks dec (n + 1) s e s'

/-- **What the loop does is one of the two.** -/
theorem decodeSliceElems_cases (dec : Stream → Res α) : ∀ (turns i : Nat) (s : Stream),
    match decodeSliceElems dec turns i s with
    | .ok vs s' => Loops dec turns s vs s'
    | .error e s' => Breaks dec turns s e s'
  | 0, _, _ => .turns
  | turns + 1, i, s => by
    cases hd : dec s with
    | error e s1 =>
      by_cases he : e = .eol
      · rw [decodeSliceElems_eol turns i (he ▸ hd)]
        exact .eol (he ▸ hd)
      · rw [decodeSliceElems_error turns i hd he]
        exact .elem _ hd he
    | ok v s1 =>
      have hrest := decodeSliceElems_cases dec turns (i + 1) s1
      rw [decodeSliceElems_ok turns i hd]
      split at hrest
      next heq =>
        rw [heq]
        exact .cons hd hrest
      next heq =>
        rw [heq]
        exact .later hd hrest

section
variable {dec : Stream → Res α} {s s' : Stream} {turns i : Nat}

theorem Loops.of_ok {vs : List α} (h : decodeSliceElems dec turns i s = .ok vs s') : Loops dec turns s vs s' := by
  have hcases := decodeSliceElems_cases dec turns i s
  rwa [h] at hcases

theorem Breaks.of_error {e : Err} (h : decodeSliceElems dec turns i s = .error e s') : Breaks dec turns s e s' := by
  have hcases := decodeSliceElems_cases dec turns i s
  rwa [h] at hcases

end

/-! ## What stands in a list -/

/-- What stands between `List` and `ListEnd`. -/
def between (wrap : Err → Err) (inside : Nat → Stream → Res α) (s : Stream) : Res α :=
  match s.list with
  | .error e s => .error (wrapStreamError e) s
  | .ok size s =>
    match inside size s with
    | .error e s => .error e s
    | .ok v s =>
      match s.listEnd with
      | .error e s => .error (wrap e) s
      | .ok _ s => .ok v s

/-- A slice is read like the list of its elements, except that nothing is read of an empty list. -/
def sliceElems (dec : Stream → Res α) (turns size : Nat) (s : Stream) : Res (List α) :=
  if size = 0 then .ok [] s else decodeSliceElems dec turns 0 s

theorem decodeListSlice_between (dec : Stream → Res α) (turns : Nat) :
    decodeListSlice dec turns = between id (sliceElems dec turns) := by
  funext s
  unfold decodeListSlice between sliceElems
  cases s.list with
  | error => rfl
  | ok n s1 =>
    dsimp only
    split
    next heq =>
      rw [heq]
    next heq =>
      rw [heq]
      rfl

section
variable {dec : Stream → Res α} {s s1 s2 s' : Stream} {turns n : Nat} {e : Err} {v : α} {wrap : Err → Err}
  {inside : Nat → Stream → Res α}

theorem sliceElems_ok {vs : List α} (h : sliceElems dec turns n s = .ok vs s') :
    n = 0 ∧ vs = [] ∧ s' = s ∨ decodeSliceElems dec turns 0 s = .ok vs s' := by
  unfold sliceElems at h
  split at h
  next hn =>
    cases h
    exact .inl ⟨hn, rfl, rfl⟩
  · exact .inr h

theorem sliceElems_fails (h : sliceElems dec turns n s = .error e s') : Breaks dec turns s e s' := by
  unfold sliceElems at h
  split at h
  · cases h
  · exact .of_error h

theorem between_error (h : s.list = .error e s1) : between wrap inside s = .error (wrapStreamError e) s1 := by
  unfold between
  rw [h]

theorem between_inside (h : s.list = .ok n s1) (hin : inside n s1 = .error e s2) : between wrap inside s = .error e s2 := by
  unfold between
  rw [h]
  dsimp only
  rw [hin]

theorem between_end (h : s.list = .ok n s1) (hin : inside n s1 = .ok v s2) :
    between wrap inside s = match s2.listEnd with
      | .error e s => .error (wrap e) s
      | .ok _ s => .ok v s := by
  unfold between
  rw [h]
  dsimp only
  rewrite [hin]
  rfl

theorem between_again (h : s.list = s1.list) : between wrap inside s = between wrap inside s1 := by
  unfold between
  rw [h]

/-- A list is read to its end. -/
theorem between_spec (wrap : Err → Err) (inside : Nat → Stream → Res α) (s : Stream) :
    match between wrap inside s with
    | .ok v s' => ∃ n s1 s2, s.list = .ok n s1 ∧ inside n s1 = .ok v s2 ∧ s2.listEnd = .ok () s'
    | .error e s' => (∃ e1, s.list = .error e1 s' ∧ e = wrapStreamError e1) ∨
      ∃ n s1, s.list = .ok n s1 ∧ (inside n s1 = .error e s' ∨ ∃ e1, e1.Plain ∧ e = wrap e1) := by
  cases hl : s.list with
  | error e1 s1 =>
    rw [between_error hl]
    exact .inl ⟨e1, rfl, rfl⟩
  | ok n s1 =>
    cases hin : inside n s1 with
    | error e2 s2 =>
      rw [between_inside hl hin]
      exact .inr ⟨n, s1, rfl, .inl hin⟩
    | ok v s2 =>
      rw [between_end hl hin]
      cases hend : s2.listEnd with
      | error e3 s3 => exact .inr ⟨n, s1, rfl, .inr ⟨e3, plain_listEnd hend, rfl⟩⟩
      | ok _ s3 => exact ⟨n, s1, s2, rfl, hin, hend⟩

theorem between_ok (h : between wrap inside s = .ok v s') :
    ∃ n s1 s2, s.list = .ok n s1 ∧ inside n s1 = .ok v s2 ∧ s2.listEnd = .ok () s' := by
  have hspec := between_spec wrap inside s
  rwa [h] at hspec

theorem between_fails (h : between wrap inside s = .error e s') :
    (∃ e1, s.list = .error e1 s' ∧ e = wrapStreamError e1) ∨
      ∃ n s1, s.list = .ok n s1 ∧ (inside n s1 = .error e s' ∨ ∃ e1, e1.Plain ∧ e = wrap e1) := by
  have hspec := between_spec wrap inside s
  rwa [h] at hspec

end

/-! ## Only what was written is accepted -/

/-- What a decoder accepts is what an encoder writes, and it reports the end of a list only
there. -/
structure Accepts (dec : Stream → Res α) (enc : α → Bytes) : Prop where
  ok : ∀ {s s' : Stream} {u : Bytes} {us : List Bytes} {v : α}, s.Sees none u us → dec s = .ok v s' →
    ∃ rest, u = enc v ++ rest ∧ s'.Sees none rest us
  fails : ∀ {s s' : Stream} {u : Bytes} {us : List Bytes} {e : Err}, s.Sees none u us → dec s = .error e s' →
    Stream.Fails none u us e s' ∨ e = .exhausted

section
variable {dec : Stream → Res α} {enc : α → Bytes} {s s' : Stream} {u : Bytes} {us : List Bytes} {turns : Nat}

theorem Accepts.loops (h : Accepts dec enc) {vs : List α} (hloops : Loops dec turns s vs s') (hs : s.Sees none u us) :
    u = vs.flatMap enc ∧ s'.Sees none [] us := by
  induction hloops generalizing u with
  | eol hd =>
    rcases h.fails hs hd with (⟨-, -, rfl, -, hs1⟩ | hplain) | hex
    · exact ⟨rfl, hs1⟩
    · exact absurd rfl hplain.1
    · cases hex
  | cons hd _ ih =>
    obtain ⟨rest, rfl, hs1⟩ := h.ok hs hd
    obtain ⟨rfl, hs'⟩ := ih hs1
    exact ⟨rfl, hs'⟩

theorem Accepts.breaks (h : Accepts dec enc) {e : Err} (hbreaks : Breaks dec turns s e s') (hs : s.Sees none u us) :
    e.Plain ∨ e = .exhausted := by
  induction hbreaks generalizing u with
  | turns => exact .inr rfl
  | elem ctx hd he =>
    rcases h.fails hs hd with (⟨heol, -⟩ | hplain) | rfl
    · exact absurd heol he
    · exact .inl (hplain.addContext ctx)
    · exact .inr rfl
  | later hd _ ih =>
    obtain ⟨rest, -, hs1⟩ := h.ok hs hd
    exact ih hs1

/-- The elements of a list and its end. -/
theorem Accepts.listSlice (h : Accepts dec enc) (turns : Nat) :
    Accepts (decodeListSlice dec turns) fun vs => encodeList (vs.flatMap enc) := by
  rw [decodeListSlice_between]
  constructor
  · intro s s' u us vs hs hok
    obtain ⟨n, s1, s2, hl, hin, hend⟩ := between_ok hok
    obtain ⟨p, rest, rfl, hp, -, hs1⟩ := hs.list_ok hl
    obtain ⟨rfl, hs2⟩ : p = vs.flatMap enc ∧ s2.Sees none [] (rest :: us) := by
      rcases sliceElems_ok hin with ⟨hzero, rfl, rfl⟩ | hin
      · obtain rfl : p = [] := length_eq_zero_iff.mp (hp.trans hzero)
        exact ⟨rfl, hs1⟩
      · exact h.loops (.of_ok hin) hs1
    obtain ⟨s3, hend', hs3⟩ := hs2.listEnd
    cases hend'.symm.trans hend
    exact ⟨rest, rfl, hs3⟩
  · intro s s' u us e hs herr
    rcases between_fails herr with ⟨e1, hl, rfl⟩ | ⟨n, s1, hl, hin⟩
    · rcases hs.list_fails hl with ⟨rfl, hrest⟩ | hplain
      · exact .inl (.inl ⟨rfl, hrest⟩)
      · exact .inl (.inr hplain.wrap)
    · obtain ⟨p, rest, -, hp, -, hs1⟩ := hs.list_ok hl
      rcases hin with hin | ⟨e1, hplain, rfl⟩
      · exact (h.breaks (sliceElems_fails hin) hs1).imp_left .inr
      · exact .inl (.inr hplain)

end

theorem Tree.encodeAll_eq (ts : List Tree) : Tree.encodeAll ts = ts.flatMap Tree.encode := by
  induction ts with
  | nil => rfl
  | cons t ts ih => rw [Tree.encodeAll, flatMap_cons, ih]

variable {dec : Stream → Res α} {s s1 : Stream}

/-! `decodeInterface` by the kind of the next item. -/

variable {n : Nat} {u : Bytes} {us : List Bytes}

theorem decodeInterface_list {f : Nat} (hk : s.nextKind = .ok (.list, n) s1)
    (hk1 : s1.nextKind = .ok (.list, n) s1) :
    decodeInterface (f + 1) s = match decodeListSlice (decodeInterface f) f s with
      | .error e s => .error e s
      | .ok ts s => .ok (.list ts) s := by
  rw [decodeInterface, hk, decodeListSlice_between, between_again (kindFirst_list.again hk hk1)]

theorem decodeInterface_string {f : Nat} {kind : Kind} (hkind : kind ≠ .list)
    (hk : s.nextKind = .ok (kind, n) s1) (hk1 : s1.nextKind = .ok (kind, n) s1) :
    decodeInterface (f + 1) s = match s.bytes with
      | .error e s => .error e s
      | .ok b s => .ok (.string b) s := by
  rw [decodeInterface, hk, kindFirst_bytes.again hk hk1]
  cases kind with
  | byte | string => rfl
  | list => exact absurd rfl hkind

theorem decodeInterface_error {f : Nat} {e : Err} (hk : s.nextKind = .error e s1) :
    decodeInterface (f + 1) s = .error e s1 := by
  rw [decodeInterface, hk]

/-- What `decodeInterface` returns is a list or a string that has been read. -/
theorem decodeInterface_cases (hs : s.Sees none u us) (f : Nat) :
    match decodeInterface (f + 1) s with
    | .ok t s' => (∃ ts, t = .list ts ∧ decodeListSlice (decodeInterface f) f s = .ok ts s') ∨
        ∃ b, t = .string b ∧ s.bytes = .ok b s'
    | .error e s' => s.nextKind = .error e s' ∨ decodeListSlice (decodeInterface f) f s = .error e s' ∨
        s.bytes = .error e s' := by
  cases hk : s.nextKind with
  | error e s1 =>
    rw [decodeInterface_error hk]
    exact .inl rfl
  | ok r s1 =>
    obtain ⟨kind, n⟩ := r
    by_cases hkind : kind = .list
    · subst hkind
      rw [decodeInterface_list hk (hs.nextKind_again hk)]
      cases hl : decodeListSlice (decodeInterface f) f s with
      | error e s2 => exact .inr (.inl rfl)
      | ok ts s2 => exact .inl ⟨ts, rfl, rfl⟩
    · rw [decodeInterface_string hkind hk (hs.nextKind_again hk)]
      cases hb : s.bytes with
      | error e s2 => exact .inr (.inr rfl)
      | ok b s2 => exact .inr ⟨b, rfl, rfl⟩

theorem accepts_decodeInterface (f : Nat) : Accepts (decodeInterface f) Tree.encode := by
  induction f with
  | zero => exact ⟨nofun, fun _ h => by cases h; exact .inr rfl⟩
  | succ f ih =>
    constructor
    · intro s s' u us t hs hok
      have hcases := decodeInterface_cases hs f
      rw [hok] at hcases
      rcases hcases with ⟨ts, rfl, hl⟩ | ⟨b, rfl, hb⟩
      · rw [Tree.encode, Tree.encodeAll_eq]
        exact (ih.listSlice f).ok hs hl
      · obtain ⟨rest, hu, -, hs'⟩ := hs.bytes_ok hb
        exact ⟨rest, hu, hs'⟩
    · intro s s' u us e hs herr
      have hcases := decodeInterface_cases hs f
      rw [herr] at hcases
      rcases hcases with hk | hl | hb
      · exact .inl (hs.nextKind_error hk)
      · exact (ih.listSlice f).fails hs hl
      · exact .inl (hs.bytes_fails hb)

/-! ## What was written is accepted -/

section
variable {β : Type} {dec : Stream → Res α} {enc : β → Bytes} {same : β → α → Prop} {vs : List β} {us : List Bytes}

theorem elems_of_encoded
    (hdec : ∀ v ∈ vs, ∀ {s : Stream} {u : Bytes}, s.Sees none (enc v ++ u) us → ∃ w s', dec s = .ok w s' ∧ same v w ∧ s'.Sees none u us)
    (heol : ∀ {s : Stream}, s.Sees none [] us → ∃ s', dec s = .error .eol s' ∧ s'.Sees none [] us) :
    ∀ {turns i : Nat} {s : Stream}, vs.length < turns → s.Sees none (vs.flatMap enc) us →
      ∃ ws s', decodeSliceElems dec turns i s = .ok ws s' ∧ Forall₂ same vs ws ∧ s'.Sees none [] us := by
  induction vs with
  | nil =>
    intro turns i s hturns hs
    obtain ⟨turns, rfl⟩ : ∃ n, turns = n + 1 := ⟨turns - 1, by simp at hturns; omega⟩
    obtain ⟨s', herr, hs'⟩ := heol hs
    exact ⟨[], s', decodeSliceElems_eol turns i herr, .nil, hs'⟩
  | cons v vs ih =>
    intro turns i s hturns hs
    obtain ⟨turns, rfl⟩ : ∃ n, turns = n + 1 := ⟨turns - 1, by simp at hturns; omega⟩
    rw [flatMap_cons] at hs
    obtain ⟨w, s1, hv, hw, hs1⟩ := hdec v mem_cons_self hs
    obtain ⟨ws, s', hvs, hws, hs'⟩ := ih (fun w hw => hdec w (mem_cons_of_mem _ hw)) (i := i + 1)
      (by simp at hturns; omega) hs1
    exact ⟨w :: ws, s', by rw [decodeSliceElems_ok turns i hv, hvs], .cons hw hws, hs'⟩

theorem eq_nil_of_flatMap (hpos : ∀ v, enc v ≠ []) (h : (vs.flatMap enc).length = 0) : vs = [] := by
  cases vs with
  | nil => rfl
  | cons v vs => exact absurd (append_eq_nil_iff.mp (length_eq_zero_iff.mp h)).1 (hpos v)

/-- What stands in the list of a slice. -/
theorem sliceElems_of_encoded {turns : Nat} {s : Stream}
    (hdec : ∀ v ∈ vs, ∀ {s : Stream} {u : Bytes}, s.Sees none (enc v ++ u) us → ∃ w s', dec s = .ok w s' ∧ same v w ∧ s'.Sees none u us)
    (heol : ∀ {s : Stream}, s.Sees none [] us → ∃ s', dec s = .error .eol s' ∧ s'.Sees none [] us)
    (hpos : ∀ v, enc v ≠ []) (hturns : vs.length < turns) (hs : s.Sees none (vs.flatMap enc) us) :
    ∃ ws s', sliceElems dec turns (vs.flatMap enc).length s = .ok ws s' ∧ Forall₂ same vs ws ∧ s'.Sees none [] us := by
  unfold sliceElems
  split
  next hzero =>
    obtain rfl := eq_nil_of_flatMap hpos hzero
    exact ⟨[], s, rfl, .nil, hs⟩
  · exact elems_of_encoded hdec heol hturns hs

end

theorem Tree.encode_ne_nil (t : Tree) : t.encode ≠ [] := by
  cases t with
  | string b => exact ne_nil_of_length_pos (length_encodeString_pos b)
  | list ts =>
    rw [Tree.encode, encodeList]
    exact fun h => Stream.Head.bytes_ne_nil (.list _) (append_eq_nil_iff.mp h).1

theorem Tree.length_encode_pos (t : Tree) : 0 < t.encode.length := length_pos_of_ne_nil t.encode_ne_nil

theorem Tree.length_le_encodeAll (ts : List Tree) : ts.length ≤ (Tree.encodeAll ts).length := by
  induction ts with
  | nil => exact le_rfl
  | cons t ts ih =>
    have := t.length_encode_pos
    rw [Tree.encodeAll, length_append, length_cons]
    omega

theorem Tree.length_encode_le_of_mem {t : Tree} {ts : List Tree} (h : t ∈ ts) :
    t.encode.length ≤ (Tree.encodeAll ts).length := by
  rw [Tree.encodeAll_eq, flatMap_def]
  exact (sublist_flatten_of_mem (mem_map_of_mem h)).length_le

/-- A list has a header. -/
theorem Tree.length_encodeAll_lt (ts : List Tree) : (Tree.encodeAll ts).length < (Tree.list ts).encode.length := by
  rw [Tree.encode, encodeList, length_append]
  have := length_pos_of_ne_nil (Stream.Head.bytes_ne_nil (.list (Tree.encodeAll ts).length))
  have heq : (Head.list (Tree.encodeAll ts).length).bytes = sizeHeader 0xC0 (Tree.encodeAll ts).length := rfl
  rw [heq] at this
  omega

/-- **What was written is read back**, with anything behind it. -/
theorem Tree.decode (t : Tree) : ∀ {f : Nat} {s : Stream} {u : Bytes} {us : List Bytes}, t.encode.length < f →
    t.encode.length < 256 ^ 8 → s.Sees none (t.encode ++ u) us → ∃ s', decodeInterface f s = .ok t s' ∧ s'.Sees none u us := by
  induction t using Tree.induct with
  | hstring b =>
    intro f s u us hf hlen hs
    obtain _ | f := f
    · omega
    rw [Tree.encode] at hs hlen
    obtain ⟨s', hb, hs'⟩ := hs.bytes_encode ((length_le_encodeString b).trans_lt hlen)
    cases hk : s.nextKind with
    | error e s1 => cases (kindFirst_bytes.error hk).symm.trans hb
    | ok r s1 =>
      obtain ⟨kind, n⟩ := r
      have hkind : kind ≠ .list := by
        rintro rfl
        unfold bytes at hb
        rw [hk] at hb
        cases hb
      rw [decodeInterface_string hkind hk (hs.nextKind_again hk), hb]
      exact ⟨s', rfl, hs'⟩
  | hlist ts ih =>
    intro f s u us hf hlen hs
    have hlt := Tree.length_encodeAll_lt ts
    have hcount := Tree.length_le_encodeAll ts
    obtain ⟨f, rfl⟩ : ∃ n, f = n + 2 := ⟨f - 2, by omega⟩
    rw [Tree.encode] at hs
    obtain ⟨s1, hk, hs1⟩ := hs.nextKind_encodeList (by omega)
    rw [Tree.encodeAll_eq] at hs
    have helem : ∀ t ∈ ts, ∀ {s : Stream} {w : Bytes}, s.Sees none (t.encode ++ w) (u :: us) →
        ∃ t' s', decodeInterface (f + 1) s = .ok t' s' ∧ t = t' ∧ s'.Sees none w (u :: us) := by
      intro t ht s w hsees
      have := Tree.length_encode_le_of_mem ht
      obtain ⟨s', hok, hs'⟩ := ih t ht (f := f + 1) (by omega) (by omega) hsees
      exact ⟨t, s', hok, rfl, hs'⟩
    have hend : ∀ {s : Stream}, s.Sees none [] (u :: us) →
        ∃ s', decodeInterface (f + 1) s = .error .eol s' ∧ s'.Sees none [] (u :: us) := by
      intro s hsees
      obtain ⟨s', hnil, hs'⟩ := hsees.nextKind_nil
      exact ⟨s', decodeInterface_error hnil, hs'⟩
    obtain ⟨s2, hlist, hs2⟩ := hs.list_encode (by rw [← Tree.encodeAll_eq]; omega)
    obtain ⟨ts', s3, hin, hts, hs3⟩ := sliceElems_of_encoded helem hend Tree.encode_ne_nil (show ts.length < f + 1 by omega) hs2
    rw [forall₂_eq_eq_eq] at hts
    obtain ⟨s', hlend, hs'⟩ := hs3.listEnd
    rw [decodeInterface_list hk hs1.nextKind, decodeListSlice_between, between_end hlist hin, hlend, hts]
    exact ⟨s', rfl, hs'⟩

/-! ## Whole inputs -/

/-- Only what is written for a tree is decoded to it. -/
theorem encodeToBytes_of_decodeBytes {b : Bytes} {t : Tree} (hlen : b.length < 2 ^ 64) (h : decodeBytes b = .ok t) :
    encodeToBytes t = b := by
  unfold decodeBytes decodeBytesWith at h
  cases hd : decodeInterface (b.length + 1) (.new b) with
  | error e s => rw [hd] at h; cases h
  | ok t' s =>
    rw [hd] at h
    dsimp only at h
    split at h
    · cases h
    next hin =>
      cases h
      obtain ⟨rest, hb, hs⟩ := (accepts_decodeInterface _).ok (sees_new b) hd
      have hrest : s.input = rest := by rw [hs.input, flatten_nil, append_nil]
      have hnil : rest = [] := by
        rw [hrest] at hin
        exact length_eq_zero_iff.mp (by omega)
      rw [hnil, append_nil] at hb
      rw [encodeToBytes_eq (hb ▸ hlen), hb]

theorem decodeBytes_encodeToBytes {t : Tree} (hlen : t.encode.length < 2 ^ 64) : decodeBytes (encodeToBytes t) = .ok t := by
  rw [encodeToBytes_eq hlen]
  have hsees := sees_new t.encode
  rw [← append_nil t.encode] at hsees
  obtain ⟨s', hd, hs'⟩ := t.decode (Nat.lt_succ_self _) (by omega) hsees
  rw [append_nil] at hd
  unfold decodeBytes decodeBytesWith
  rw [hd]
  dsimp only
  rw [hs'.input]
  rfl

/-- A slice can hold the bytes of a tree. -/
def Tree.Fits (t : Tree) : Prop := t.encode.length < 2 ^ 63

/-- **RLP is canonical.** A tree is decoded from its encoding; whatever is accepted is the
encoding of what it is decoded to; and so no two byte strings are decoded to one tree. -/
theorem rlp_canonical : (∀ t : Tree, t.Fits → decodeBytes (encodeToBytes t) = .ok t) ∧
      (∀ (b : Bytes) (t : Tree), b.length < 2 ^ 63 → decodeBytes b = .ok t → encodeToBytes t = b) ∧
      ∀ (b b' : Bytes) (t : Tree), b.length < 2 ^ 63 → b'.length < 2 ^ 63 → decodeBytes b = .ok t →
        decodeBytes b' = .ok t → b = b' := by
  have hcanon : ∀ (b : Bytes) (t : Tree), b.length < 2 ^ 63 → decodeBytes b = .ok t → encodeToBytes t = b :=
    fun b t hlen h => encodeToBytes_of_decodeBytes (by omega) h
  refine ⟨?_, hcanon, ?_⟩
  · intro t ht
    unfold Tree.Fits at ht
    exact decodeBytes_encodeToBytes (by omega)
  · intro b b' t hb hb' h h'
    rw [← hcanon b t hb h, hcanon b' t hb' h']

/-- A list of a byte and an empty list. -/
theorem rlp_canonical_pair :
    decodeBytes (encodeToBytes (.list [.string [0x7F], .list []])) = .ok (.list [.string [0x7F], .list []]) ∧
      encodeToBytes (.list [.string [0x7F], .list []]) = [0xC2, 0x7F, 0xC0] :=
  ⟨rlp_canonical.1 _ (show 3 < 2 ^ 63 by omega), rlp_canonical.2.1 [0xC2, 0x7F, 0xC0] _ (show 3 < 2 ^ 63 by omega) rfl⟩

end Bgmchain.RLP
