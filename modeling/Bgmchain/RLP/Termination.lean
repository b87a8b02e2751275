import Bgmchain.RLP.RoundTrip

/-! # Which decoders end

The loop over the elements of a slice ends when an element is decoded with the error for the
end of the list. That every element takes bytes of the input makes it end, and a decoder that
leaves a byte unread makes it run forever. -/
namespace Bgmchain.RLP
open Common Lib Rlp List Tree Stream

variable {α β : Type} {st : Prop} {dec : Stream → Res α}

/-! ## Decoders that end -/

/-- With more turns than bytes, a decoder does not run out of them. -/
def Finishes (dec : Stream → Res α) (n : Nat) : Prop :=
  ∀ ⦃s s' : Stream⦄ ⦃hd : Option Head⦄ ⦃u : Bytes⦄ ⦃us : List Bytes⦄, s.Sees hd u us → Left True hd → u.length + 1 < n →
    dec s ≠ .error .exhausted s'

variable {us : List Bytes} {e : Err}

theorem Stream.Fails.ne_exhausted {hd : Option Head} {u : Bytes} {s' : Stream}
    (h : Stream.Fails hd u us e s') : e ≠ .exhausted := by
  rcases h with ⟨rfl, -⟩ | h
  · exact nofun
  · exact h.2

variable {n : Nat}

theorem Finishes.of_fails (h : ∀ {s s' : Stream} {hd : Option Head} {u : Bytes} {us : List Bytes} {e : Err}, s.Sees hd u us →
    dec s = .error e s' → Stream.Fails hd u us e s') : Finishes dec n :=
  fun _ _ _ _ _ hs _ _ herr => (h hs herr).ne_exhausted rfl

theorem Finishes.map (h : Finishes dec n) (f : α → β) : Finishes (fun s => mapOk f (dec s)) n :=
  fun _ _ _ _ _ hs hleft hlen herr => h hs hleft hlen (mapOk_error herr)

theorem ne_exhausted_of_addErrorContext {ctx : String} (h : addErrorContext e ctx = .exhausted) : e = .exhausted := by
  cases e <;> first | rfl | cases h

/-- Every turn takes bytes, except that the first may take what was left before. -/
theorem Finishes.breaks (h : Finishes dec n) (hdec : Consumes st dec) (hst : ¬ st) {turns : Nat} {s s' : Stream}
    {hd : Option Head} {u : Bytes} (hbreaks : Breaks dec turns s e s') (hs : s.Sees hd u us) (hleft : Left True hd)
    (hn : u.length + 1 < n) (hturns : u.length < turns) (hturns' : hd ≠ none → u.length + 1 < turns) : e ≠ .exhausted := by
  induction hbreaks generalizing hd u with
  | turns => exact absurd hturns (Nat.not_lt_zero _)
  | elem ctx hv he =>
    intro hex
    rw [ne_exhausted_of_addErrorContext hex] at hv
    exact h hs hleft hn hv
  | @later turns s s1 s' v e hv _ ih =>
    obtain ⟨u', hs1, hle, hlt⟩ : ∃ u', s1.Sees none u' us ∧ u'.length ≤ u.length ∧ u'.length < turns := by
      rcases hleft with rfl | ⟨-, rfl⟩
      · obtain ⟨item, rest, hd', hitem, rfl, hs1, hleft'⟩ := hdec.fresh hs hv
        obtain rfl := hleft'.resolve_right fun hs => hst hs.1
        have hpos := length_pos_of_ne_nil hitem.ne_nil
        rw [length_append] at hturns ⊢
        exact ⟨rest, hs1, by omega, by omega⟩
      · obtain ⟨hd', hs1, hleft'⟩ := hdec.ahead hs hv
        obtain rfl := hleft'.resolve_right fun hs => hst hs.1
        have := hturns' nofun
        exact ⟨u, hs1, le_rfl, by omega⟩
    exact ih hs1 (.inl rfl) (by omega) hlt fun hne => absurd rfl hne

theorem finishes_between {wrap : Err → Err} {inside : Nat → Stream → Res α} (hwrap : ∀ {e : Err}, e.Plain → (wrap e).Plain)
    (h : ∀ {s s' : Stream} {p : Bytes} {us : List Bytes}, s.Sees none p us → p.length + 1 < n →
      inside p.length s ≠ .error .exhausted s') : Finishes (between wrap inside) n := by
  intro s s' hd u us hs hleft hlen herr
  rcases between_fails herr with ⟨e1, hl, he⟩ | ⟨size, s1, hl, hin⟩
  · exact (hs.list_fails hl).wrap.ne_exhausted he.symm
  · rcases hleft with rfl | ⟨-, rfl⟩
    · obtain ⟨p, rest, rfl, rfl, -, hs1⟩ := hs.list_ok hl
      have hle := length_le_encodeList p
      rw [length_append] at hlen
      rcases hin with hin | ⟨e1, hplain, he⟩
      · exact h hs1 (by omega) hin
      · exact (hwrap hplain).2 he.symm
    · exact hs.not_list_ahead hl

theorem Finishes.listSlice (h : Finishes dec n) (hdec : Consumes st dec) (hst : ¬ st) : Finishes (decodeListSlice dec n) n := by
  rw [decodeListSlice_between]
  refine finishes_between id fun hs hlen herr => ?_
  exact h.breaks hdec hst (sliceElems_fails herr) hs (.inl rfl) hlen (by omega) (absurd rfl) rfl

theorem Finishes.inList {inside : Stream → Res α} (h : Finishes inside n) : Finishes (decodeInList inside) n :=
  finishes_between Err.Plain.wrap fun hs hlen => h hs (.inl rfl) hlen

theorem Wraps.eq_exhausted {f : Err → Err} (hf : Wraps f) (h : f e = .exhausted) : e = .exhausted := by
  by_contra hne
  exact (hf.plain hne).2 h

theorem Finishes.tail (h : Finishes dec n) (hdec : Consumes st dec) (hst : ¬ st) (name : String) :
    Finishes (fun s => mapError (fieldError name) (decodeSliceElems dec n 0 s)) n := by
  intro s s' hd u us hs hleft hlen herr
  obtain ⟨e', helems, he'⟩ := mapError_error herr
  rw [(wraps_fieldError name).eq_exhausted he'.symm] at helems
  exact h.breaks hdec hst (.of_error helems) hs hleft hlen (by omega) (fun _ => hlen) rfl

theorem Finishes.inTurn (h : Finishes dec n) (hdec : Consumes st dec) {rest : Stream → Res β} (hrest : Finishes rest n)
    {f : Err → Err} (hf : Wraps f) : Finishes (inTurn f dec rest) n := by
  intro s s' hd u us hs hleft hlen herr
  rcases inTurn_fails herr with ⟨e1, hv, he⟩ | ⟨v, s1, hv, hr⟩
  · rw [hf.eq_exhausted he.symm] at hv
    exact h hs hleft hlen hv
  · obtain ⟨hd', u', hs1, hleft', hle⟩ := hdec.step hs hleft hv
    exact hrest hs1 hleft' (by omega) hr

theorem Finishes.arrayElems (h : Finishes dec n) (hdec : Consumes st dec) : ∀ m i : Nat, Finishes (decodeArrayElems dec m i) n
  | 0, _ => fun _ _ _ _ _ _ _ _ herr => nomatch herr
  | m + 1, i => by
    rw [decodeArrayElems_succ]
    exact (h.inTurn hdec (h.arrayElems hdec m (i + 1)) (wraps_elemError i)).map _

theorem Finishes.optional (h : Finishes dec n) (hdec : Reads st dec) : Finishes (decodeOptionalPtr dec) n := by
  intro s s' hd u us hs hleft hlen herr
  cases hk : s.nextKind with
  | error e s1 =>
    rw [decodeOptionalPtr_error hk] at herr
    exact (hs.nextKind_error hk).ne_exhausted (EStateM.Result.error.inj herr).1
  | ok r s1 =>
    obtain ⟨kind, m⟩ := r
    by_cases hnil : m = 0 ∧ kind ≠ .byte
    · obtain ⟨rfl, hkind⟩ := hnil
      rw [decodeOptionalPtr_nil hk hkind] at herr
      cases herr
    · rw [decodeOptionalPtr_some hdec hk (hs.nextKind_again hk) hnil] at herr
      exact h.map some hs hleft hlen herr

mutual
/-- **Without slices of `[1]byte` every decoder ends.** -/
theorem Ty.Ends.finishes {n : Nat} : ∀ {t : Ty}, t.Ends → Finishes (t.decode n) n
  | .uint w, _ => .map (.of_fails fun hs herr => uint_fails hs herr) _
  | .bool, _ => .of_fails decodeBool_fails
  | .string, _ | .bytes, _ => .of_fails decodeByteSlice_fails
  | .bigInt, _ => .of_fails decodeBigInt_fails
  | .byteArray _, _ => .of_fails byteArray_fails
  | .slice elem, h => (Ty.Ends.finishes h.2).listSlice (Ty.reads n elem).toConsumes h.1
  | .array m elem, h => by
    refine Finishes.inList ?_
    rcases h with rfl | h
    · exact fun _ _ _ _ _ _ _ _ herr => nomatch herr
    · exact (Ty.Ends.finishes h).arrayElems (Ty.reads n elem).toConsumes m 0
  | .ptr elem, h => (Ty.Ends.finishes (t := elem) h).map some
  | .struct fields, h => (show Finishes (fields.decode n) n from Fields.Ends.finishes h).inList

theorem Fields.Ends.finishes {n : Nat} : ∀ {fs : Fields}, fs.Ends → Finishes (fs.decode n) n
  | .nil, _ => fun _ _ _ _ _ _ _ _ herr => nomatch herr
  | .tail name elem, h => (Ty.Ends.finishes h.2).tail (Ty.reads n elem).toConsumes h.1 name
  | .cons name t _, h => (Ty.Ends.finishes h.1).inTurn (Ty.reads n t).toConsumes (Fields.Ends.finishes h.2) (wraps_fieldError name)
  | .opt name elem _, h =>
    ((Ty.Ends.finishes h.1).optional (Ty.reads n elem)).inTurn (Ty.reads n elem).optional (Fields.Ends.finishes h.2)
      (wraps_fieldError name)
end

/-! ## Decoders that do not end -/

/-- On an input no number of turns is enough. -/
def Hangs (dec : Nat → Stream → Res α) (b : Bytes) : Prop :=
  ∀ (turns : Nat) ⦃s : Stream⦄ ⦃u : Bytes⦄ ⦃us : List Bytes⦄, s.Sees none (b ++ u) us → ∃ s', dec turns s = .error .exhausted s'

section
variable {dec : Nat → Stream → Res α} {b : Bytes}

theorem Hangs.map (h : Hangs dec b) (f : α → β) : Hangs (fun turns s => mapOk f (dec turns s)) b := by
  intro turns s u us hs
  obtain ⟨s', herr⟩ := h turns hs
  exact ⟨s', by dsimp only; rw [herr]; rfl⟩

/-- The loop of a slice, at an element that hangs. -/
theorem Hangs.elems (h : Hangs dec b) : Hangs (fun turns => decodeSliceElems (dec turns) turns 0) b := by
  intro turns s u us hs
  cases turns with
  | zero => exact ⟨s, rfl⟩
  | succ turns =>
    obtain ⟨s', herr⟩ := h (turns + 1) hs
    exact ⟨s', decodeSliceElems_error turns 0 herr nofun⟩

/-- The loop of a slice, at the byte `0x00`. -/
theorem hangs_elems_of_stuck {st : Prop} (hreads : ∀ turns, Reads st (dec turns)) (hstuck : ∀ turns, Stuck (dec turns)) :
    Hangs (fun turns => decodeSliceElems (dec turns) turns 0) [0] := by
  intro turns s u us hs
  have hnext : s.Next (.byte 0) u us := .inr ⟨show (0 : UInt8).toNat < 0x80 by decide, Nat.zero_le _, hs⟩
  obtain ⟨s1, hk, hs1⟩ := hnext.nextKind
  obtain ⟨w, s2, hok, hs2⟩ := hstuck turns hs1
  rw [← (hreads turns).again hk hs1.nextKind] at hok
  cases turns with
  | zero => exact ⟨s, rfl⟩
  | succ turns =>
    obtain ⟨s', herr⟩ := (hstuck (turns + 1)).elems turns 1 hs2
    exact ⟨s', by dsimp only; rw [decodeSliceElems_ok turns 0 hok, herr]⟩

variable {p : Bytes}

theorem Hangs.inList {inside : Nat → Stream → Res α} (h : Hangs inside p) (hp : p.length < 256 ^ 8) :
    Hangs (fun turns => decodeInList (inside turns)) (encodeList p) := by
  intro turns s u us hs
  obtain ⟨s2, hlist, hs2⟩ := hs.list_encode hp
  rw [← append_nil p] at hs2
  obtain ⟨s', herr⟩ := h turns hs2
  exact ⟨s', between_inside hlist herr⟩

theorem Hangs.listSlice (h : Hangs (fun turns => decodeSliceElems (dec turns) turns 0) p) (hp : p.length < 256 ^ 8) (hne : p ≠ []) :
    Hangs (fun turns => decodeListSlice (dec turns) turns) (encodeList p) := by
  intro turns s u us hs
  obtain ⟨s2, hlist, hs2⟩ := hs.list_encode hp
  rw [← append_nil p] at hs2
  obtain ⟨s', herr⟩ := h turns hs2
  have hsize : p.length ≠ 0 := fun hzero => hne (length_eq_zero_iff.mp hzero)
  refine ⟨s', ?_⟩
  dsimp only at herr ⊢
  rw [decodeListSlice_between]
  exact between_inside hlist ((if_neg hsize).trans herr)

theorem Hangs.tail (h : Hangs (fun turns => decodeSliceElems (dec turns) turns 0) b) (name : String) :
    Hangs (fun turns s => mapError (fieldError name) (decodeSliceElems (dec turns) turns 0 s)) b := by
  intro turns s u us hs
  obtain ⟨s', herr⟩ := h turns hs
  exact ⟨s', by dsimp only at herr ⊢; rw [herr]; rfl⟩

theorem Hangs.inTurn (h : Hangs dec b) (rest : Nat → Stream → Res β) {f : Err → Err} (hf : Wraps f) :
    Hangs (fun turns => inTurn f (dec turns) (rest turns)) b := by
  intro turns s u us hs
  obtain ⟨s', herr⟩ := h turns hs
  exact ⟨s', hf.exhausted ▸ inTurn_error herr⟩

theorem Hangs.arrayElems (h : Hangs dec b) (n : Nat) : Hangs (fun turns => decodeArrayElems (dec turns) (n + 1) 0) b := by
  simp only [decodeArrayElems_succ]
  exact (h.inTurn _ (wraps_elemError 0)).map _

/-- A field that is decoded, or runs out of turns, and others that hang. -/
theorem Hangs.rest {rest : Nat → Stream → Res β} (h : Hangs rest p)
    (hdec : ∀ (turns : Nat) {s : Stream} {u : Bytes} {us : List Bytes}, s.Sees none (b ++ u) us →
      (∃ s', dec turns s = .error .exhausted s') ∨ ∃ w s', dec turns s = .ok w s' ∧ s'.Sees none u us) (name : String) :
    Hangs (fun turns => decodeField name (dec turns) (rest turns)) (b ++ p) := by
  intro turns s u us hs
  rw [append_assoc] at hs
  rcases hdec turns hs with ⟨s', herr⟩ | ⟨w, s1, hok, hs1⟩
  · exact ⟨s', inTurn_error herr⟩
  · obtain ⟨s', herr⟩ := h turns hs1
    exact ⟨s', inTurn_rest hok herr⟩

theorem Hangs.optional {st : Prop} (hreads : ∀ turns, Reads st (dec turns)) (h : Hangs dec (encodeList p))
    (hp : p.length < 256 ^ 8) (hne : p ≠ []) : Hangs (fun turns => decodeOptionalPtr (dec turns)) (encodeList p) := by
  intro turns s u us hs
  obtain ⟨s1, hk, hs1⟩ := hs.nextKind_encodeList hp
  have hsize : p.length ≠ 0 := fun hzero => hne (length_eq_zero_iff.mp hzero)
  obtain ⟨s', herr⟩ := h.map some turns hs
  exact ⟨s', (decodeOptionalPtr_some (hreads turns) hk hs1.nextKind fun hnil => hsize hnil.1).trans herr⟩

end

/-! ## A value of every type -/

mutual
/-- A value that comes back. -/
def Ty.sample : (t : Ty) → t.Val
  | .uint w => (⟨0, w.pow_pos⟩ : Uint w)
  | .bool => false
  | .string => ([] : Bytes)
  | .bigInt => (0 : Int)
  | .bytes => ([] : Bytes)
  | .byteArray n => (⟨replicate n 1, length_replicate⟩ : { b : Bytes // b.length = n })
  | .slice elem => ([] : List elem.Val)
  | .array n elem => (⟨replicate n elem.sample, length_replicate⟩ : { vs : List elem.Val // vs.length = n })
  | .ptr elem => (some elem.sample : Option elem.Val)
  | .struct fields => fields.sample

def Fields.sample : (fs : Fields) → fs.Val
  | .nil => ()
  | .tail _ elem => ([] : List elem.Val)
  | .cons _ t rest => (t.sample, rest.sample)
  | .opt _ elem rest => ((none : Option elem.Val), rest.sample)
end

mutual
/-- The bytes that are needed to reach every part of the type. -/
def Ty.span : Ty → Nat
  | .uint _ => 1
  | .bool => 1
  | .string => 1
  | .bigInt => 1
  | .bytes => 1
  | .byteArray n => n + 9
  | .slice elem => elem.span + 10
  | .array n elem => n * elem.span + elem.span + 9
  | .ptr elem => elem.span
  | .struct fields => fields.span + 9

def Fields.span : Fields → Nat
  | .nil => 0
  | .tail _ elem => elem.span + 1
  | .cons _ t rest => t.span + rest.span
  | .opt _ elem rest => elem.span + 1 + rest.span
end

theorem Ty.not_sticky_sample : ∀ t : Ty, ¬ t.Sticky t.sample
  | .byteArray n, h => by
    have hval : replicate n (1 : UInt8) = [0] := h.2
    rw [show n = 1 from h.1] at hval
    exact absurd (cons.inj hval).1 (by decide)
  | .ptr elem, ⟨a, ha, h⟩ => by
    cases ha
    exact elem.not_sticky_sample h

mutual
theorem Ty.good_sample : ∀ t : Ty, t.Good t.sample
  | .uint _ | .bool | .string | .bigInt | .bytes | .byteArray _ => trivial
  | .slice _ => nofun
  | .array n elem => by
    refine ⟨fun v hv => ?_, fun v hv => ?_⟩
    · rw [eq_of_mem_replicate hv]
      exact elem.good_sample
    · rw [eq_of_mem_replicate (mem_of_mem_dropLast hv)]
      exact elem.not_sticky_sample
  | .ptr elem => elem.good_sample
  | .struct fields => fields.good_sample

theorem Fields.good_sample : ∀ fs : Fields, fs.Good fs.sample
  | .nil => trivial
  | .tail _ _ => nofun
  | .cons _ t rest => ⟨t.good_sample, fun _ => t.not_sticky_sample, rest.good_sample⟩
  | .opt _ _ rest => ⟨nofun, rest.good_sample⟩
end

mutual
theorem Ty.encodable_sample : ∀ t : Ty, t.Encodable t.sample
  | .uint _ | .bool | .string | .bytes | .byteArray _ => trivial
  | .bigInt => Int.le_refl _
  | .slice _ => nofun
  | .array n elem => by
    intro v hv
    rw [eq_of_mem_replicate hv]
    exact elem.encodable_sample
  | .ptr elem => fun a ha => by
    cases ha
    exact elem.encodable_sample
  | .struct fields => fields.encodable_sample

theorem Fields.encodable_sample : ∀ fs : Fields, fs.Encodable fs.sample
  | .nil => trivial
  | .tail _ _ => nofun
  | .cons _ t rest => ⟨t.encodable_sample, rest.encodable_sample⟩
  | .opt _ _ rest => ⟨nofun, rest.encodable_sample⟩
end

theorem length_sizeHeader_le (off : Nat) (h : n < 256 ^ 8) : (sizeHeader off n).length ≤ 9 := by
  unfold sizeHeader
  split
  · simp
  · have := length_minimal_le h
    rw [length_cons]
    omega

theorem length_encodeList_le {p : Bytes} (h : p.length < 256 ^ 8) : (encodeList p).length ≤ p.length + 9 := by
  have := length_sizeHeader_le 0xC0 h
  rw [encodeList, length_append]
  omega

variable {b : Bytes}

theorem length_encodeString_le (h : b.length < 256 ^ 8) : (encodeString b).length ≤ b.length + 9 := by
  have := length_sizeHeader_le 0x80 h
  obtain ⟨c, rfl, -, henc⟩ | ⟨-, henc⟩ := encodeString_cases b
  · simp [henc]
  · rw [henc, length_append]
    omega

theorem length_encodeAll_replicate (n : Nat) (t : Tree) :
    (encodeAll (replicate n t)).length = n * t.encode.length := by
  induction n with
  | zero => simp [encodeAll]
  | succ n ih =>
    rw [replicate_succ, encodeAll, length_append, ih]
    ring

mutual
theorem Ty.length_sample : ∀ {t : Ty}, t.span < 256 ^ 8 → (t.tree t.sample).encode.length ≤ t.span
  | .uint _, _ | .bool, _ | .string, _ | .bigInt, _ | .bytes, _ => Nat.le_refl 1
  | .byteArray n, h => by
    rw [Ty.span] at h ⊢
    have hlen : (replicate n (1 : UInt8)).length = n := length_replicate
    have hle := length_encodeString_le (b := replicate n 1) (by omega)
    rw [hlen] at hle
    exact hle
  | .slice elem, _ => Nat.le_add_left 1 _
  | .array n elem, h => by
    rw [Ty.span] at h ⊢
    have helem := elem.length_sample (by omega)
    have heq : map elem.tree (replicate n elem.sample) = replicate n (elem.tree elem.sample) := map_replicate
    have hlen := length_encodeAll_replicate n (elem.tree elem.sample)
    have hmul := Nat.mul_le_mul_left n helem
    rw [← heq] at hlen
    have hle := length_encodeList_le (p := encodeAll (map elem.tree (replicate n elem.sample))) (by omega)
    refine le_trans hle ?_
    omega
  | .ptr elem, h => elem.length_sample h
  | .struct fields, h => by
    rw [Ty.span] at h ⊢
    have hfields := fields.length_sample (by omega)
    have hle := length_encodeList_le (p := encodeAll (fields.trees fields.sample)) (by omega)
    refine le_trans hle ?_
    omega

theorem Fields.length_sample : ∀ {fs : Fields}, fs.span < 256 ^ 8 → (encodeAll (fs.trees fs.sample)).length ≤ fs.span
  | .nil, _ => Nat.le_refl 0
  | .tail _ elem, _ => Nat.zero_le _
  | .cons _ t rest, h => by
    rw [Fields.span] at h ⊢
    have ht := t.length_sample (by omega)
    have hrest := rest.length_sample (by omega)
    show ((t.tree t.sample).encode ++ encodeAll (rest.trees rest.sample)).length ≤ _
    rw [length_append]
    exact Nat.add_le_add ht hrest
  | .opt _ elem rest, h => by
    rw [Fields.span] at h ⊢
    have hrest := rest.length_sample (by omega)
    have hnil := elem.empty_nilTree.length
    show (elem.nilTree.encode ++ encodeAll (rest.trees rest.sample)).length ≤ _
    rw [length_append]
    exact Nat.add_le_add (hnil.trans_le (Nat.le_add_left _ _)) hrest
end

/-- A sample is decoded, if there are turns enough. -/
theorem Ty.sample_decodes {t : Ty} (hspan : t.span < 256 ^ 8) (turns : Nat) {s : Stream} {u : Bytes}
    (hs : s.Sees none ((t.tree t.sample).encode ++ u) us) :
    (∃ s', t.decode turns s = .error .exhausted s') ∨ ∃ w s', t.decode turns s = .ok w s' ∧ s'.Sees none u us := by
  have hlen := t.length_sample hspan
  have hset := Ty.settled (max turns (t.span + 1)) t t.sample t.encodable_sample (by omega) (by omega)
  obtain ⟨w, s', hd, hok, -, hs', hnone, -⟩ := hset.comes t.good_sample hs
  rw [hnone t.not_sticky_sample] at hs'
  rcases (Ty.decode_extends (Nat.le_max_left turns (t.span + 1)) t).cases s with hex | heq
  · exact .inl hex
  · exact .inr ⟨w, s', heq.symm.trans hok, hs'⟩

mutual
/-- **Every other decoder runs forever on some input.** -/
theorem Ty.hangs : ∀ t : Ty, ¬ t.Ends → t.span < 256 ^ 8 →
    ∃ p, p ≠ [] ∧ p.length + 9 ≤ t.span ∧ Hangs (fun turns => t.decode turns) (encodeList p)
  | .uint _, h, _ | .bool, h, _ | .string, h, _ | .bigInt, h, _ | .bytes, h, _
  | .byteArray _, h, _ => absurd trivial h
  | .slice elem, h, hspan => by
    rw [Ty.span] at hspan ⊢
    by_cases hsticky : elem.HasSticky
    · have hhangs := hangs_elems_of_stuck (fun turns => Ty.reads turns elem) hsticky.stuck
      exact ⟨[0], nofun, by rw [length_singleton]; omega, hhangs.listSlice (by simp) nofun⟩
    · obtain ⟨p, hne, hlen, hhangs⟩ := Ty.hangs elem (fun hends => h ⟨hsticky, hends⟩) (by omega)
      have hle := length_encodeList_le (p := p) (by omega)
      exact ⟨encodeList p, encodeList_ne_nil p, by omega, hhangs.elems.listSlice (by omega) (encodeList_ne_nil p)⟩
  | .array n elem, h, hspan => by
    rw [Ty.span] at hspan ⊢
    have hends : ¬ elem.Ends := fun hends => h (.inr hends)
    obtain ⟨n, rfl⟩ : ∃ m, n = m + 1 := ⟨n - 1, by have : n ≠ 0 := fun h0 => h (.inl h0); omega⟩
    obtain ⟨p, hne, hlen, hhangs⟩ := Ty.hangs elem hends (by omega)
    have hle := length_encodeList_le (p := p) (by omega)
    exact ⟨encodeList p, encodeList_ne_nil p, by omega, (hhangs.arrayElems n).inList (by omega)⟩
  | .ptr elem, h, hspan => by
    obtain ⟨p, hne, hlen, hhangs⟩ := Ty.hangs elem h hspan
    exact ⟨p, hne, hlen, hhangs.map some⟩
  | .struct fields, h, hspan => by
    rw [Ty.span] at hspan ⊢
    obtain ⟨p, hne, hlen, hhangs⟩ := Fields.hangs fields h (by omega)
    exact ⟨p, hne, by omega, hhangs.inList (by omega)⟩

theorem Fields.hangs : ∀ fs : Fields, ¬ fs.Ends → fs.span < 256 ^ 8 →
    ∃ p, p ≠ [] ∧ p.length ≤ fs.span ∧ Hangs (fun turns => fs.decode turns) p
  | .nil, h, _ => absurd trivial h
  | .tail name elem, h, hspan => by
    rw [Fields.span] at hspan ⊢
    by_cases hsticky : elem.HasSticky
    · have hhangs := hangs_elems_of_stuck (fun turns => Ty.reads turns elem) hsticky.stuck
      exact ⟨[0], nofun, by rw [length_singleton]; omega, hhangs.tail name⟩
    · obtain ⟨p, hne, hlen, hhangs⟩ := Ty.hangs elem (fun hends => h ⟨hsticky, hends⟩) (by omega)
      have hle := length_encodeList_le (p := p) (by omega)
      exact ⟨encodeList p, encodeList_ne_nil p, by omega, hhangs.elems.tail name⟩
  | .cons name t rest, h, hspan => by
    rw [Fields.span] at hspan ⊢
    by_cases hends : t.Ends
    · obtain ⟨p, hne, hlen, hhangs⟩ := Fields.hangs rest (fun hrest => h ⟨hends, hrest⟩) (by omega)
      have hsample := t.length_sample (by omega)
      refine ⟨(t.tree t.sample).encode ++ p, fun hnil => hne (append_eq_nil_iff.mp hnil).2, ?_,
        hhangs.rest (fun turns _ _ _ hs => Ty.sample_decodes (by omega) turns hs) name⟩
      rw [length_append]
      omega
    · obtain ⟨p, hne, hlen, hhangs⟩ := Ty.hangs t hends (by omega)
      have hle := length_encodeList_le (p := p) (by omega)
      exact ⟨encodeList p, encodeList_ne_nil p, by omega, hhangs.inTurn _ (wraps_fieldError name)⟩
  | .opt name elem rest, h, hspan => by
    rw [Fields.span] at hspan ⊢
    by_cases hends : elem.Ends
    · obtain ⟨p, hne, hlen, hhangs⟩ := Fields.hangs rest (fun hrest => h ⟨hends, hrest⟩) (by omega)
      have hnil := elem.empty_nilTree
      refine ⟨elem.nilTree.encode ++ p, fun h => hne (append_eq_nil_iff.mp h).2, ?_, hhangs.rest (fun turns _ _ _ hs => ?_) name⟩
      · rw [length_append, hnil.length]
        omega
      · have hcomes : Comes (decodeOptionalPtr (elem.decode turns)) elem.nilTree.encode (fun _ => True) False :=
          optional_empty hnil.small hnil trivial id
        obtain ⟨w, s', hd, hok, -, hs', hnone, -⟩ := hcomes hs
        rw [hnone id] at hs'
        exact .inr ⟨w, s', hok, hs'⟩
    · obtain ⟨p, hne, hlen, hhangs⟩ := Ty.hangs elem hends (by omega)
      have hle := length_encodeList_le (p := p) (by omega)
      exact ⟨encodeList p, encodeList_ne_nil p, by omega,
        (hhangs.optional (fun turns => Ty.reads turns elem) (by omega) hne).inTurn _ (wraps_fieldError name)⟩
end

/-! ## Whole inputs -/

/-- Some value that is the same is decoded from the encoding. -/
def Ty.RoundTrips (t : Ty) (v : t.Val) : Prop :=
  ∃ b turns w, t.encodeToBytes v = .ok b ∧ t.decodeBytes turns b = .ok w ∧ t.Same v w

/-- For some number of turns the loops end. -/
def Ty.Terminates (t : Ty) (b : Bytes) : Prop := ∃ turns, t.decodeBytes turns b ≠ .error .exhausted

theorem decodeBytesWith_ok {v : α} (h : decodeBytesWith dec b = .ok v) : ∃ s, dec (.new b) = .ok v s := by
  unfold decodeBytesWith at h
  cases hdec : dec (.new b) with
  | error e s => rw [hdec] at h; cases h
  | ok w s =>
    rw [hdec] at h
    dsimp only at h
    split at h
    · cases h
    · cases h
      exact ⟨s, rfl⟩

theorem decodeBytesWith_error {s : Stream} (h : dec (.new b) = .error e s) :
    decodeBytesWith dec b = .error e := by
  unfold decodeBytesWith
  rw [h]

theorem decodeBytesWith_exhausted (h : decodeBytesWith dec b = .error .exhausted) :
    ∃ s, dec (.new b) = .error .exhausted s := by
  unfold decodeBytesWith at h
  cases hdec : dec (.new b) with
  | error e s =>
    rw [hdec] at h
    cases h
    exact ⟨s, rfl⟩
  | ok w s =>
    rw [hdec] at h
    dsimp only at h
    split at h <;> cases h

theorem sees_whole (b : Bytes) : (new b).Sees none (b ++ []) [] := by
  rw [append_nil]
  exact sees_new b

theorem Ty.decodeBytes_of_good {t : Ty} {v : t.Val} (henc : t.Encodable v) (hlen : (t.tree v).encode.length < 2 ^ 64)
    (hgood : t.Good v) : ∃ w, t.decodeBytes ((t.tree v).encode.length + 1) (t.tree v).encode = .ok w ∧ t.Same v w := by
  have hset := Ty.settled ((t.tree v).encode.length + 1) t v henc (by omega) (by omega)
  obtain ⟨w, s', hd, hok, hsame, hs', -⟩ := hset.comes hgood (sees_whole _)
  refine ⟨w, ?_, hsame⟩
  unfold Ty.decodeBytes decodeBytesWith
  rw [hok]
  dsimp only
  rw [hs'.input]
  rfl

theorem Ty.roundTrips_iff {t : Ty} {v : t.Val} (henc : t.encodeToBytes v = .ok b)
    (hlen : (t.tree v).encode.length < 2 ^ 64) : t.RoundTrips v ↔ t.Good v := by
  obtain ⟨hencodable, rfl⟩ := t.encodeToBytes_ok henc hlen
  constructor
  · intro ⟨b, turns, w, hb, hdec, hsame⟩
    obtain ⟨-, rfl⟩ := t.encodeToBytes_ok hb hlen
    by_contra hbad
    obtain ⟨s', hok⟩ := decodeBytesWith_ok hdec
    rcases (Ty.decode_extends (Nat.le_max_left turns ((t.tree v).encode.length + 1)) t).cases _ with ⟨s1, hex⟩ | heq
    · cases hex.symm.trans hok
    · exact (Ty.settled _ t v hencodable (by omega) (by omega)).spoils hbad (sees_whole _) (heq.trans hok) hsame
  · intro hgood
    obtain ⟨w, hdec, hsame⟩ := Ty.decodeBytes_of_good hencodable hlen hgood
    exact ⟨_, _, w, henc, hdec, hsame⟩

theorem Ty.terminates_iff {t : Ty} (hspan : t.span < 2 ^ 63) : (∀ b : Bytes, b.length < 2 ^ 63 → t.Terminates b) ↔ t.Ends := by
  constructor
  · intro h
    by_contra hends
    obtain ⟨p, hne, hlen, hhangs⟩ := t.hangs hends (by omega)
    have hle := length_encodeList_le (p := p) (by omega)
    obtain ⟨turns, hne⟩ := h (encodeList p) (by omega)
    obtain ⟨s', herr⟩ := hhangs turns (sees_whole _)
    exact hne (decodeBytesWith_error herr)
  · intro hends b _
    refine ⟨b.length + 2, fun herr => ?_⟩
    obtain ⟨s', hex⟩ := decodeBytesWith_exhausted herr
    exact hends.finishes (sees_new b) (.inl rfl) (by omega) hex

/-- **What comes back, and what ends.** A value of a type comes back from its encoding if and only
if it is good: no element of a slice, and no element or field with others behind it, is a
`[1]byte` of `0x00`, and no nil pointer points to a type without an empty value. Decoding into
a type ends on every input if and only if the type has no slices of `[1]byte`. -/
theorem typed_rlp (t : Ty) (hspan : t.span < 2 ^ 63) :
    (∀ (v : t.Val) (b : Bytes), t.encodeToBytes v = .ok b → (t.tree v).Fits → (t.RoundTrips v ↔ t.Good v)) ∧
      ((∀ b : Bytes, b.length < 2 ^ 63 → t.Terminates b) ↔ t.Ends) := by
  refine ⟨?_, t.terminates_iff hspan⟩
  intro v b henc hfits
  unfold Tree.Fits at hfits
  exact Ty.roundTrips_iff henc (by omega)

/-- `struct { A uint8; B [][]byte }` -/
def numberAndStrings : Ty := .struct (.cons "A" (.uint .w8) (.cons "B" (.slice .bytes) .nil))

/-- A number and a slice of strings come back, and their type is decoded from any input. -/
theorem typed_rlp_pair : numberAndStrings.RoundTrips (⟨5, show 5 < 256 by omega⟩, [[0]], ()) ∧
      ∀ b : Bytes, b.length < 2 ^ 63 → numberAndStrings.Terminates b := by
  have h := typed_rlp numberAndStrings (show 21 < 2 ^ 63 by omega)
  have hfits : (numberAndStrings.tree (⟨5, show 5 < 256 by omega⟩, [[0]], ())).Fits := show 4 < 2 ^ 63 by omega
  refine ⟨(h.1 _ [0xC3, 0x05, 0xC1, 0x00] rfl hfits).mpr ?_, h.2.mpr ?_⟩
  · exact ⟨trivial, fun _ => id, fun _ _ => ⟨trivial, id⟩, fun _ => id, trivial⟩
  · exact ⟨trivial, ⟨id, trivial⟩, trivial⟩

/-- `struct { A [1]byte; B uint8 }` -/
def byteAndNumber : Ty := .struct (.cons "A" (.byteArray 1) (.cons "B" (.uint .w8) .nil))

/-- **A slice with one `[1]byte` of `0x00` is encoded as `c1 00`, and decoding that never ends**;
and a struct with such a field in front of another, encoded as `c2 00 05`, is not decoded. -/
theorem typed_rlp_sticky :
    (Ty.slice (.byteArray 1)).encodeToBytes [⟨[0], rfl⟩] = .ok [0xC1, 0x00] ∧ ¬ (Ty.slice (.byteArray 1)).Terminates [0xC1, 0x00] ∧
      byteAndNumber.encodeToBytes (⟨[0], rfl⟩, ⟨5, show 5 < 256 by omega⟩, ()) = .ok [0xC2, 0x00, 0x05] ∧
      ¬ byteAndNumber.RoundTrips (⟨[0], rfl⟩, ⟨5, show 5 < 256 by omega⟩, ()) := by
  refine ⟨rfl, ?_, rfl, ?_⟩
  · intro ⟨turns, hends⟩
    have hsticky : (Ty.byteArray 1).HasSticky := rfl
    have hhangs := (hangs_elems_of_stuck (fun turns => Ty.reads turns (.byteArray 1)) hsticky.stuck).listSlice
      (by simp) nofun
    obtain ⟨s', herr⟩ := hhangs turns (show (new [0xC1, 0x00]).Sees none ([0xC1, 0x00] ++ []) [] from sees_new _)
    exact hends (decodeBytesWith_error herr)
  · have henc : byteAndNumber.encodeToBytes (⟨[0], rfl⟩, ⟨5, show 5 < 256 by omega⟩, ()) = .ok [0xC2, 0x00, 0x05] := rfl
    rw [Ty.roundTrips_iff henc (show 3 < 2 ^ 64 by omega)]
    intro hgood
    exact hgood.2.1 nofun ⟨rfl, rfl⟩

end Bgmchain.RLP
