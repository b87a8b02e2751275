import Bgmchain.RLP.Typed

/-! # Which values come back from their encoding

For every value of a type, what is decoded from its encoding is the value again if and only if
`Ty.Good` says so. Both directions are shown together, by recursion over the type: what is
written either comes back (`Comes`), or whatever is decoded from it is another value
(`Spoils`). -/
namespace Bgmchain.RLP
open Common Lib Rlp List Tree Fields

variable {α β γ : Type} {st : Prop} {dec : Stream → Res α}

/-! ## More turns change nothing -/

/-- `dec'` does what `dec` does wherever that does not run out of turns. -/
def Extends (dec dec' : Stream → Res α) : Prop := ∀ s, (∀ s', dec s ≠ .error .exhausted s') → dec' s = dec s

variable {dec dec' : Stream → Res α} {s s' : Stream}

theorem Extends.cases (h : Extends dec dec') (s : Stream) :
    (∃ s', dec s = .error .exhausted s') ∨ dec' s = dec s := by
  by_cases hex : ∃ s', dec s = .error .exhausted s'
  · exact .inl hex
  · exact .inr (h s fun s' herr => hex ⟨s', herr⟩)

theorem Extends.refl (dec : Stream → Res α) : Extends dec dec := fun _ _ => rfl

theorem Extends.map (h : Extends dec dec') (f : α → β) :
    Extends (fun s => mapOk f (dec s)) fun s => mapOk f (dec' s) := by
  intro s hs
  dsimp only at hs ⊢
  rw [h s fun s' herr => hs s' (by rw [herr]; rfl)]

theorem Extends.elems (h : Extends dec dec') : ∀ {n n' : Nat} (i : Nat), n ≤ n' →
    Extends (decodeSliceElems dec n i) (decodeSliceElems dec' n' i)
  | 0, _, _, _ => fun s hs => absurd rfl (hs s)
  | n + 1, 0, _, hle => absurd hle (by omega)
  | n + 1, n' + 1, i, hle => by
    intro s hs
    rw [decodeSliceElems] at hs ⊢
    rw [decodeSliceElems]
    rcases h.cases s with ⟨s1, hex⟩ | heq
    · rw [hex] at hs
      exact absurd rfl (hs s1)
    rw [heq]
    cases hdec : dec s with
    | error e s1 => cases e <;> rfl
    | ok v s1 =>
      rw [hdec] at hs
      dsimp only at hs ⊢
      rw [h.elems (i + 1) (show n ≤ n' by omega) s1 fun s' herr => hs s' (by rw [herr])]

theorem Extends.between {wrap : Err → Err} {inside inside' : Nat → Stream → Res α} (h : ∀ n, Extends (inside n) (inside' n)) :
    Extends (between wrap inside) (between wrap inside') := by
  intro s hs
  unfold RLP.between at hs ⊢
  cases hl : s.list with
  | error e s1 => rfl
  | ok size s1 =>
    rw [hl] at hs
    dsimp only at hs ⊢
    rw [h size s1 fun s' herr => hs s' (by rw [herr])]

theorem Extends.listSlice (h : Extends dec dec') {n n' : Nat} (hle : n ≤ n') :
    Extends (decodeListSlice dec n) (decodeListSlice dec' n') := by
  rw [decodeListSlice_between, decodeListSlice_between]
  refine .between fun size s hs => ?_
  unfold sliceElems at hs ⊢
  split
  · rfl
  next hsize =>
    rw [if_neg hsize] at hs
    exact h.elems 0 hle s hs

variable {inside : Stream → Res α}

theorem Extends.inList {inside' : Stream → Res α} (h : Extends inside inside') :
    Extends (decodeInList inside) (decodeInList inside') := .between fun _ => h

variable {rest : Stream → Res β}

theorem Extends.inTurn (h : Extends dec dec') {rest' : Stream → Res β} (hrest : Extends rest rest')
    {f : Err → Err} (hf : Wraps f) : Extends (inTurn f dec rest) (inTurn f dec' rest') := by
  intro s hs
  rcases h.cases s with ⟨s1, hex⟩ | heq
  · exact absurd (hf.exhausted ▸ inTurn_error hex) (hs s1)
  unfold RLP.inTurn at hs ⊢
  rw [heq]
  cases hdec : dec s with
  | error e s1 => rfl
  | ok v s1 =>
    rw [hdec] at hs
    dsimp only at hs ⊢
    rw [hrest s1 fun s' herr => hs s' (by rw [herr])]

theorem Extends.arrayElems (h : Extends dec dec') : ∀ n i : Nat,
    Extends (decodeArrayElems dec n i) (decodeArrayElems dec' n i)
  | 0, _ => fun _ _ => rfl
  | n + 1, i => by
    rw [decodeArrayElems_succ, decodeArrayElems_succ]
    exact (h.inTurn (h.arrayElems n (i + 1)) (wraps_elemError i)).map _

theorem Extends.tail (h : Extends dec dec') {n n' : Nat} (hle : n ≤ n') (name : String) :
    Extends (fun s => mapError (fieldError name) (decodeSliceElems dec n 0 s))
      fun s => mapError (fieldError name) (decodeSliceElems dec' n' 0 s) := by
  intro s hs
  dsimp only at hs ⊢
  rw [h.elems 0 hle s fun s' herr => hs s' (by rw [herr]; rfl)]

theorem Extends.optional (h : Extends dec dec') : Extends (decodeOptionalPtr dec) (decodeOptionalPtr dec') := by
  intro s hs
  unfold decodeOptionalPtr at hs ⊢
  cases hk : s.nextKind with
  | error e s1 => rfl
  | ok r s1 =>
    obtain ⟨kind, n⟩ := r
    rw [hk] at hs
    dsimp only at hs ⊢
    by_cases hnil : (n = 0 && kind ≠ .byte) = true
    · rw [if_pos hnil, if_pos hnil]
    · rw [if_neg hnil] at hs
      rw [if_neg hnil, if_neg hnil]
      exact h.map some s1 hs

mutual
/-- **More turns change nothing** where the loops have ended. -/
theorem Ty.decode_extends {n n' : Nat} (hle : n ≤ n') : ∀ t : Ty, Extends (t.decode n) (t.decode n')
  | .uint _ | .bool | .string | .bigInt | .bytes | .byteArray _ => .refl _
  | .slice elem => (Ty.decode_extends hle elem).listSlice hle
  | .array n elem => ((Ty.decode_extends hle elem).arrayElems n 0).inList
  | .ptr elem => (Ty.decode_extends hle elem).map some
  | .struct fields => (decode_extends hle fields).inList

theorem decode_extends {n n' : Nat} (hle : n ≤ n') : ∀ fs : Fields, Extends (fs.decode n) (fs.decode n')
  | .nil => .refl _
  | .tail name elem => (Ty.decode_extends hle elem).tail hle name
  | .cons name t rest => (Ty.decode_extends hle t).inTurn (decode_extends hle rest) (wraps_fieldError name)
  | .opt name elem rest => (Ty.decode_extends hle elem).optional.inTurn (decode_extends hle rest) (wraps_fieldError name)
end

/-! ## Coming back and not coming back -/

/-- What is decoded from an encoding is the value, and one byte is left of it if it is sticky. -/
def Comes (dec : Stream → Res α) (enc : Bytes) (same : α → Prop) (sticky : Prop) : Prop :=
  ∀ {s : Stream} {u : Bytes} {us : List Bytes}, s.Sees none (enc ++ u) us →
    ∃ w s' hd, dec s = .ok w s' ∧ same w ∧ s'.Sees hd u us ∧ (¬ sticky → hd = none) ∧ (sticky → hd = some (.byte 0))

/-- What is decoded from an encoding is not the value. -/
def Spoils (dec : Stream → Res α) (enc : Bytes) (same : α → Prop) : Prop :=
  ∀ {s s' : Stream} {u : Bytes} {us : List Bytes} {w : α}, s.Sees none (enc ++ u) us → dec s = .ok w s' → ¬ same w

/-- A value comes back if and only if it is good. -/
structure Settles (dec : Stream → Res α) (enc : Bytes) (same : α → Prop) (good sticky : Prop) : Prop where
  comes : good → Comes dec enc same sticky
  spoils : ¬ good → Spoils dec enc same

theorem Settles.clean {enc : Bytes} {same : α → Prop} {good sticky : Prop} (h : Settles dec enc same good sticky)
    (hgood : good ∧ ¬ sticky) {s : Stream} {u : Bytes} {us : List Bytes} (hs : s.Sees none (enc ++ u) us) :
    ∃ w s', dec s = .ok w s' ∧ same w ∧ s'.Sees none u us := by
  obtain ⟨w, s', hd, hdec, hw, hs', hnone, -⟩ := h.comes hgood.1 hs
  exact ⟨w, s', hdec, hw, hnone hgood.2 ▸ hs'⟩

/-- The same of what stands in a list, which is to be read to its end. -/
structure SettlesIn (inside : Stream → Res α) (p : Bytes) (same : α → Prop) (good : Prop) : Prop where
  comes : good → ∀ {s : Stream} {v : Bytes} {us : List Bytes}, s.Sees none p (v :: us) →
    ∃ w s' hd, inside s = .ok w s' ∧ same w ∧ s'.Sees hd [] (v :: us)
  spoils : ¬ good → ∀ {s s' : Stream} {hd : Option Head} {us : List Bytes} {w : α}, s.Sees none p us → inside s = .ok w s' →
    s'.Sees hd [] us → ¬ same w

/-- A byte that is left is decoded again and again. -/
def Stuck (dec : Stream → Res α) : Prop := ∀ ⦃s : Stream⦄ ⦃u : Bytes⦄ ⦃us : List Bytes⦄, s.Sees (some (.byte 0)) u us →
  ∃ w s', dec s = .ok w s' ∧ s'.Sees (some (.byte 0)) u us

variable {enc : Bytes} {same : α → Prop} {sticky : Prop}

theorem Settles.of_comes (h : Comes dec enc same sticky) : Settles dec enc same True sticky :=
  ⟨fun _ => h, absurd trivial⟩

variable {u : Bytes} {us : List Bytes}

/-- Nothing else is left of the input. -/
theorem Stream.Sees.nil_of_nil {hd hd' : Option Head} (h : s.Sees hd u us)
    (h' : s.Sees hd' [] us) : u = [] := by
  have hin := congrArg List.length (h.input.symm.trans h'.input)
  rw [length_append, nil_append] at hin
  exact length_eq_zero_iff.mp (by omega)

/-- The loop of a slice never ends at a byte that is left. -/
theorem Stuck.elems (h : Stuck dec) : ∀ (turns i : Nat) {s : Stream}, s.Sees (some (.byte 0)) u us →
    ∃ s', decodeSliceElems dec turns i s = .error .exhausted s'
  | 0, _, s, _ => ⟨s, rfl⟩
  | turns + 1, i, s, hs => by
    obtain ⟨w, s1, hdec, hs1⟩ := h hs
    obtain ⟨s', herr⟩ := h.elems turns (i + 1) hs1
    exact ⟨s', by rw [decodeSliceElems_ok turns i hdec, herr]⟩

theorem Stuck.not_loops (h : Stuck dec) {u : Bytes} {us : List Bytes} {turns : Nat} {s s' : Stream} {ws : List α}
    (hloops : Loops dec turns s ws s') : ¬ s.Sees (some (.byte 0)) u us := by
  induction hloops with
  | eol hdec =>
    intro hs
    obtain ⟨w, s1, hok, -⟩ := h hs
    cases hok.symm.trans hdec
  | cons hdec _ ih =>
    intro hs
    obtain ⟨w, s1, hok, hs1⟩ := h hs
    cases hok.symm.trans hdec
    exact ih hs1

/-- The loop of an array does not get any further. -/
theorem Stuck.arrayElems (h : Stuck dec) : ∀ {n i : Nat} {s : Stream} {vs : { vs : List α // vs.length = n }},
    s.Sees (some (.byte 0)) u us → decodeArrayElems dec n i s = .ok vs s' → s'.Sees (some (.byte 0)) u us
  | 0, _, _, _, hs, hok => by
    cases hok
    exact hs
  | n + 1, i, s, vs, hs, hok => by
    rw [decodeArrayElems_succ] at hok
    obtain ⟨ws, hok, -⟩ := mapOk_ok hok
    obtain ⟨s1, hdec, hrest⟩ := inTurn_ok hok
    obtain ⟨w, s2, hdec', hs2⟩ := h hs
    cases hdec'.symm.trans hdec
    exact h.arrayElems hs2 hrest

/-! ## Elements -/

section
variable {enc : γ → Bytes} {same : γ → α → Prop} {good sticky : γ → Prop} {us : List Bytes}

/-- One element that does not come back, or is left unread, and the slice does not come back. -/
theorem loops_spoils (hstuck : ∀ a, sticky a → Stuck dec) {turns : Nat} {s s' : Stream}
    {ws : List α} (hloops : Loops dec turns s ws s') {vs : List γ}
    (hall : ∀ a ∈ vs, Settles dec (enc a) (same a) (good a) (sticky a)) (hbad : ¬ ∀ a ∈ vs, good a ∧ ¬ sticky a)
    (hs : s.Sees none (vs.flatMap enc) us) : ¬ List.Forall₂ same vs ws := by
  induction hloops generalizing vs with
  | eol =>
    intro hsame
    cases hsame
    exact hbad nofun
  | @cons n s s1 s' w ws hdec hrest ih =>
    intro hsame
    cases hsame with
    | @cons a _ vs _ hw hws =>
      obtain ⟨ha, hvs⟩ := forall_mem_cons.mp hall
      rw [flatMap_cons] at hs
      by_cases hgood : good a
      · obtain ⟨w', s3, hd, hdec', -, hs1, hclean, hleft⟩ := ha.comes hgood hs
        cases hdec'.symm.trans hdec
        by_cases hsticky : sticky a
        · rw [hleft hsticky] at hs1
          exact (hstuck a hsticky).not_loops hrest hs1
        · rw [hclean hsticky] at hs1
          refine ih hvs (fun hrestgood => hbad ?_) hs1 hws
          exact forall_mem_cons.mpr ⟨⟨hgood, hsticky⟩, hrestgood⟩
      · exact ha.spoils hgood hs hdec hw

end

/-! ## Lists -/

variable {good : Prop}

theorem SettlesIn.between {wrap : Err → Err} {inside : Nat → Stream → Res α} {p : Bytes} (h : SettlesIn (inside p.length) p same good)
    (hin : Inside (inside p.length)) (hlen : p.length < 256 ^ 8) : Settles (between wrap inside) (encodeList p) same good False := by
  constructor
  · intro hgood s u us hs
    obtain ⟨s2, hlist, hs2⟩ := hs.list_encode hlen
    obtain ⟨w, s3, hd, hok, hw, hs3⟩ := h.comes hgood hs2
    obtain ⟨s4, hend, hs4⟩ := hs3.listEnd
    refine ⟨w, s4, none, ?_, hw, hs4, fun _ => rfl, False.elim⟩
    rw [between_end hlist hok, hend]
  · intro hbad s s' u us w hs hok
    obtain ⟨s2, hlist, hs2⟩ := hs.list_encode hlen
    obtain ⟨n, s3, s4, hlist', hok', hend⟩ := between_ok hok
    cases hlist.symm.trans hlist'
    obtain ⟨hd, u', hs4⟩ := hin.ok hs2 (.inl rfl) hok'
    obtain rfl := hs4.nil_of_listEnd hend
    exact h.spoils hbad hs2 hok' hs4

theorem SettlesIn.inList {p : Bytes} (h : SettlesIn inside p same good) (hin : Inside inside) (hlen : p.length < 256 ^ 8) :
    Settles (decodeInList inside) (encodeList p) same good False :=
  decodeInList_between inside ▸ SettlesIn.between h hin hlen

variable {turns : Nat}

/-- Slices. -/
theorem listSlice_settles {enc : γ → Bytes} {same : γ → α → Prop} {good sticky : γ → Prop} (hreads : Reads st dec)
    (hstuck : ∀ a, sticky a → Stuck dec) (hpos : ∀ a, enc a ≠ []) {vs : List γ}
    (hall : ∀ a ∈ vs, Settles dec (enc a) (same a) (good a) (sticky a)) (hturns : vs.length < turns)
    (hlen : (vs.flatMap enc).length < 256 ^ 8) :
    Settles (decodeListSlice dec turns) (encodeList (vs.flatMap enc)) (List.Forall₂ same vs)
      (∀ a ∈ vs, good a ∧ ¬ sticky a) False := by
  rw [decodeListSlice_between]
  refine SettlesIn.between ⟨?_, ?_⟩ (hreads.sliceElems turns _) hlen
  · intro hgood s v us hs
    obtain ⟨ws, s', hok, hws, hs'⟩ := sliceElems_of_encoded (fun a ha => (hall a ha).clean (hgood a ha)) hreads.eol hpos hturns hs
    exact ⟨ws, s', none, hok, hws, hs'⟩
  · intro hbad s s' hd us ws hs hok hs'
    rcases sliceElems_ok hok with ⟨hzero, -, -⟩ | hok
    · obtain rfl := eq_nil_of_flatMap hpos hzero
      exact absurd nofun hbad
    · exact loops_spoils hstuck (.of_ok hok) hall hbad hs

/-! ## Fields and elements -/

section
variable {f : Err → Err} {good' : Prop}

/-- The last field. -/
theorem Settles.last (h : Settles dec enc same good sticky) (c : β) :
    SettlesIn (inTurn f dec fun s => (.ok c s : Res β)) enc (fun w => same w.1) good := by
  constructor
  · intro hgood s v us hs
    rw [← append_nil enc] at hs
    obtain ⟨w, s1, hd, hdec, hw, hs1, -⟩ := h.comes hgood hs
    exact ⟨(w, c), s1, hd, inTurn_cons hdec rfl, hw, hs1⟩
  · intro hbad s s' hd us w hs hok hs'
    rw [← append_nil enc] at hs
    obtain ⟨s1, hdec, -⟩ := inTurn_ok hok
    exact h.spoils hbad hs hdec

/-- A field with others behind it, which are not reached if something is left of it. -/
theorem Settles.inTurn {p : Bytes} {same' : β → Prop}
    (h : Settles dec enc same good sticky) (hrest : SettlesIn rest p same' good')
    (hahead : sticky → ∀ {s s' : Stream} {hd : Option Head} {us : List Bytes} {w : β}, s.Sees (some (.byte 0)) p us →
      rest s = .ok w s' → s'.Sees hd [] us → ¬ same' w) :
    SettlesIn (inTurn f dec rest) (enc ++ p) (fun w => same w.1 ∧ same' w.2) (good ∧ ¬ sticky ∧ good') := by
  constructor
  · intro ⟨hgood, hsticky, hgood'⟩ s v us hs
    obtain ⟨w, s1, hd, hdec, hw, hs1, hnone, -⟩ := h.comes hgood hs
    rw [hnone hsticky] at hs1
    obtain ⟨ws, s2, hd', hok, hws, hs2⟩ := hrest.comes hgood' hs1
    exact ⟨(w, ws), s2, hd', inTurn_cons hdec hok, ⟨hw, hws⟩, hs2⟩
  · intro hbad s s' hd us w hs hok hs' hsame
    obtain ⟨s1, hdec, hok'⟩ := inTurn_ok hok
    by_cases hgood : good
    · obtain ⟨w', s2, hd', hdec', -, hs1, hnone, hleft⟩ := h.comes hgood hs
      obtain ⟨-, rfl⟩ : w' = w.1 ∧ s2 = s1 := by simpa using hdec'.symm.trans hdec
      by_cases hsticky : sticky
      · rw [hleft hsticky] at hs1
        exact hahead hsticky hs1 hok' hs' hsame.2
      · rw [hnone hsticky] at hs1
        exact hrest.spoils (fun hgood' => hbad ⟨hgood, hsticky, hgood'⟩) hs1 hok' hs' hsame.2
    · exact h.spoils hgood hs hdec hsame.1

end

theorem SettlesIn.map {p : Bytes} (h : SettlesIn inside p same good) {g : α → β}
    {same' : β → Prop} (hsame : ∀ w, same' (g w) ↔ same w) : SettlesIn (fun s => mapOk g (inside s)) p same' good := by
  constructor
  · intro hgood s v us hs
    obtain ⟨w, s', hd, hok, hw, hs'⟩ := h.comes hgood hs
    exact ⟨g w, s', hd, by rw [hok]; rfl, (hsame w).mpr hw, hs'⟩
  · intro hbad s s' hd us w hs hok hs' hw
    obtain ⟨a, hin, rfl⟩ := mapOk_ok hok
    exact h.spoils hbad hs hin hs' ((hsame a).mp hw)

theorem SettlesIn.congr {p : Bytes} {same' : α → Prop} {good' : Prop}
    (h : SettlesIn inside p same good) (hsame : ∀ w, same' w ↔ same w) (hgood : good' ↔ good) : SettlesIn inside p same' good' := by
  rw [hgood, funext fun w => propext (hsame w)]
  exact h

/-- The elements of an array. Of the last one something may be left. -/
theorem arrayElems_settles {enc : γ → Bytes} {same : γ → α → Prop} {good sticky : γ → Prop}
    (hstuck : ∀ a, sticky a → Stuck dec) (hpos : ∀ a, enc a ≠ []) :
    ∀ {vs : List γ}, (∀ a ∈ vs, Settles dec (enc a) (same a) (good a) (sticky a)) → ∀ {n : Nat} (i : Nat), vs.length = n →
    SettlesIn (decodeArrayElems dec n i) (vs.flatMap enc) (fun ws => List.Forall₂ same vs ws.val)
      ((∀ a ∈ vs, good a) ∧ ∀ a ∈ vs.dropLast, ¬ sticky a)
  | [], _, 0, _, _ => by
    refine ⟨?_, fun hbad => absurd ⟨nofun, nofun⟩ hbad⟩
    intro _ s v us hs
    exact ⟨_, s, none, rfl, .nil, hs⟩
  | [a], hall, 1, i, _ => by
    rw [decodeArrayElems_succ, flatMap_singleton]
    refine (((hall a mem_cons_self).last _).map fun p => ?_).congr (fun _ => Iff.rfl) (by simp)
    have hnil : p.2.val = [] := length_eq_zero_iff.mp p.2.property
    simp [hnil]
  | a :: b :: vs, hall, n + 1, i, hn => by
    obtain ⟨ha, hvs⟩ := forall_mem_cons.mp hall
    have ih := arrayElems_settles hstuck hpos hvs (i + 1) (Nat.succ.inj hn)
    have hgood : ((∀ c ∈ a :: b :: vs, good c) ∧ ∀ c ∈ (a :: b :: vs).dropLast, ¬ sticky c) ↔
        good a ∧ ¬ sticky a ∧ (∀ c ∈ b :: vs, good c) ∧ ∀ c ∈ (b :: vs).dropLast, ¬ sticky c := by
      rw [dropLast_cons_cons, forall_mem_cons (l := b :: vs), forall_mem_cons (l := (b :: vs).dropLast)]
      tauto
    rw [decodeArrayElems_succ, flatMap_cons, hgood]
    refine SettlesIn.map (ha.inTurn ih ?_) fun p => forall₂_cons
    intro hsticky s s' hd us w hs hok hs'
    have hempty := ((hstuck a hsticky).arrayElems hs hok).nil_of_nil hs'
    exact absurd (append_eq_nil_iff.mp hempty).1 (hpos b)

/-! ## Pointers -/

variable {t : Tree}

theorem nextKind_ok (hlen : t.encode.length < 256 ^ 8) (hs : s.Sees none (t.encode ++ u) us) :
    ∃ hd content s1, t.encode = hd.bytes ++ content ∧ s.nextKind = .ok (headKind hd, hd.size) s1 ∧ s1.Sees (some hd) (content ++ u) us ∧
      (hd.size = 0 ∧ headKind hd ≠ .byte ↔ t.Empty) ∧ (t.Empty → content = []) := by
  obtain ⟨hd, content, henc, hv, hsize, hempty, hcontent⟩ : ∃ hd content, t.encode = hd.bytes ++ content ∧ hd.Valid ∧
      hd.size ≤ content.length ∧ (hd.size = 0 ∧ headKind hd ≠ .byte ↔ t.Empty) ∧ (t.Empty → content = []) := by
    cases t with
    | string b =>
      have hb := (length_le_encodeString b).trans_lt hlen
      obtain ⟨c, rfl, hc, henc⟩ | ⟨-, henc⟩ := encodeString_cases b
      · exact ⟨.byte c, [], henc, hc, le_rfl, by simp [headKind, Tree.Empty], fun _ => rfl⟩
      · exact ⟨.string b.length, b, henc, hb, le_rfl, by simp [headKind, Tree.Empty, Head.size], id⟩
    | list ts =>
      have hts := (length_le_encodeList _).trans_lt hlen
      refine ⟨.list (encodeAll ts).length, encodeAll ts, rfl, hts, le_rfl, ?_, ?_⟩
      · have hcount := length_le_encodeAll ts
        constructor
        · rintro ⟨hzero, -⟩
          rw [show (encodeAll ts).length = 0 from hzero] at hcount
          exact length_eq_zero_iff.mp (by omega)
        · intro hnil
          rw [show ts = [] from hnil]
          exact ⟨rfl, fun h => by cases h⟩
      · intro hnil
        rw [show ts = [] from hnil]
        rfl
  rw [henc, append_assoc] at hs
  have hnext : s.Next hd (content ++ u) us := .inr ⟨hv, by rw [length_append]; omega, hs⟩
  obtain ⟨s1, hk, hs1⟩ := hnext.nextKind
  exact ⟨hd, content, s1, henc, hk, hs1, hempty, hcontent⟩

/-- An empty string or list is decoded to a nil pointer. -/
theorem optional_empty (hlen : t.encode.length < 256 ^ 8) (hempty : t.Empty) {same : Option α → Prop} (hsame : same none)
    (hsticky : ¬ sticky) : Comes (decodeOptionalPtr dec) t.encode same sticky := by
  intro s u us hs
  obtain ⟨hd, content, s1, -, hk, hs1, hiff, hcontent⟩ := nextKind_ok hlen hs
  obtain ⟨hzero, hkind⟩ := hiff.mpr hempty
  rw [hzero] at hk
  rw [hcontent hempty] at hs1
  exact ⟨none, _, none, decodeOptionalPtr_nil hk hkind, hsame, hs1.clear, fun _ => rfl, fun h => absurd h hsticky⟩

theorem Settles.optional_some (hreads : Reads st dec) (hlen : t.encode.length < 256 ^ 8) (hempty : ¬ t.Empty)
    {same' : Option α → Prop} (hsame : ∀ w, same' (some w) ↔ same w) (h : Settles dec t.encode same good sticky) :
    Settles (decodeOptionalPtr dec) t.encode same' good sticky := by
  have heq : ∀ {s : Stream} {u : Bytes} {us : List Bytes}, s.Sees none (t.encode ++ u) us →
      decodeOptionalPtr dec s = mapOk some (dec s) := by
    intro s u us hs
    obtain ⟨hd, content, s1, -, hk, hs1, hiff, -⟩ := nextKind_ok hlen hs
    exact decodeOptionalPtr_some hreads hk hs1.nextKind (fun hnil => hempty (hiff.mp hnil))
  constructor
  · intro hgood s u us hs
    obtain ⟨w, s', hd, hdec, hw, hs'⟩ := h.comes hgood hs
    refine ⟨some w, s', hd, ?_, (hsame w).mpr hw, hs'⟩
    rw [heq hs, hdec]
    rfl
  · intro hbad s s' u us w hs hok hw
    rw [heq hs] at hok
    obtain ⟨a, hdec, rfl⟩ := mapOk_ok hok
    exact h.spoils hbad hs hdec ((hsame a).mp hw)

theorem Settles.map (h : Settles dec enc same good sticky) {f : α → β}
    {same' : β → Prop} (hsame : ∀ w, same' (f w) ↔ same w) : Settles (fun s => mapOk f (dec s)) enc same' good sticky := by
  constructor
  · intro hgood s u us hs
    obtain ⟨w, s', hd, hdec, hw, hs'⟩ := h.comes hgood hs
    exact ⟨f w, s', hd, by dsimp only; rw [hdec]; rfl, (hsame w).mpr hw, hs'⟩
  · intro hbad s s' u us w hs hok hw
    obtain ⟨a, hdec, rfl⟩ := mapOk_ok hok
    exact h.spoils hbad hs hdec ((hsame a).mp hw)

theorem Settles.congr {sticky' : Prop} (h : Settles dec enc same good sticky)
    (hgood : good' ↔ good) (hsticky : sticky' ↔ sticky) : Settles dec enc same good' sticky' := by
  rw [hgood, hsticky]
  exact h

/-! ## Strings and integers -/

theorem comes_uint {w : Width} (v : Uint w) : Comes (decodeUint w) (encodeNat v.val) (fun x => v.val = x.val) False := by
  intro s u us hs
  have hbits : 8 * w.size / 8 = w.size := by omega
  have hsize : w.size ≤ 8 := by cases w <;> simp [Width.size]
  have hv : v.val < 256 ^ (8 * w.size / 8) := by
    rw [hbits]
    exact v.lt
  obtain ⟨s', huint, hs'⟩ := hs.uint_encode hv (by omega)
  refine ⟨⟨v.val % 256 ^ w.size, Nat.mod_lt _ w.pow_pos⟩, s', none, ?_, ?_, hs', fun _ => rfl, False.elim⟩
  · unfold decodeUint
    rw [huint]
    rfl
  · exact (Nat.mod_eq_of_lt v.lt).symm

theorem comes_bool (b : Bool) : Comes decodeBool (encodeString (if b then [1] else [])) (b = ·) False := by
  intro s u us hs
  have henc : encodeString (if b then [1] else []) = encodeNat b.toNat := by
    cases b
    · rfl
    · have hdigits : Nat.digits 256 1 = [1] := Nat.digits_of_lt 256 1 (by omega) (by omega)
      rw [if_pos rfl, encodeNat, minimal, Bool.toNat_true, hdigits]
      rfl
  rw [henc] at hs
  have hb : b.toNat < 256 ^ (8 / 8) := by cases b <;> simp
  obtain ⟨s', huint, hs'⟩ := hs.uint_encode hb (by omega)
  refine ⟨b, s', none, ?_, rfl, hs', fun _ => rfl, False.elim⟩
  unfold decodeBool Stream.bool
  rw [huint]
  cases b <;> rfl

theorem comes_bytes {b : Bytes} (hb : b.length < 256 ^ 8) : Comes decodeByteSlice (encodeString b) (b = ·) False := by
  intro s u us hs
  obtain ⟨s', hbytes, hs'⟩ := hs.bytes_encode hb
  refine ⟨b, s', none, ?_, rfl, hs', fun _ => rfl, False.elim⟩
  unfold decodeByteSlice
  rw [hbytes]
  rfl

theorem comes_bigInt {i : Int} (hi : 0 ≤ i) (hlen : (minimal i.natAbs).length < 256 ^ 8) :
    Comes decodeBigInt (encodeString (minimal i.natAbs)) (i = ·) False := by
  intro s u us hs
  obtain ⟨s', hbytes, hs'⟩ := hs.bytes_encode hlen
  refine ⟨i, s', none, ?_, rfl, hs', fun _ => rfl, False.elim⟩
  unfold decodeBigInt
  rw [hbytes]
  dsimp only
  rw [if_neg (head_minimal _), decode_minimal, Int.natAbs_of_nonneg hi]

theorem comes_byteArray {n : Nat} (b : { b : Bytes // b.length = n }) (hn : n < 256 ^ 8) :
    Comes (decodeByteArray n) (encodeString b.val) (b = ·) (n = 1 ∧ b.val = [0]) := by
  intro s u us hs
  obtain ⟨b, hb⟩ := b
  obtain ⟨c, rfl, hc, henc⟩ | ⟨hbig, henc⟩ := encodeString_cases b
  · obtain rfl : n = 1 := hb.symm
    rw [henc] at hs
    obtain ⟨s1, heq, hs1⟩ := (kindFirst_byteArray 1).eq (.byte c) hs hc (Nat.zero_le _)
    rw [heq]
    by_cases hzero : c = 0
    · subst hzero
      exact ⟨_, s1, _, byteArray_zero hs1, rfl, hs1, fun h => absurd ⟨rfl, rfl⟩ h, fun _ => rfl⟩
    · obtain ⟨s2, hok, hs2⟩ := byteArray_byte hs1 hzero
      exact ⟨_, s2, none, hok, rfl, hs2, fun _ => rfl, fun h => absurd (List.cons.inj h.2).1 hzero⟩
  · rw [henc, append_assoc, hb] at hs
    obtain ⟨s1, heq, hs1⟩ := (kindFirst_byteArray n).eq (.string n) hs hn (by simp [Head.size, hb])
    have hstring := byteArray_string hs1
    rw [take_left' hb, drop_left' hb] at hstring
    rw [if_neg ?_] at hstring
    · obtain ⟨hlen, s2, hok, hs2⟩ := hstring
      refine ⟨_, s2, none, heq.trans hok, rfl, hs2, fun _ => rfl, fun h => ?_⟩
      exact absurd (by decide) (hbig 0 h.2)
    · rintro ⟨hone, hhead⟩
      obtain ⟨c, rfl⟩ := length_eq_one_iff.mp (hb.trans hone)
      exact hbig c rfl (by simpa using hhead)

/-! ## Nil pointers -/

theorem Tree.Empty.length (h : t.Empty) : t.encode.length = 1 := by
  cases t with
  | string b =>
    rw [show b = [] from h]
    rfl
  | list ts =>
    rw [show ts = [] from h]
    rfl

theorem Tree.Empty.small (h : t.Empty) : t.encode.length < 256 ^ 8 := by
  rw [h.length]
  exact Nat.one_lt_pow (by omega) (by omega)

theorem Ty.empty_nilTree : ∀ t : Ty, t.nilTree.Empty
  | .uint _ | .bool | .string | .bigInt | .bytes | .byteArray _ | .slice _ | .array _ _
  | .struct _ => rfl
  | .ptr elem => elem.empty_nilTree

/-- The value that is written like a nil pointer. -/
def Ty.nilVal : (t : Ty) → t.Val
  | .ptr elem => (some elem.nilVal : Option elem.Val)
  | t => t.zero

theorem Ty.NilOk.nilVal : ∀ {t : Ty}, t.NilOk → t.tree t.nilVal = t.nilTree ∧ t.Good t.nilVal ∧ ¬ t.Sticky t.nilVal ∧ t.Encodable t.nilVal
  | .uint _, _ | .bool, _ | .string, _ | .bytes, _ | .struct .nil, _ => ⟨rfl, trivial, id, trivial⟩
  | .bigInt, _ => ⟨rfl, trivial, id, Int.le_refl _⟩
  | .byteArray n, h => by
    obtain rfl : n = 0 := h
    exact ⟨rfl, trivial, fun h => (nomatch h.1), trivial⟩
  | .slice _, _ | .struct (.tail _ _), _ => ⟨rfl, nofun, id, nofun⟩
  | .array n elem, h => by
    obtain rfl : n = 0 := h
    exact ⟨rfl, ⟨nofun, nofun⟩, id, nofun⟩
  | .ptr elem, h => by
    have helem : elem.NilOk := h
    obtain ⟨htree, hgood, hsticky, henc⟩ := helem.nilVal
    refine ⟨htree, hgood, ?_, ?_⟩
    · intro ⟨a, ha, hs⟩
      cases ha
      exact hsticky hs
    · intro a ha
      cases ha
      exact henc

/-- Of an empty list, what is inside is decoded from nothing. -/
theorem inList_nil {w : α} (hs : s.Sees none (encodeList [] ++ u) us) (hok : decodeInList inside s = .ok w s') :
    ∃ v s1 s2, inside s1 = .ok w s2 ∧ s1.Sees none [] (v :: us) := by
  obtain ⟨s2, hlist, hs2⟩ := hs.list_encode (Nat.pow_pos (by omega))
  obtain ⟨m, s3, s4, hlist', hin, -⟩ := between_ok hok
  cases hlist.symm.trans hlist'
  exact ⟨u, s2, s4, hin, hs2⟩

/-- An empty string or list is not decoded where no value is written so. -/
theorem Ty.not_nilOk (turns : Nat) : ∀ t : Ty, ¬ t.NilOk →
    s.Sees none (t.nilTree.encode ++ u) us → ∀ w, t.decode turns s ≠ .ok w s'
  | .uint _, h, _ | .bool, h, _ | .string, h, _ | .bigInt, h, _ | .bytes, h, _ | .slice _, h, _
  | .struct .nil, h, _ | .struct (.tail _ _), h, _ => absurd trivial h
  | .byteArray n, h, hs => by
    intro w hok
    obtain ⟨hd, content, s1, -, hk, hs1, hiff, -⟩ := nextKind_ok (Ty.byteArray n).empty_nilTree.small hs
    obtain ⟨hzero, hkind⟩ := hiff.mpr rfl
    have hok' := ((kindFirst_byteArray n).again hk hs1.nextKind).symm.trans hok
    cases hd with
    | byte b => exact hkind rfl
    | list m =>
      obtain ⟨e, herr, -⟩ := byteArray_misfit (n := n) hs1 trivial
      cases herr.symm.trans hok'
    | string m =>
      obtain ⟨e, herr, -⟩ := byteArray_misfit hs1 (show m ≠ n from fun hm => h (hm.symm.trans hzero))
      cases herr.symm.trans hok'
  | .array n elem, h, hs => by
    intro w hok
    obtain ⟨n, rfl⟩ : ∃ m, n = m + 1 := ⟨n - 1, by have : n ≠ 0 := h; omega⟩
    obtain ⟨v, s2, s3, hin, hs2⟩ := inList_nil hs hok
    rw [decodeArrayElems_succ] at hin
    obtain ⟨p, hok, -⟩ := mapOk_ok hin
    obtain ⟨s5, hdec, -⟩ := inTurn_ok hok
    exact (Ty.reads turns elem).not_ok_nil hs2 _ hdec
  | .struct (.cons name t rest), h, hs => by
    intro w hok
    obtain ⟨v, s2, s3, hin, hs2⟩ := inList_nil hs hok
    obtain ⟨s5, hdec, -⟩ := inTurn_ok hin
    exact (Ty.reads turns t).not_ok_nil hs2 _ hdec
  | .struct (.opt name elem rest), h, hs => by
    intro w hok
    obtain ⟨v, s2, s3, hin, hs2⟩ := inList_nil hs hok
    obtain ⟨s5, hdec, -⟩ := inTurn_ok hin
    exact (Ty.reads turns elem).optional.not_ok_nil hs2 _ hdec
  | .ptr elem, h, hs => by
    intro w hok
    obtain ⟨a, hok', -⟩ := mapOk_ok hok
    exact Ty.not_nilOk turns elem h hs a hok'

/-- Values that are the same are empty together. -/
theorem Fields.Same.length : ∀ {fs : Fields} {v w : fs.Val}, fs.Same v w → (fs.trees v).length = (fs.trees w).length
  | .nil, _, _, _ => rfl
  | .tail _ elem, vs, ws, h => by
    have hlen : List.length vs = List.length ws := List.Forall₂.length_eq h
    exact (length_map _).trans (hlen.trans (length_map _).symm)
  | .cons _ _ _, _, _, h | .opt _ _ _, _, _, h => congrArg (· + 1) (Fields.Same.length h.2)

theorem Ty.Same.empty : ∀ {t : Ty} {v w : t.Val}, t.Same v w → (t.tree v).Empty → (t.tree w).Empty
  | .uint _, v, w, h, he => by
    have he' : minimal v.val = [] := he
    rw [show v.val = w.val from h] at he'
    exact he'
  | .bool, _, _, h, he | .string, _, _, h, he | .bigInt, _, _, h, he | .bytes, _, _, h, he
  | .byteArray _, _, _, h, he => by cases h; exact he
  | .slice elem, vs, ws, h, he => by
    obtain rfl : vs = [] := map_eq_nil_iff.mp he
    cases h
    exact he
  | .array _ elem, vs, ws, h, he => by
    have hnil : vs.val = [] := map_eq_nil_iff.mp he
    have hlen : vs.val.length = ws.val.length := List.Forall₂.length_eq h
    rw [hnil] at hlen
    exact map_eq_nil_iff.mpr (length_eq_zero_iff.mp hlen.symm)
  | .ptr elem, _, none, _, _ => elem.empty_nilTree
  | .ptr elem, none, some _, h, _ => h
  | .ptr elem, some a, some b, h, he => by
    have hab : elem.Same a b := h
    exact hab.empty he
  | .struct fields, v, w, h, he => by
    have hlen := Fields.Same.length (show fields.Same v w from h)
    rw [show fields.trees v = [] from he] at hlen
    exact length_eq_zero_iff.mp hlen.symm

/-! ## Counting -/

/-- Every field takes one item. If something was left of the item before, the first one takes none. -/
def Counts (inside : Stream → Res α) (size : α → Nat) (any : Prop) : Prop :=
  ∀ ⦃s s' : Stream⦄ ⦃hd : Option Head⦄ ⦃ts : List Tree⦄ ⦃us : List Bytes⦄ ⦃w : α⦄, (encodeAll ts).length < 256 ^ 8 →
    s.Sees hd (encodeAll ts) us → Left True hd → inside s = .ok w s' →
    ∃ hd' ts', s'.Sees hd' (encodeAll ts') us ∧ ts.length ≤ ts'.length + size w ∧
      (hd ≠ none → any → ts.length < ts'.length + size w)

theorem Consumes.counts (h : Consumes st dec) {size : β → Nat} {any : Prop} (hrest : Counts rest size any)
    (name : String) : Counts (decodeField name dec rest) (fun w => size w.2 + 1) True := by
  intro s s' hd ts us w hlen hs hleft hok
  obtain ⟨s1, hok1, hok2⟩ := inTurn_ok hok
  rcases hleft with rfl | ⟨-, rfl⟩
  · obtain ⟨t, ts1, hd1, rfl, hs1, hleft1⟩ := h.next hlen hs hok1
    rw [encodeAll, length_append] at hlen
    obtain ⟨hd', ts', hs', hcount, -⟩ := hrest (by omega) hs1 hleft1.weaken hok2
    exact ⟨hd', ts', hs', by dsimp only; rw [length_cons]; omega, absurd rfl⟩
  · obtain ⟨hd1, hs1, hleft1⟩ := h.ahead hs hok1
    obtain ⟨hd', ts', hs', hcount, -⟩ := hrest hlen hs1 hleft1.weaken hok2
    exact ⟨hd', ts', hs', by dsimp only; omega, fun _ _ => by dsimp only; omega⟩

theorem counts (turns : Nat) : ∀ fs : Fields, Counts (fs.decode turns) (fun w => (fs.trees w).length) (fs ≠ .nil)
  | .nil => by
    intro s s' hd ts us w _ hs _ hok
    cases hok
    exact ⟨hd, ts, hs, Nat.le_add_right _ _, fun _ hne => absurd rfl hne⟩
  | .tail name elem => by
    intro s s' hd ts us w hlen hs hleft hok
    have hok' := mapError_ok hok
    obtain ⟨hle, hlt⟩ := (Ty.reads turns elem).length_loops (.of_ok hok') hlen hs hleft
    have hw : (trees (.tail name elem) w).length = List.length w := length_map _
    refine ⟨none, [], (Ty.reads turns elem).loops (.of_ok hok') hs hleft, ?_, fun hne _ => ?_⟩
    · dsimp only
      rw [hw, length_nil, Nat.zero_add]
      exact hle
    · dsimp only
      rw [hw, length_nil, Nat.zero_add]
      exact hlt hne
  | .cons name t rest => by
    intro s s' hd ts us w hlen hs hleft hok
    obtain ⟨hd', ts', hs', hle, hlt⟩ := (Ty.reads turns t).counts (counts turns rest) name hlen hs hleft hok
    exact ⟨hd', ts', hs', hle, fun hne _ => hlt hne trivial⟩
  | .opt name elem rest => by
    intro s s' hd ts us w hlen hs hleft hok
    obtain ⟨hd', ts', hs', hle, hlt⟩ := (Ty.reads turns elem).optional.counts (counts turns rest) name hlen hs hleft hok
    exact ⟨hd', ts', hs', hle, fun hne _ => hlt hne trivial⟩

/-- If something was left of the item before, the fields are not what was written. -/
theorem spoils_ahead (turns : Nat) {fs : Fields} (hne : fs ≠ .nil) {v w : fs.Val} (hlen : (encodeAll (fs.trees v)).length < 256 ^ 8)
    {hd : Option Head} (hs : s.Sees (some (.byte 0)) (encodeAll (fs.trees v)) us)
    (hok : fs.decode turns s = .ok w s') (hs' : s'.Sees hd [] us) : ¬ fs.Same v w := by
  intro hsame
  obtain ⟨hd', ts', hs'', -, hlt⟩ := counts turns fs hlen hs (.inr ⟨trivial, rfl⟩) hok
  have hnil := length_le_encodeAll ts'
  rw [hs''.nil_of_nil hs', length_nil] at hnil
  have hlength := hsame.length
  have hmore : (fs.trees v).length < ts'.length + (fs.trees w).length := hlt nofun hne
  omega

/-! ## All types -/

theorem Ty.HasSticky.stuck (turns : Nat) : ∀ {t : Ty}, t.HasSticky → Stuck (t.decode turns)
  | .byteArray n, h => by
    obtain rfl : n = 1 := h
    intro s u us hs
    exact ⟨_, s, byteArray_zero hs, hs⟩
  | .ptr elem, h => by
    have helem : elem.HasSticky := h
    intro s u us hs
    obtain ⟨w, s', hdec, hs'⟩ := helem.stuck turns hs
    refine ⟨some w, s', ?_, hs'⟩
    rw [Ty.decode]
    dsimp only
    rw [hdec]
    rfl

theorem Ty.Sticky.not_empty : ∀ {t : Ty} {v : t.Val}, t.Sticky v → ¬ (t.tree v).Empty
  | .byteArray _, b, h, he => by
    have he' : b.val = [] := he
    rw [h.2] at he'
    cases he'
  | .ptr elem, v, ⟨a, hv, h⟩, he => by
    cases hv
    exact h.not_empty he

theorem encodeAll_map {f : γ → Tree} (vs : List γ) : encodeAll (vs.map f) = vs.flatMap fun a => (f a).encode := by
  rw [encodeAll_eq, flatMap_map]

/-- A value of the type comes back if and only if it is good. -/
def Ty.Settled (turns : Nat) (t : Ty) : Prop := ∀ v : t.Val, t.Encodable v → (t.tree v).encode.length < 256 ^ 8 →
  (t.tree v).encode.length < turns → Settles (t.decode turns) (t.tree v).encode (t.Same v) (t.Good v) (t.Sticky v)

def Fields.Settled (turns : Nat) (fs : Fields) : Prop := ∀ v : fs.Val, fs.Encodable v → (encodeAll (fs.trees v)).length < 256 ^ 8 →
  (encodeAll (fs.trees v)).length < turns → SettlesIn (fs.decode turns) (encodeAll (fs.trees v)) (fs.Same v) (fs.Good v)

section
variable {turns : Nat} {elem : Ty}

section
variable (h : elem.Settled turns)
include h

/-- The elements of what is written as a list. -/
theorem Ty.Settled.elems {vs : List elem.Val} (henc : ∀ v ∈ vs, elem.Encodable v)
    (hlen : (encodeAll (vs.map elem.tree)).length < 256 ^ 8) (hturns : (encodeAll (vs.map elem.tree)).length < turns) :
    ∀ a ∈ vs, Settles (elem.decode turns) (elem.tree a).encode (elem.Same a) (elem.Good a) (elem.Sticky a) := by
  intro a ha
  have hle := length_encode_le_of_mem (mem_map_of_mem (f := elem.tree) ha)
  exact h a (henc a ha) (by omega) (by omega)

theorem Ty.Settled.slice : (Ty.slice elem).Settled turns := by
  intro (vs : List elem.Val) henc hlen hturns
  have hlt := length_encodeAll_lt (vs.map elem.tree)
  have hcount := length_le_encodeAll (vs.map elem.tree)
  rw [length_map] at hcount
  have hlen' : (list (vs.map elem.tree)).encode.length < 256 ^ 8 := hlen
  have hturns' : (list (vs.map elem.tree)).encode.length < turns := hturns
  have hset := h.elems henc (by omega) (by omega)
  have heq := encodeAll_map (f := elem.tree) vs
  have hlist := listSlice_settles (Ty.reads turns elem) (fun a ha => ha.hasSticky.stuck turns) (fun a => (elem.tree a).encode_ne_nil) hset
    (show vs.length < turns by omega) (by rw [← heq]; omega)
  rw [← heq] at hlist
  exact hlist

theorem Ty.Settled.array (n : Nat) : (Ty.array n elem).Settled turns := by
  intro (vs : { vs : List elem.Val // vs.length = n }) henc hlen hturns
  have hlt := length_encodeAll_lt (vs.val.map elem.tree)
  have hlen' : (list (vs.val.map elem.tree)).encode.length < 256 ^ 8 := hlen
  have hturns' : (list (vs.val.map elem.tree)).encode.length < turns := hturns
  have hset := h.elems henc (by omega) (by omega)
  have heq := encodeAll_map (f := elem.tree) vs.val
  have hin := arrayElems_settles (fun a ha => ha.hasSticky.stuck turns) (fun a => (elem.tree a).encode_ne_nil) hset 0 vs.property
  rw [← heq] at hin
  exact hin.inList ((Ty.reads turns elem).arrayElems n 0) (by omega)

theorem Ty.Settled.tail (name : String) : (tail name elem).Settled turns := by
  intro (vs : List elem.Val) henc hlen hturns
  have hcount := length_le_encodeAll (vs.map elem.tree)
  rw [length_map] at hcount
  have hturns' : (encodeAll (vs.map elem.tree)).length < turns := hturns
  have hset := h.elems henc hlen hturns
  have heq := encodeAll_map (f := elem.tree) vs
  constructor
  · intro hgood s v us hs
    have hs : s.Sees none (encodeAll (vs.map elem.tree)) (v :: us) := hs
    rw [heq] at hs
    obtain ⟨ws, s', hok, hws, hs'⟩ := elems_of_encoded (fun a ha => (hset a ha).clean (hgood a ha)) (Ty.reads turns elem).eol
      (i := 0) (show vs.length < turns by omega) hs
    have hmap : mapError (fieldError name) (decodeSliceElems (elem.decode turns) turns 0 s) = .ok ws s' := by
      rw [hok]
      rfl
    exact ⟨ws, s', none, hmap, hws, hs'⟩
  · intro hbad s s' hd us ws hs hok _
    have hs : s.Sees none (encodeAll (vs.map elem.tree)) us := hs
    rw [heq] at hs
    exact loops_spoils (fun a ha => ha.hasSticky.stuck turns) (.of_ok (mapError_ok hok)) hset hbad hs

/-- A nil pointer comes back as a pointer to an empty value, where there is one. -/
theorem Ty.Settled.ptr : (Ty.ptr elem).Settled turns := by
  intro (v : Option elem.Val) henc hlen hturns
  cases v with
  | some a =>
    have hsticky : (Ty.ptr elem).Sticky (some a) ↔ elem.Sticky a := ⟨fun ⟨_, hb, h⟩ => by cases hb; exact h, fun h => ⟨a, rfl, h⟩⟩
    have hmap : Settles (fun s => mapOk some (elem.decode turns s)) (elem.tree a).encode
        (SamePtr (fun a => (elem.tree a).Empty) elem.Same (some a)) (elem.Good a) (elem.Sticky a) :=
      (h a (henc a rfl) hlen hturns).map fun _ => Iff.rfl
    exact hmap.congr Iff.rfl hsticky
  | none =>
    by_cases hnil : elem.NilOk
    · obtain ⟨htree, hgood, hsticky, hencodable⟩ := hnil.nilVal
      have hset := h elem.nilVal hencodable (by rw [htree]; exact hlen) (by rw [htree]; exact hturns)
      rw [htree] at hset
      refine ⟨fun _ s u us hs => ?_, absurd hnil⟩
      obtain ⟨w, s', hd, hdec, hw, hs', hnone, -⟩ := hset.comes hgood hs
      have hempty : (elem.tree w).Empty := hw.empty (htree ▸ elem.empty_nilTree)
      have hmap : mapOk some (elem.decode turns s) = .ok (some w) s' := by
        rw [hdec]
        rfl
      exact ⟨(some w : Option elem.Val), s', hd, hmap, hempty, hs', fun _ => hnone hsticky, fun ⟨_, h, _⟩ => nomatch h⟩
    · refine ⟨fun hgood => absurd hgood hnil, fun _ s s' u us w hs hok => ?_⟩
      obtain ⟨a, hdec, -⟩ := mapOk_ok hok
      exact absurd hdec (Ty.not_nilOk turns elem hnil hs a)

/-- A pointer with the tag nil. -/
theorem Ty.Settled.optional {v : Option elem.Val} (henc : ∀ a, v = some a → elem.Encodable a)
    (hlen : (Ty.tree (.ptr elem) v).encode.length < 256 ^ 8) (hturns : (Ty.tree (.ptr elem) v).encode.length < turns) :
    Settles (decodeOptionalPtr (elem.decode turns)) (Ty.tree (.ptr elem) v).encode (SamePtr (fun a => (elem.tree a).Empty) elem.Same v)
      (∀ a, v = some a → (elem.tree a).Empty ∨ elem.Good a) (∃ a, v = some a ∧ elem.Sticky a) := by
  cases v with
  | none =>
    refine ⟨fun _ => ?_, fun hbad => absurd (fun _ h => by cases h) hbad⟩
    exact optional_empty hlen elem.empty_nilTree trivial (by simp)
  | some a =>
    have hsticky : (∃ b, some a = some b ∧ elem.Sticky b) ↔ elem.Sticky a := by simp
    have hset := h a (henc a rfl) hlen hturns
    by_cases hempty : (elem.tree a).Empty
    · refine ⟨fun _ => ?_, fun hbad => absurd (fun b hb => by cases hb; exact .inl hempty) hbad⟩
      exact optional_empty hlen hempty hempty fun h => (hsticky.mp h).not_empty hempty
    · have hgood : (∀ b, some a = some b → (elem.tree b).Empty ∨ elem.Good b) ↔ elem.Good a := by simp [hempty]
      have hlen' : (elem.tree a).encode.length < 256 ^ 8 := hlen
      have hsame : ∀ w, SamePtr (fun a => (elem.tree a).Empty) elem.Same (some a) (some w) ↔ elem.Same a w := fun _ => Iff.rfl
      exact (hset.optional_some (Ty.reads turns elem) hlen' hempty hsame).congr hgood hsticky

end

end

/-- A field and the fields behind it. -/
theorem Settles.fields (h : Settles dec enc same good sticky)
    {rest : Fields} {vs : rest.Val} (hrest : SettlesIn (rest.decode turns) (encodeAll (rest.trees vs)) (rest.Same vs) (rest.Good vs))
    (hlen : (encodeAll (rest.trees vs)).length < 256 ^ 8) (name : String) :
    SettlesIn (decodeField name dec (rest.decode turns)) (enc ++ encodeAll (rest.trees vs)) (fun w => same w.1 ∧ rest.Same vs w.2)
      (good ∧ (rest ≠ .nil → ¬ sticky) ∧ rest.Good vs) := by
  by_cases hnil : rest = .nil
  · subst hnil
    have henc : enc ++ encodeAll (nil.trees vs) = enc := append_nil enc
    rw [henc]
    refine (h.last ()).congr (fun w => ?_) ?_
    · exact and_iff_left trivial
    · exact and_iff_left ⟨absurd rfl, trivial⟩
  · refine (h.inTurn hrest fun _ => spoils_ahead turns hnil hlen).congr (fun _ => Iff.rfl) ?_
    simp only [ne_eq, hnil, not_false_eq_true, forall_const]

theorem Ty.Settled.cons {t : Ty} (h : t.Settled turns) {rest : Fields} (hrest : rest.Settled turns) (name : String) :
    (cons name t rest).Settled turns := by
  intro ⟨v, vs⟩ henc hlen hturns
  have hlen' : ((t.tree v).encode ++ encodeAll (rest.trees vs)).length < 256 ^ 8 := hlen
  have hturns' : ((t.tree v).encode ++ encodeAll (rest.trees vs)).length < turns := hturns
  rw [length_append] at hlen' hturns'
  exact (h v henc.1 (by omega) (by omega)).fields (hrest vs henc.2 (by omega) (by omega)) (by omega) name

theorem Ty.Settled.opt {elem : Ty} (h : elem.Settled turns) {rest : Fields} (hrest : rest.Settled turns) (name : String) :
    (opt name elem rest).Settled turns := by
  intro ⟨v, vs⟩ henc hlen hturns
  have hlen' : ((Ty.tree (.ptr elem) v).encode ++ encodeAll (rest.trees vs)).length < 256 ^ 8 := hlen
  have hturns' : ((Ty.tree (.ptr elem) v).encode ++ encodeAll (rest.trees vs)).length < turns := hturns
  rw [length_append] at hlen' hturns'
  have hv : ∀ a, v = some a → elem.Encodable a := henc.1
  have hset := (h.optional hv (by omega) (by omega)).fields (hrest vs henc.2 (by omega) (by omega)) (by omega) name
  refine hset.congr (fun _ => Iff.rfl) ?_
  constructor
  · intro ⟨hv, hvs⟩
    exact ⟨fun a ha => (hv a ha).1, fun hne ⟨a, ha, hs⟩ => (hv a ha).2 hne hs, hvs⟩
  · intro ⟨hgood, hsticky, hvs⟩
    exact ⟨fun a ha => ⟨hgood a ha, fun hne hs => hsticky hne ⟨a, ha, hs⟩⟩, hvs⟩

theorem Fields.Settled.struct {fields : Fields} (h : fields.Settled turns) : (Ty.struct fields).Settled turns := by
  intro (v : fields.Val) henc hlen hturns
  have hlt := length_encodeAll_lt (fields.trees v)
  have hlen' : (list (fields.trees v)).encode.length < 256 ^ 8 := hlen
  have hturns' : (list (fields.trees v)).encode.length < turns := hturns
  exact (h v henc (by omega) (by omega)).inList (inside turns fields) (by omega)

theorem Ty.settled_byteArray (turns n : Nat) : (Ty.byteArray n).Settled turns := by
  intro (b : { b : Bytes // b.length = n }) _ hlen _
  have hb := (length_le_encodeString b.val).trans_lt hlen
  rw [b.property] at hb
  exact .of_comes (comes_byteArray b hb)

mutual
/-- **A value comes back if and only if it is good.** -/
theorem Ty.settled (turns : Nat) : ∀ t : Ty, t.Settled turns
  | .uint _ => fun v _ _ _ => .of_comes (comes_uint v)
  | .bool => fun b _ _ _ => .of_comes (comes_bool b)
  | .string | .bytes => fun _ _ hlen _ => .of_comes (comes_bytes ((length_le_encodeString _).trans_lt hlen))
  | .bigInt => fun _ henc hlen _ => .of_comes (comes_bigInt henc ((length_le_encodeString _).trans_lt hlen))
  | .byteArray n => Ty.settled_byteArray turns n
  | .slice elem => (Ty.settled turns elem).slice
  | .array n elem => (Ty.settled turns elem).array n
  | .ptr elem => (Ty.settled turns elem).ptr
  | .struct fields => (settled turns fields).struct

theorem settled (turns : Nat) : ∀ fs : Fields, fs.Settled turns
  | .nil => fun _ _ _ _ => ⟨fun _ _ _ _ hs => ⟨(), _, none, rfl, trivial, hs⟩, absurd trivial⟩
  | .tail name elem => (Ty.settled turns elem).tail name
  | .cons name t rest => (Ty.settled turns t).cons (settled turns rest) name
  | .opt name elem rest => (Ty.settled turns elem).opt (settled turns rest) name
end

end Bgmchain.RLP
