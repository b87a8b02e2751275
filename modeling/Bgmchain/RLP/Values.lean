import Bgmchain.RLP.Types

/-! # The values that come back

Writing a value of a type writes a tree. Which values are decoded from it again is said here
by recursion over the type, as is which types have decoders that end on every input.

Two things go wrong. A nil pointer is written as an empty string or list also where the type
behind it has no such encoding. And the decoder of `[1]byte` leaves the byte `0x00` unread, so
that what stands behind it is not reached (such a value is `Sticky` here). -/
namespace Bgmchain.RLP
open Common Lib Rlp

/-! ## Trees -/

/-- What a nil pointer to a type is written as. -/
def Ty.nilTree : Ty → Tree
  | .slice _ => .list []
  | .array _ _ => .list []
  | .struct _ => .list []
  | .ptr elem => elem.nilTree
  | _ => .string []

mutual
/-- What a value is written as. -/
def Ty.tree : (t : Ty) → t.Val → Tree
  | .uint _, (v : Uint _) => .string (minimal v.val)
  | .bool, (b : Bool) => .string (if b then [1] else [])
  | .string, (b : Bytes) => .string b
  | .bigInt, (i : Int) => .string (minimal i.natAbs)
  | .bytes, (b : Bytes) => .string b
  | .byteArray _, (b : { b : Bytes // _ }) => .string b.val
  | .slice elem, (vs : List elem.Val) => .list (vs.map elem.tree)
  | .array _ elem, (vs : { vs : List elem.Val // _ }) => .list (vs.val.map elem.tree)
  | .ptr elem, (v : Option elem.Val) =>
    match v with
    | none => elem.nilTree
    | some v => elem.tree v
  | .struct fields, v => .list (fields.trees v)

def Fields.trees : (fs : Fields) → fs.Val → List Tree
  | .nil, _ => []
  | .tail _ elem, (vs : List elem.Val) => vs.map elem.tree
  | .cons _ t rest, (v : t.Val × rest.Val) => t.tree v.1 :: rest.trees v.2
  | .opt _ elem rest, (v : Option elem.Val × rest.Val) =>
    (match v.1 with | none => elem.nilTree | some a => elem.tree a) :: rest.trees v.2
end

mutual
/-- No integer in a value is negative. -/
def Ty.Encodable : (t : Ty) → t.Val → Prop
  | .bigInt, (i : Int) => 0 ≤ i
  | .slice elem, (vs : List elem.Val) => ∀ v ∈ vs, elem.Encodable v
  | .array _ elem, (vs : { vs : List elem.Val // _ }) => ∀ v ∈ vs.val, elem.Encodable v
  | .ptr elem, (v : Option elem.Val) => ∀ a, v = some a → elem.Encodable a
  | .struct fields, v => fields.Encodable v
  | .uint _, _ => True
  | .bool, _ => True
  | .string, _ => True
  | .bytes, _ => True
  | .byteArray _, _ => True

def Fields.Encodable : (fs : Fields) → fs.Val → Prop
  | .nil, _ => True
  | .tail _ elem, (vs : List elem.Val) => ∀ v ∈ vs, elem.Encodable v
  | .cons _ t rest, (v : t.Val × rest.Val) => t.Encodable v.1 ∧ rest.Encodable v.2
  | .opt _ elem rest, (v : Option elem.Val × rest.Val) => (∀ a, v.1 = some a → elem.Encodable a) ∧ rest.Encodable v.2
end

/-! ## What is the same up to nil and empty -/

def Tree.Empty : Tree → Prop
  | .string b => b = []
  | .list ts => ts = []

/-- Pointers, where nil and a pointer to an empty value are the same. -/
def SamePtr {α : Type} (empty : α → Prop) (same : α → α → Prop) : Option α → Option α → Prop
  | none, none => True
  | none, some b => empty b
  | some a, none => empty a
  | some a, some b => same a b

mutual
/-- Two values are equal, up to nil and empty. -/
def Ty.Same : (t : Ty) → t.Val → t.Val → Prop
  | .slice elem, (vs : List elem.Val), (ws : List elem.Val) => List.Forall₂ elem.Same vs ws
  | .array _ elem, (vs : { vs : List elem.Val // _ }), (ws : { vs : List elem.Val // _ }) => List.Forall₂ elem.Same vs.val ws.val
  | .ptr elem, (v : Option elem.Val), (w : Option elem.Val) => SamePtr (fun a => (elem.tree a).Empty) elem.Same v w
  | .struct fields, v, w => fields.Same v w
  | .uint _, (v : Uint _), (w : Uint _) => v.val = w.val
  | .bool, (v : Bool), (w : Bool) => v = w
  | .string, (v : Bytes), (w : Bytes) => v = w
  | .bigInt, (v : Int), (w : Int) => v = w
  | .bytes, (v : Bytes), (w : Bytes) => v = w
  | .byteArray _, (v : { b : Bytes // _ }), (w : { b : Bytes // _ }) => v = w

def Fields.Same : (fs : Fields) → fs.Val → fs.Val → Prop
  | .nil, _, _ => True
  | .tail _ elem, (vs : List elem.Val), (ws : List elem.Val) => List.Forall₂ elem.Same vs ws
  | .cons _ t rest, (v : t.Val × rest.Val), (w : t.Val × rest.Val) => t.Same v.1 w.1 ∧ rest.Same v.2 w.2
  | .opt _ elem rest, (v : Option elem.Val × rest.Val), (w : Option elem.Val × rest.Val) =>
    SamePtr (fun a => (elem.tree a).Empty) elem.Same v.1 w.1 ∧ rest.Same v.2 w.2
end

/-! ## Values that are left unread -/

/-- The value is written as the byte `0x00` and read as a `[1]byte`. -/
def Ty.Sticky : (t : Ty) → t.Val → Prop
  | .byteArray n, (b : { b : Bytes // _ }) => n = 1 ∧ b.val = [0]
  | .ptr elem, (v : Option elem.Val) => ∃ a, v = some a ∧ elem.Sticky a
  | _, _ => False

/-- Some value of the type is left unread. -/
def Ty.HasSticky : Ty → Prop
  | .byteArray n => n = 1
  | .ptr elem => elem.HasSticky
  | _ => False

/-- An empty string or list is a value of the type. -/
def Ty.NilOk : Ty → Prop
  | .byteArray n => n = 0
  | .array n _ => n = 0
  | .struct .nil => True
  | .struct (.tail _ _) => True
  | .struct _ => False
  | .ptr elem => elem.NilOk
  | _ => True

mutual
/-- The value comes back. Only the last element of an array or struct may be left unread, and
no element of a slice. -/
def Ty.Good : (t : Ty) → t.Val → Prop
  | .slice elem, (vs : List elem.Val) => ∀ v ∈ vs, elem.Good v ∧ ¬ elem.Sticky v
  | .array _ elem, (vs : { vs : List elem.Val // _ }) =>
    (∀ v ∈ vs.val, elem.Good v) ∧ ∀ v ∈ vs.val.dropLast, ¬ elem.Sticky v
  | .ptr elem, (v : Option elem.Val) =>
    match v with
    | none => elem.NilOk
    | some a => elem.Good a
  | .struct fields, v => fields.Good v
  | .uint _, _ => True
  | .bool, _ => True
  | .string, _ => True
  | .bigInt, _ => True
  | .bytes, _ => True
  | .byteArray _, _ => True

def Fields.Good : (fs : Fields) → fs.Val → Prop
  | .nil, _ => True
  | .tail _ elem, (vs : List elem.Val) => ∀ v ∈ vs, elem.Good v ∧ ¬ elem.Sticky v
  | .cons _ t rest, (v : t.Val × rest.Val) => t.Good v.1 ∧ (rest ≠ .nil → ¬ t.Sticky v.1) ∧ rest.Good v.2
  | .opt _ elem rest, (v : Option elem.Val × rest.Val) =>
    (∀ a, v.1 = some a → ((elem.tree a).Empty ∨ elem.Good a) ∧ (rest ≠ .nil → ¬ elem.Sticky a)) ∧ rest.Good v.2
end

mutual
/-- The decoder of the type ends on every input: no slice has elements that are left unread. -/
def Ty.Ends : Ty → Prop
  | .slice elem => ¬ elem.HasSticky ∧ elem.Ends
  | .array n elem => n = 0 ∨ elem.Ends
  | .ptr elem => elem.Ends
  | .struct fields => fields.Ends
  | .uint _ => True
  | .bool => True
  | .string => True
  | .bigInt => True
  | .bytes => True
  | .byteArray _ => True

def Fields.Ends : Fields → Prop
  | .nil => True
  | .tail _ elem => ¬ elem.HasSticky ∧ elem.Ends
  | .cons _ t rest => t.Ends ∧ rest.Ends
  | .opt _ elem rest => elem.Ends ∧ rest.Ends
end

theorem Ty.Sticky.hasSticky : ∀ {t : Ty} {v : t.Val}, t.Sticky v → t.HasSticky
  | .byteArray _, _, h => h.1
  | .ptr _, _, ⟨_, _, h⟩ => h.hasSticky

/-! ## Writing -/

theorem writeUint_eq {i : Nat} (hi : i < 2 ^ 64) (w : Encbuf) : writeUint i w = w.encodeString (minimal i) := by
  have hlen : (minimal i).length ≤ 8 := length_minimal_le (by omega)
  rw [Encbuf.encodeString_eq (by omega)]
  unfold writeUint
  split
  next h0 =>
    subst h0
    rfl
  rename_i h0
  split
  next hsmall =>
    have hdigits : Nat.digits 256 i = [i] := Nat.digits_of_lt 256 i h0 (by omega)
    have hmin : minimal i = [UInt8.ofNat i] := by simp [minimal, hdigits]
    have hb : (UInt8.ofNat i).toNat < 0x80 := by rw [UInt8.toNat_ofNat']; omega
    rw [hmin, encodeString, if_pos hb]
  next hbig =>
    have hdec := decode_minimal i
    rw [putint_eq h0 hi, Stream.encodeString_of_big (.inl (by omega)), Head.bytes, sizeHeader_small (by omega)]
    rfl

theorem writeBool_eq (b : Bool) (w : Encbuf) : writeBool b w = w.encodeString (if b then [1] else []) := by
  rw [Encbuf.encodeString_eq (by cases b <;> simp)]
  cases b <;> rfl

theorem append_empty (w : Encbuf) : w.append [0x80] = w.encodeString [] := by
  rw [Encbuf.encodeString_eq (show List.length _ < _ by simp)]
  rfl

theorem writeBigInt_ok {i : Int} {w w' : Encbuf} (h : writeBigInt i w = .ok w') :
    0 ≤ i ∧ w' = w.encodeString (minimal i.natAbs) := by
  unfold writeBigInt at h
  split at h
  · cases h
  rename_i hneg
  split at h
  next h0 =>
    cases h
    subst h0
    exact ⟨Int.le_refl _, append_empty w⟩
  · cases h
    rw [show i.toNat = i.natAbs by omega]
    exact ⟨by omega, rfl⟩

theorem writeNil_eq : ∀ (t : Ty) (w : Encbuf), t.writeNil w = .ok (t.nilTree.write w)
  | .uint _, w | .bool, w | .bigInt, w | .byteArray _, w => congrArg Except.ok (append_empty w)
  | .string, _ | .bytes, _ | .slice _, _ | .array _ _, _ | .struct _, _ => rfl
  | .ptr elem, w => writeNil_eq elem w

/-- The elements of a slice, array or tail. -/
theorem writeElems_ok {α : Type} {write : α → Encbuf → Except EncErr Encbuf} {enc : α → Prop} {tree : α → Tree}
    (hwrite : ∀ v w w', write v w = .ok w' → enc v ∧ w' = (tree v).write w) :
    ∀ {vs : List α} {w w' : Encbuf}, writeElems write vs w = .ok w' →
      (∀ v ∈ vs, enc v) ∧ w' = Tree.writeAll (vs.map tree) w := by
  intro vs
  induction vs with
  | nil =>
    intro w w' h
    cases h
    exact ⟨nofun, rfl⟩
  | cons v vs ih =>
    intro w w' h
    rw [writeElems] at h
    split at h
    · cases h
    next w1 hv =>
      obtain ⟨henc, rfl⟩ := hwrite v w w1 hv
      obtain ⟨hvs, rfl⟩ := ih h
      exact ⟨List.forall_mem_cons.mpr ⟨henc, hvs⟩, rfl⟩

theorem writeList_ok {inside : Encbuf → Except EncErr Encbuf} {w w' : Encbuf} (h : writeList inside w = .ok w') :
    ∃ w1, inside w.list = .ok w1 ∧ w' = w1.listEnd w.lheads.length := by
  unfold writeList at h
  split at h
  · cases h
  next w1 hin =>
    cases h
    exact ⟨w1, hin, rfl⟩

mutual
/-- **What is written is the tree of the value.** -/
theorem Ty.write_ok : ∀ (t : Ty) (v : t.Val) (w w' : Encbuf), t.write v w = .ok w' →
    t.Encodable v ∧ w' = (t.tree v).write w
  | .uint wd, v, w, w', h => by
    have hv : v.val < 2 ^ 64 := v.lt.trans_le (by cases wd <;> simp [Width.size])
    cases h
    exact ⟨trivial, writeUint_eq hv w⟩
  | .bool, b, w, w', h => by
    cases h
    exact ⟨trivial, writeBool_eq b w⟩
  | .string, _, _, _, h | .bytes, _, _, _, h | .byteArray _, _, _, _, h => by
    cases h
    exact ⟨trivial, rfl⟩
  | .bigInt, _, _, _, h => writeBigInt_ok h
  | .slice elem, vs, w, w', h | .array _ elem, vs, w, w', h => by
    obtain ⟨w1, hin, rfl⟩ := writeList_ok h
    obtain ⟨henc, rfl⟩ := writeElems_ok (Ty.write_ok elem) hin
    exact ⟨henc, rfl⟩
  | .ptr elem, none, w, w', h => by
    have heq : elem.writeNil w = .ok w' := h
    rw [writeNil_eq] at heq
    cases heq
    exact ⟨nofun, rfl⟩
  | .ptr elem, some a, w, w', h => by
    obtain ⟨henc, hw⟩ := Ty.write_ok elem a w w' h
    exact ⟨fun _ ha => by cases ha; exact henc, hw⟩
  | .struct fields, v, w, w', h => by
    obtain ⟨w1, hin, rfl⟩ := writeList_ok h
    obtain ⟨henc, rfl⟩ := Fields.write_ok fields v _ _ hin
    exact ⟨henc, rfl⟩

theorem Fields.write_ok : ∀ (fs : Fields) (v : fs.Val) (w w' : Encbuf), fs.write v w = .ok w' →
    fs.Encodable v ∧ w' = Tree.writeAll (fs.trees v) w
  | .nil, _, _, _, h => by
    cases h
    exact ⟨trivial, rfl⟩
  | .tail _ elem, vs, w, w', h => writeElems_ok (Ty.write_ok elem) h
  | .cons _ t rest, (v, vs), w, w', h => by
    rw [Fields.write] at h
    split at h
    · cases h
    next w1 hv =>
      obtain ⟨henc, rfl⟩ := Ty.write_ok t v _ _ hv
      obtain ⟨hrest, rfl⟩ := Fields.write_ok rest vs _ _ h
      exact ⟨⟨henc, hrest⟩, rfl⟩
  | .opt _ elem rest, (none, vs), w, w', h => by
    rw [Fields.write] at h
    rw [writeNil_eq] at h
    obtain ⟨hrest, rfl⟩ := Fields.write_ok rest vs _ _ h
    exact ⟨⟨nofun, hrest⟩, rfl⟩
  | .opt _ elem rest, (some a, vs), w, w', h => by
    rw [Fields.write] at h
    split at h
    · cases h
    next w1 hv =>
      obtain ⟨henc, rfl⟩ := Ty.write_ok elem a _ _ hv
      obtain ⟨hrest, rfl⟩ := Fields.write_ok rest vs _ _ h
      exact ⟨⟨fun _ ha => by cases ha; exact henc, hrest⟩, rfl⟩
end

theorem Ty.encodeToBytes_ok {t : Ty} {v : t.Val} {b : Bytes} (h : t.encodeToBytes v = .ok b)
    (hlen : (t.tree v).encode.length < 2 ^ 64) : t.Encodable v ∧ b = (t.tree v).encode := by
  unfold Ty.encodeToBytes at h
  split at h
  · cases h
  next w hw =>
    cases h
    obtain ⟨henc, rfl⟩ := t.write_ok v _ _ hw
    exact ⟨henc, encodeToBytes_eq hlen⟩

end Bgmchain.RLP
