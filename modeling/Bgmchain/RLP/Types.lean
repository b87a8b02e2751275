import Bgmchain.RLP.Interface

/-! # Decoding into Go types

The encoders and decoders that `makeWriter` and `makeDecoder` of the package `rlp` put
together for a type. A value is decoded into a new variable. A slice of `uint8` is `bytes`
and an array of it a `byteArray`; `*big.Int` is `ptr bigInt`. Types that implement `Encoder`
or `Decoder`, `RawValue` and interfaces are left out, as are fields that the encoding
ignores. -/
namespace Bgmchain.RLP
open Common Lib

/-- The kinds `uint8` to `uint64`. -/
inductive Width where
  | w8
  | w16
  | w32
  | w64

/-- The size in bytes. -/
def Width.size : Width → Nat
  | .w8 => 1
  | .w16 => 2
  | .w32 => 4
  | .w64 => 8

/-- An integer of a size. -/
structure Uint (w : Width) where
  val : Nat
  lt : val < 256 ^ w.size

theorem Width.pow_pos (w : Width) : 0 < 256 ^ w.size := Nat.pow_pos (by omega)

mutual
inductive Ty where
  | uint (w : Width)
  | bool
  | string
  | bigInt
  | bytes
  | byteArray (n : Nat)
  | slice (elem : Ty)
  | array (n : Nat) (elem : Ty)
  | ptr (elem : Ty)
  | struct (fields : Fields)

/-- The fields of a struct: `opt` is a pointer with the tag `nil`; the last field may be a
slice with the tag `tail`. -/
inductive Fields where
  | nil
  | tail (name : String) (elem : Ty)
  | cons (name : String) (t : Ty) (rest : Fields)
  | opt (name : String) (elem : Ty) (rest : Fields)
end

mutual
/-- The values of a type. No difference is made between a slice that is nil and one that is
empty. -/
def Ty.Val : Ty → Type
  | .uint w => Uint w
  | .bool => Bool
  | .string => Bytes
  | .bigInt => Int
  | .bytes => Bytes
  | .byteArray n => { b : Bytes // b.length = n }
  | .slice elem => List elem.Val
  | .array n elem => { vs : List elem.Val // vs.length = n }
  | .ptr elem => Option elem.Val
  | .struct fields => fields.Val

def Fields.Val : Fields → Type
  | .nil => Unit
  | .tail _ elem => List elem.Val
  | .cons _ t rest => t.Val × rest.Val
  | .opt _ elem rest => Option elem.Val × rest.Val
end

mutual
/-- `reflect.Zero` -/
def Ty.zero : (t : Ty) → t.Val
  | .uint w => (⟨0, w.pow_pos⟩ : Uint w)
  | .bool => false
  | .string => ([] : Bytes)
  | .bigInt => (0 : Int)
  | .bytes => ([] : Bytes)
  | .byteArray n => (⟨List.replicate n 0, List.length_replicate⟩ : { b : Bytes // b.length = n })
  | .slice elem => ([] : List elem.Val)
  | .array n elem => (⟨List.replicate n elem.zero, List.length_replicate⟩ : { vs : List elem.Val // vs.length = n })
  | .ptr elem => (none : Option elem.Val)
  | .struct fields => fields.zero

def Fields.zero : (fs : Fields) → fs.Val
  | .nil => ()
  | .tail _ elem => ([] : List elem.Val)
  | .cons _ t rest => (t.zero, rest.zero)
  | .opt _ elem rest => ((none : Option elem.Val), rest.zero)
end

/-! ## Writers -/

inductive EncErr where
  | negativeBigInt
deriving DecidableEq

/-- `writeUint` -/
def writeUint (i : Nat) (w : Encbuf) : Encbuf :=
  if i = 0 then w.append [0x80]
  else if i < 128 then w.append [UInt8.ofNat i]
  else w.append (UInt8.ofNat (0x80 + (putint i).length) :: putint i)

/-- `writeBool` -/
def writeBool (b : Bool) (w : Encbuf) : Encbuf := if b then w.append [0x01] else w.append [0x80]

/-- `writeBigInt` -/
def writeBigInt (i : Int) (w : Encbuf) : Except EncErr Encbuf :=
  if i < 0 then .error .negativeBigInt
  else if i = 0 then .ok (w.append [0x80])
  else .ok (w.encodeString (Rlp.minimal i.toNat))

/-- The elements of a slice or array. -/
def writeElems {α : Type} (write : α → Encbuf → Except EncErr Encbuf) : List α → Encbuf → Except EncErr Encbuf
  | [], w => .ok w
  | v :: vs, w =>
    match write v w with
    | .error e => .error e
    | .ok w => writeElems write vs w

/-- What stands between `list` and `listEnd`. -/
def writeList (inside : Encbuf → Except EncErr Encbuf) (w : Encbuf) : Except EncErr Encbuf :=
  match inside w.list with
  | .error e => .error e
  | .ok w' => .ok (w'.listEnd w.lheads.length)

mutual
/-- `makeWriter` -/
def Ty.write : (t : Ty) → t.Val → Encbuf → Except EncErr Encbuf
  | .uint _, (v : Uint _), w => .ok (writeUint v.val w)
  | .bool, (b : Bool), w => .ok (writeBool b w)
  | .string, (b : Bytes), w => .ok (w.encodeString b)
  | .bigInt, (i : Int), w => writeBigInt i w
  | .bytes, (b : Bytes), w => .ok (w.encodeString b)
  | .byteArray _, (b : { b : Bytes // _ }), w => .ok (w.encodeString b.val)
  | .slice elem, (vs : List elem.Val), w => writeList (writeElems elem.write vs) w
  | .array _ elem, (vs : { vs : List elem.Val // _ }), w => writeList (writeElems elem.write vs.val) w
  | .ptr elem, (v : Option elem.Val), w =>
    match v with
    | none => elem.writeNil w
    | some v => elem.write v w
  | .struct fields, v, w => writeList (fields.write v) w

/-- `nilfunc` of `makePtrWriter`, and `writeBigIntPtr` with a nil pointer. -/
def Ty.writeNil : Ty → Encbuf → Except EncErr Encbuf
  | .bigInt, w => .ok (w.append [0x80])
  | .byteArray _, w => .ok (w.append [0x80])
  | .struct _, w => .ok (w.list.listEnd w.lheads.length)
  | .array _ _, w => .ok (w.list.listEnd w.lheads.length)
  -- the zero values of the other types
  | .uint _, w => .ok (writeUint 0 w)
  | .bool, w => .ok (writeBool false w)
  | .string, w => .ok (w.encodeString [])
  | .bytes, w => .ok (w.encodeString [])
  | .slice _, w => .ok (w.list.listEnd w.lheads.length)
  | .ptr elem, w => elem.writeNil w

def Fields.write : (fs : Fields) → fs.Val → Encbuf → Except EncErr Encbuf
  | .nil, _, w => .ok w
  | .tail _ elem, (vs : List elem.Val), w => writeElems elem.write vs w
  | .cons _ t rest, (v : t.Val × rest.Val), w =>
    match t.write v.1 w with
    | .error e => .error e
    | .ok w => rest.write v.2 w
  | .opt _ elem rest, (v : Option elem.Val × rest.Val), w =>
    match (match v.1 with | none => elem.writeNil w | some a => elem.write a w) with
    | .error e => .error e
    | .ok w => rest.write v.2 w
end

/-- `EncodeToBytes` -/
def Ty.encodeToBytes (t : Ty) (v : t.Val) : Except EncErr Bytes :=
  match t.write v .empty with
  | .error e => .error e
  | .ok w => .ok w.toBytes

/-! ## Decoders -/

def mapOk {α β : Type} (f : α → β) : Res α → Res β
  | .ok v s => .ok (f v) s
  | .error e s => .error e s

def mapError {α : Type} (f : Err → Err) : Res α → Res α
  | .ok v s => .ok v s
  | .error e s => .error (f e) s

/-- `decodeUint`, which keeps what fits of the number. -/
def decodeUint (w : Width) (s : Stream) : Res (Uint w) :=
  mapOk (fun n => ⟨n % 256 ^ w.size, Nat.mod_lt _ w.pow_pos⟩) (mapError wrapStreamError (s.uint (8 * w.size)))

/-- `decodeBool` -/
def decodeBool (s : Stream) : Res Bool := mapError wrapStreamError s.bool

/-- `decodeString` and `decodeByteSlice`. -/
def decodeByteSlice (s : Stream) : Res Bytes := mapError wrapStreamError s.bytes

/-- `decodeBigInt` -/
def decodeBigInt (s : Stream) : Res Int :=
  match s.bytes with
  | .error e s => .error (wrapStreamError e) s
  | .ok b s => if b.head? = some 0 then .error (wrapStreamError .canonInt) s else .ok (BigEndian.decode b : Int) s

/-- `decodeByteArray`. The error of `Uint` on a single byte is dropped. -/
def decodeByteArray (n : Nat) (s : Stream) : Res { b : Bytes // b.length = n } :=
  match s.nextKind with
  | .error e s => .error e s
  | .ok (.byte, _) s =>
    if n = 0 then .error (.decode "input string too long" []) s
    else if hn : n = 1 then
      match s.uint 64 with
      | .ok bv s => .ok ⟨[UInt8.ofNat bv], by simp [hn]⟩ s
      | .error _ s => .ok ⟨[0], by simp [hn]⟩ s
    else .error (.decode "input string too short" []) s
  | .ok (.string, size) s =>
    if n < size then .error (.decode "input string too long" []) s
    else if size < n then .error (.decode "input string too short" []) s
    else
      match s.readFull n with
      | .error e s => .error e s
      | .ok b s =>
        if size = 1 && b.head?.any (·.toNat < 128) then .error (wrapStreamError .canonSize) s
        else if hb : b.length = n then .ok ⟨b, hb⟩ s
        else .error .unexpectedEOF s
  | .ok (.list, _) s => .error (wrapStreamError .expectedString) s

/-- The loop of `decodeListArray`. -/
def decodeArrayElems {α : Type} (elemdec : Stream → Res α) : (n i : Nat) → Stream → Res { vs : List α // vs.length = n }
  | 0, _, s => .ok ⟨[], rfl⟩ s
  | n + 1, i, s =>
    match elemdec s with
    | .error .eol s => .error (.decode "input list has too few elements" []) s
    | .error e s => .error (addErrorContext e s!"[{i}]") s
    | .ok v s =>
      match decodeArrayElems elemdec n (i + 1) s with
      | .error e s => .error e s
      | .ok vs s => .ok ⟨v :: vs.val, by simp [vs.property]⟩ s

/-- What stands between `List` and `ListEnd` in an array or struct. -/
def decodeInList {α : Type} (inside : Stream → Res α) (s : Stream) : Res α :=
  match s.list with
  | .error e s => .error (wrapStreamError e) s
  | .ok _ s =>
    match inside s with
    | .error e s => .error e s
    | .ok v s =>
      match s.listEnd with
      | .error e s => .error (wrapStreamError e) s
      | .ok _ s => .ok v s

/-- The decoder of `makeOptionalPtrDecoder`. -/
def decodeOptionalPtr {α : Type} (dec : Stream → Res α) (s : Stream) : Res (Option α) :=
  match s.nextKind with
  | .error e s => .error e { s with kind := none }
  | .ok (kind, size) s => if size = 0 && kind ≠ .byte then .ok none { s with kind := none } else mapOk some (dec s)

/-- The error of a field. -/
def fieldError (name : String) : Err → Err
  | .eol => .decode "too few elements" []
  | e => addErrorContext e s!".{name}"

/-- A field and the fields behind it. -/
def decodeField {α β : Type} (name : String) (dec : Stream → Res α) (rest : Stream → Res β) (s : Stream) : Res (α × β) :=
  match dec s with
  | .error e s => .error (fieldError name e) s
  | .ok v s =>
    match rest s with
    | .error e s => .error e s
    | .ok vs s => .ok (v, vs) s

mutual
/-- `makeDecoder`; the loops have a number of turns. -/
def Ty.decode (turns : Nat) : (t : Ty) → Stream → Res t.Val
  | .uint w => decodeUint w
  | .bool => decodeBool
  | .string => decodeByteSlice
  | .bigInt => decodeBigInt
  | .bytes => decodeByteSlice
  | .byteArray n => decodeByteArray n
  | .slice elem => decodeListSlice (elem.decode turns) turns
  | .array n elem => decodeInList (decodeArrayElems (elem.decode turns) n 0)
  | .ptr elem => fun s => mapOk some (elem.decode turns s)
  | .struct fields => decodeInList (fields.decode turns)

def Fields.decode (turns : Nat) : (fs : Fields) → Stream → Res fs.Val
  | .nil => fun s => .ok () s
  | .tail name elem => fun s => mapError (fieldError name) (decodeSliceElems (elem.decode turns) turns 0 s)
  | .cons name t rest => decodeField name (t.decode turns) (rest.decode turns)
  | .opt name elem rest => decodeField name (decodeOptionalPtr (elem.decode turns)) (rest.decode turns)
end

/-- `DecodeBytes` into a variable of a type. -/
def Ty.decodeBytes (turns : Nat) (t : Ty) (b : Bytes) : Except Err t.Val := decodeBytesWith (t.decode turns) b

end Bgmchain.RLP
