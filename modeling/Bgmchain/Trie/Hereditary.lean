import Bgmchain.Lib.Hoare
import Bgmchain.Trie.Refine

/-! # What writing to a trie keeps

A property of nodes that passes to the nodes below, and from them to any new node above,
is kept by `insert` and `delete`: the nodes they make carry new flags, and all others
were there before or have been read from the database. The root may have the property in
a weaker form, since it never comes to lie below another node. -/
namespace Bgmchain
open Common Lib.Patricia Lib.Hoare

/-- A property of the root (`true`) and of the nodes below it (`false`) that can be
checked node by node. -/
structure Hereditary (db : NodeDatabase) (gen : UInt16) (Q : Bool → Node → Prop) : Prop where
  nil : ∀ b, Q b .nil
  short : ∀ b {k val}, Q false val → Q b (.short k val (.new gen))
  val : ∀ {b k val flags}, Q b (.short k val flags) → Q false val
  full : ∀ b {cs}, (∀ i, Q false (cs i)) → Q b (.full cs (.new gen))
  child : ∀ {b cs flags}, Q b (.full cs flags) → ∀ i, Q false (cs i)
  load : ∀ {b h n}, Q b (.hash h) → db.load h gen = some n → Q b n

namespace Hereditary

variable {db : NodeDatabase} {gen : UInt16} {Q : Bool → Node → Prop} (H : Hereditary db gen Q)
include H

variable {n : Node}

theorem insertNil (h : Q false n) (key : List Nibble) : Q false (Node.insertNil gen key n) := by
  unfold Node.insertNil
  split
  · exact h
  · exact H.short false h

omit H in
theorem update {cs : Nibble → Node} (h : ∀ i, Q false (cs i)) (hn : Q false n) (i j : Nibble) :
    Q false (Function.update cs i n j) := by
  by_cases hj : j = i
  · rw [hj, Function.update_self]
    exact hn
  · rw [Function.update_of_ne hj]
    exact h j

variable {b : Bool} {path : List Nibble}

theorem resolveHash {h : Hash} (hq : Q b (.hash h)) (hn : resolveHash db gen h path = .ok n) : Q b n :=
  H.load hq (resolveHash_ok_iff.mp hn)

omit H in
/-- The node to put in place is the new one only if it has changed. -/
theorem ofDirty {dirty d : Bool} {nn n' : Node}
    (h : (if dirty then .ok (true, nn) else .ok (false, n)) = (.ok (d, n') : Except TrieError (Bool × Node)))
    (hn : Q b nn) (hq : Q b n) : Q b n' := by
  cases dirty with
  | true =>
    cases h
    exact hn
  | false =>
    cases h
    exact hq

/-- **`insert` keeps the property.** -/
theorem insert {f : Nat} {d : Bool} {n' : Node} {key : List Nibble} {v : Bytes} (hv : ∀ b, Q b (.value v))
    (h : Node.insert db gen f n path key v = .ok (d, n')) (hq : Q b n) : Q b n' := by
  induction f generalizing b n n' path key d with
  | zero => cases h
  | succ f ih =>
    cases key with
    | nil => cases n <;> cases h <;> exact hv b
    | cons i key =>
      cases n with
      | nil =>
        cases h
        exact H.short b (hv false)
      | value old => cases h
      | hash hash =>
        obtain ⟨rn, hrn, h⟩ := except_bind_ok_iff.mp h
        obtain ⟨⟨dirty, nn⟩, hinsert, h⟩ := except_bind_ok_iff.mp h
        have hrn' := H.resolveHash hq hrn
        exact ofDirty h (ih hinsert hrn') hrn'
      | full cs flags =>
        obtain ⟨⟨dirty, nn⟩, hinsert, h⟩ := except_bind_ok_iff.mp h
        exact ofDirty h (H.full b (update (H.child hq) (ih hinsert (H.child hq i)) i)) hq
      | short k val flags =>
        obtain ⟨p, x, y, hx, rfl, hm, hd⟩ := prefixLen_split (i :: key) k
        cases y with
        | nil =>
          rw [List.append_nil] at h hm hq
          rw [hx, Node.insert_short_along gen f p x path val flags v (by rw [← hx]; simp)] at h
          obtain ⟨⟨dirty, nn⟩, hinsert, h⟩ := except_bind_ok_iff.mp h
          exact ofDirty h (H.short b (ih hinsert (H.val hq))) hq
        | cons c kb =>
          cases x with
          | nil =>
            -- the key ends inside the edge
            rw [List.append_nil] at hx
            have hne : prefixLen (i :: key) (p ++ c :: kb) ≠ (p ++ c :: kb).length := by
              rw [hm]
              simp
            simp only [Node.insert, if_neg hne] at h
            rw [hm, hx, List.drop_length] at h
            split at h
            next hnil =>
              cases hnil
            · cases h
          | cons a ka =>
            rw [hx, Node.insert_short_fork gen f (hd a ka c kb rfl rfl)] at h
            cases h
            have hchildren := update (update (fun _ => H.nil false) (H.insertNil (H.val hq) kb) c)
              (H.insertNil (hv false) ka) a
            unfold Node.insertNil
            split
            · exact H.full b hchildren
            · exact H.short b (H.full false hchildren)

theorem collapse {d : Bool} {cs : Nibble → Node}
    (h : Node.collapse db gen cs path = .ok (d, n)) (hq : ∀ i, Q false (cs i)) : Q b n := by
  unfold Node.collapse at h
  split at h
  next pos _ =>
    split at h
    · obtain ⟨cnode, hcnode, h⟩ := except_bind_ok_iff.mp h
      have hres : Q false cnode := by
        have hpos := hq pos
        unfold Node.resolve at hcnode
        split at hcnode
        next hash heq =>
          rw [heq] at hpos
          exact H.resolveHash hpos hcnode
        · cases hcnode
          exact hpos
      split at h
      · cases h
        exact H.short b (H.val hres)
      · cases h
        exact H.short b (hq pos)
    · cases h
      exact H.short b (hq pos)
  · cases h
    exact H.full b hq

/-- **`delete` keeps the property.** -/
theorem delete {f : Nat} {d : Bool} {n' : Node} {key : List Nibble}
    (h : Node.delete db gen f n path key = .ok (d, n')) (hq : Q b n) : Q b n' := by
  induction f generalizing b n n' path key d with
  | zero => cases h
  | succ f ih =>
    cases n with
    | nil | value v =>
      cases h
      exact H.nil b
    | hash hash =>
      obtain ⟨rn, hrn, h⟩ := except_bind_ok_iff.mp h
      obtain ⟨⟨dirty, nn⟩, hdelete, h⟩ := except_bind_ok_iff.mp h
      have hrn' := H.resolveHash hq hrn
      exact ofDirty h (ih hdelete hrn') hrn'
    | full cs flags =>
      cases key with
      | nil => cases h
      | cons i key =>
        obtain ⟨⟨dirty, nn⟩, hdelete, h⟩ := except_bind_ok_iff.mp h
        cases dirty with
        | true => exact H.collapse h (update (H.child hq) (ih hdelete (H.child hq i)) i)
        | false =>
          cases h
          exact hq
    | short k val flags =>
      simp only [Node.delete] at h
      split at h
      · cases h
        exact hq
      · split at h
        · cases h
          exact H.nil b
        · obtain ⟨⟨dirty, child⟩, hdelete, h⟩ := except_bind_ok_iff.mp h
          have hchild := ih hdelete (H.val hq)
          cases dirty with
          | true =>
            cases child with
            | short ck cval flags' =>
              cases h
              exact H.short b (H.val hchild)
            | _ =>
              cases h
              exact H.short b hchild
          | false =>
            cases h
            exact hq

end Hereditary

/-! ## A larger database -/

section
variable {db db' : NodeDatabase} {gen : UInt16} (hle : ∀ h n, db.load h gen = some n → db'.load h gen = some n)
include hle

theorem resolveHash_mono (h : Hash) (path : List Nibble) :
    Extends (resolveHash db gen h path) (resolveHash db' gen h path) := by
  intro n hn
  exact resolveHash_ok_iff.mpr (hle h n (resolveHash_ok_iff.mp hn))

/-- **A walk that comes to its end does so with more nodes and more steps**, too. -/
theorem Node.tryGet_mono {f f' : Nat} (hf : f ≤ f') {n : Node} {path key : List Nibble} :
    Extends (Node.tryGet db gen f n path key) (Node.tryGet db' gen f' n path key) := by
  induction f generalizing f' n path key with
  | zero => exact nofun
  | succ f ih =>
    obtain _ | f' := f'
    · omega
    have hf : f ≤ f' := by omega
    cases n with
    | nil | value v => exact .refl _
    | hash ref => exact (resolveHash_mono hle ref path).bind fun _ => (ih hf).bind fun _ => .refl _
    | short k val flags =>
      exact .ite ((ih hf).bind fun _ => .refl _) (.refl _)
    | full cs flags =>
      cases key with
      | nil => exact .refl _
      | cons i key => exact (ih hf).bind fun _ => .refl _

theorem Node.insert_mono {f f' : Nat} (hf : f ≤ f') {n : Node} {path key : List Nibble} {v : Bytes} :
    Extends (Node.insert db gen f n path key v) (Node.insert db' gen f' n path key v) := by
  induction f generalizing f' n path key with
  | zero => exact nofun
  | succ f ih =>
    obtain _ | f' := f'
    · omega
    have hf : f ≤ f' := by omega
    cases key with
    | nil => cases n <;> exact .refl _
    | cons i key =>
      cases n with
      | nil | value old => exact .refl _
      | hash ref => exact (resolveHash_mono hle ref path).bind fun _ => (ih hf).bind fun _ => .refl _
      | full cs flags => exact (ih hf).bind fun _ => .refl _
      | short k val flags =>
        exact .ite ((ih hf).bind fun _ => .refl _) (.refl _)

theorem Node.collapse_mono (cs : Nibble → Node) (path : List Nibble) :
    Extends (Node.collapse db gen cs path) (Node.collapse db' gen cs path) := by
  unfold Node.collapse
  split
  next pos _ =>
    refine .ite (.bind ?_ fun _ => .refl _) (.refl _)
    cases cs pos with
    | hash ref => exact resolveHash_mono hle ref _
    | _ => exact .refl _
  · exact .refl _

theorem Node.delete_mono {f f' : Nat} (hf : f ≤ f') {n : Node} {path key : List Nibble} :
    Extends (Node.delete db gen f n path key) (Node.delete db' gen f' n path key) := by
  induction f generalizing f' n path key with
  | zero => exact nofun
  | succ f ih =>
    obtain _ | f' := f'
    · omega
    have hf : f ≤ f' := by omega
    cases n with
    | nil | value v => exact .refl _
    | hash ref => exact (resolveHash_mono hle ref path).bind fun _ => (ih hf).bind fun _ => .refl _
    | full cs flags =>
      cases key with
      | nil => exact .refl _
      | cons i key => exact (ih hf).bind fun _ => .ite (Node.collapse_mono hle _ _) (.refl _)
    | short k val flags =>
      exact .ite (.refl _) (.ite (.refl _) ((ih hf).bind fun _ => .refl _))

omit hle in
/-- What `TryUpdate` and `TryDelete` do to the root: an entry is put under the key, or none. -/
def Node.put (db : NodeDatabase) (gen : UInt16) (f : Nat) (n : Node) (key : List Nibble) :
    Option Bytes → Except TrieError (Bool × Node)
  | some v => Node.insert db gen f n [] key v
  | none => Node.delete db gen f n [] key

theorem Node.put_mono {f f' : Nat} (hf : f ≤ f') {n : Node} {key : List Nibble} (o : Option Bytes) :
    Extends (Node.put db gen f n key o) (Node.put db' gen f' n key o) := by
  cases o with
  | some v => exact Node.insert_mono hle hf
  | none => exact Node.delete_mono hle hf

end

end Bgmchain
