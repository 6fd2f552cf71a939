import LinkedPath.Proofs.Json.Places

/-!
# Replacing a part of a value

`replaceAt` puts another value in a place of a value and leaves everything else
as it is.  What is found at the place afterwards is the new value
(`at?_replaceAt`), and one step of a replacement changes one child of an object
or an array (`setChild`).
-/

namespace LinkedPath

theorem exists_mem_set_iff {α : Type} {items : List α} {position : Nat} {old new : α}
    {property : α → Prop} (hold : items[position]? = some old) (h : property new ↔ property old) :
    (∃ item ∈ items.set position new, property item) ↔ ∃ item ∈ items, property item := by
  induction items generalizing position with
  | nil => contradiction
  | cons item rest ih =>
      cases position with
      | zero =>
          obtain rfl : item = old := Option.some.inj hold
          simp only [List.set_cons_zero, List.exists_mem_cons_iff, h]
      | succ position =>
          rw [List.getElem?_cons_succ] at hold
          simp only [List.set_cons_succ, List.exists_mem_cons_iff, ih hold]

namespace Json

/-- The value with another child under a token. -/
def setChild (value : Json) (token : String) (child : Json) : Json :=
  match value with
  | object members => object (Keyed.put token child members)
  | array items =>
      match Pointer.index? token with
      | some position => array (items.set position child)
      | none => array items
  | scalar => scalar

/-- The value with another value in a place; where nothing is, nothing
changes. -/
def replaceAt (value : Json) (pointer : Pointer) (new : Json) : Json :=
  match pointer with
  | [] => new
  | token :: rest =>
      match value.child? token with
      | some child => value.setChild token (child.replaceAt rest new)
      | none => value

variable {value child new : Json} {token : String}

theorem setChild_item {items : List Json} (position : Nat) (child : Json) :
    (array items).setChild (Pointer.indexToken position) child = array (items.set position child) := by
  simp only [setChild, Pointer.index?_eq_some_iff.mpr rfl]

theorem isObject_setChild (value : Json) (token : String) (child : Json) :
    (value.setChild token child).isObject = value.isObject := by
  cases value with
  | array items =>
      rw [setChild]
      split <;> rfl
  | _ => rfl

theorem child?_setChild (h : value.child? token = some child) (new : Json) :
    (value.setChild token new).child? token = some new := by
  rcases child?_cases h with ⟨members, rfl, _⟩ | ⟨items, position, rfl, rfl, hitem⟩
  · rw [setChild, child?, Keyed.lookup_put, if_pos rfl]
  · rw [setChild_item]
    apply child?_of_item
    rw [List.getElem?_set_self (List.getElem?_eq_some_iff.mp hitem).1]

theorem replaceAt_cons (h : value.child? token = some child) (rest : Pointer) (new : Json) :
    value.replaceAt (token :: rest) new = value.setChild token (child.replaceAt rest new) := by
  rw [replaceAt, h]

theorem at?_replaceAt {pointer : Pointer} {old : Json} (h : value.at? pointer = some old)
    (new : Json) : (value.replaceAt pointer new).at? pointer = some new := by
  induction pointer generalizing value with
  | nil => rfl
  | cons token rest ih =>
      obtain ⟨child, hchild, hrest⟩ := Option.bind_eq_some_iff.mp h
      rw [replaceAt_cons hchild, at?, child?_setChild hchild]
      exact ih hrest

end Json

end LinkedPath
