import LinkedPath.Proofs.Context.Expansion
import LinkedPath.Proofs.Json.Content
import LinkedPath.Proofs.Json.Members
import LinkedPath.Proofs.Json.Replacement

/-!
# What a value denotes

The texts that a value denotes, as a relation.  An array denotes what its items
denote where it is the value of a member, and nothing where it is itself an item
of an array.  An object denotes what its content denotes
(`denotes_object_iff`).  A predicate holds of an object when some member of the
right name denotes an expected text (`holds_iff`).

Values of one shape that denote the same texts can stand for each other at any
depth (`SameContent`).  So a scalar among the items of an array, or among the
members of the tested node, can be written as an object with this content
(`holds_replaceAt`).
-/

namespace LinkedPath

namespace Json

/-- Where a value stands. -/
inductive Standing
  /-- As the value of a member. -/
  | member
  /-- As the item of an array. -/
  | item

/-- The text of a scalar. -/
def scalarText? : Json → Option String
  | null => some "null"
  | bool flag => some (if flag then "true" else "false")
  | number value => some value.text
  | string text => some text
  | _ => none

/-- A value denotes a text. -/
inductive Denotes : Standing → Json → String → Prop
  | scalar {standing : Standing} {value : Json} {text : String}
      (h : value.scalarText? = some text) : Denotes standing value text
  | array {items : List Json} {item : Json} {text : String} (hitem : item ∈ items)
      (h : Denotes .item item text) : Denotes .member (array items) text
  | list {standing : Standing} {members : List (String × Json)} {items : List Json} {item : Json}
      {text : String} (hlist : members.lookup Keyword.list = some (Json.array items))
      (hitem : item ∈ items) (h : Denotes .item item text) :
      Denotes standing (object members) text
  | literal {standing : Standing} {members : List (String × Json)} {inner : Json} {text : String}
      (hlist : ∀ items, members.lookup Keyword.list ≠ some (Json.array items))
      (hvalue : members.lookup Keyword.value = some inner) (hobject : inner.isObject = false)
      (h : Denotes .member inner text) : Denotes standing (object members) text
  | identity {standing : Standing} {members : List (String × Json)} {inner : Json} {text : String}
      (hlist : ∀ items, members.lookup Keyword.list ≠ some (Json.array items))
      (hvalue : members.lookup Keyword.value = none)
      (hid : members.lookup Keyword.id = some inner) (hobject : inner.isObject = false)
      (h : Denotes .member inner text) : Denotes standing (object members) text

variable {standing : Standing} {value other child : Json} {text token : String}
  {members : List (String × Json)} {items : List Json}

/-! ## One case for each shape -/

theorem denotes_scalar_iff (hobject : value.isObject = false) (harray : value.isArray = false) :
    value.Denotes standing text ↔ value.scalarText? = some text := by
  constructor
  · intro h
    cases h with
    | scalar h => exact h
    | array => contradiction
    | list => contradiction
    | literal => contradiction
    | identity => contradiction
  · exact Denotes.scalar

theorem not_denotes_array_item : ¬ (array items).Denotes .item text := by
  intro h
  cases h with
  | scalar h => contradiction

theorem denotes_array_iff :
    (array items).Denotes .member text ↔ ∃ item ∈ items, item.Denotes .item text := by
  constructor
  · intro h
    cases h with
    | scalar h => contradiction
    | array hitem h => exact ⟨_, hitem, h⟩
  · rintro ⟨item, hitem, h⟩
    exact Denotes.array hitem h

theorem content?_of_core? {inner : Json}
    (hlist : ∀ items, members.lookup Keyword.list ≠ some (array items)) :
    content? members = some inner ↔ core? members = some inner ∧ inner.isObject = false := by
  rw [content?_of_not_list hlist, Option.filter_eq_some_iff, Bool.not_eq_true']

/-- An object denotes what its content denotes. -/
theorem denotes_object_iff : (object members).Denotes standing text ↔
    ∃ inner, content? members = some inner ∧ inner.Denotes .member text := by
  constructor
  · intro h
    cases h with
    | scalar h => contradiction
    | list hlist hitem h => exact ⟨_, content?_of_list hlist, Denotes.array hitem h⟩
    | literal hlist hvalue hobject h =>
        refine ⟨_, (content?_of_core? hlist).mpr ⟨?_, hobject⟩, h⟩
        rw [core?, hvalue, Option.some_or]
    | identity hlist hvalue hid hobject h =>
        refine ⟨_, (content?_of_core? hlist).mpr ⟨?_, hobject⟩, h⟩
        rw [core?, hvalue, Option.none_or, hid]
  · rintro ⟨inner, hcontent, h⟩
    by_cases hlist : ∃ items, members.lookup Keyword.list = some (array items)
    · obtain ⟨items, hlist⟩ := hlist
      rw [content?_of_list hlist, Option.some.injEq] at hcontent
      subst hcontent
      obtain ⟨item, hitem, h⟩ := denotes_array_iff.mp h
      exact Denotes.list hlist hitem h
    · have hlist : ∀ items, members.lookup Keyword.list ≠ some (array items) :=
        fun items heq => hlist ⟨items, heq⟩
      obtain ⟨hcore, hobject⟩ := (content?_of_core? hlist).mp hcontent
      rw [core?, Option.or_eq_some_iff] at hcore
      rcases hcore with hvalue | ⟨hvalue, hid⟩
      · exact Denotes.literal hlist hvalue hobject h
      · exact Denotes.identity hlist hvalue hid hobject h

/-! ## The test of a value -/

theorem exists_scalarText? (hobject : value.isObject = false) (harray : value.isArray = false)
    (accepts : String → Bool) :
    ∃ text, value.scalarText? = some text ∧ value.anyTextOfItem accepts = accepts text := by
  cases value with
  | object members => contradiction
  | array items => contradiction
  | _ => exact ⟨_, rfl, by rw [anyTextOfItem]⟩

/-- Some text that the value denotes is accepted, for both places where it can
stand. -/
theorem anyText_iff (accepts : String → Bool) (value : Json) :
    (value.anyTextOfItem accepts = true ↔
        ∃ text, value.Denotes .item text ∧ accepts text = true) ∧
      (value.anyText accepts = true ↔
        ∃ text, value.Denotes .member text ∧ accepts text = true) := by
  induction value using Json.induction with
  | onArray items ih =>
      refine ⟨?_, ?_⟩
      · rw [anyTextOfItem]
        simp [not_denotes_array_item]
      · rw [anyText_array, List.any_eq_true]
        constructor
        · rintro ⟨item, hitem, h⟩
          obtain ⟨text, htext, haccepts⟩ := (ih item hitem).1.mp h
          exact ⟨text, Denotes.array hitem htext, haccepts⟩
        · rintro ⟨text, htext, haccepts⟩
          obtain ⟨item, hitem, htext⟩ := denotes_array_iff.mp htext
          exact ⟨item, hitem, (ih item hitem).1.mpr ⟨text, htext, haccepts⟩⟩
  | onObject members ih =>
      have hobject : ∀ standing, (object members).anyTextOfItem accepts = true ↔
          ∃ text, (object members).Denotes standing text ∧ accepts text = true := by
        intro standing
        simp only [anyTextOfItem_object_eq, denotes_object_iff]
        cases hcontent : content? members with
        | none => simp
        | some inner =>
            obtain ⟨name, hmem⟩ := exists_mem_of_content? hcontent
            simpa using (ih _ hmem).2
      rw [anyText_of_not_array accepts rfl]
      exact ⟨hobject .item, hobject .member⟩
  | onScalar value hobject harray =>
      obtain ⟨text, htext, hany⟩ := exists_scalarText? hobject harray accepts
      have hscalar : ∀ standing, (∃ text, value.Denotes standing text ∧ accepts text = true) ↔
          accepts text = true := by
        intro standing
        simp [denotes_scalar_iff hobject harray, htext]
      rw [anyText_of_not_array accepts harray, hany, hscalar, hscalar]
      exact ⟨Iff.rfl, Iff.rfl⟩

/-! ## Values with the same content -/

/-- Values of the same shape that denote the same texts. -/
structure SameContent (value other : Json) : Prop where
  isObject : other.isObject = value.isObject
  isArray : other.isArray = value.isArray
  denotes : ∀ standing text, other.Denotes standing text ↔ value.Denotes standing text

theorem SameContent.refl (value : Json) : SameContent value value :=
  ⟨rfl, rfl, fun _ _ => Iff.rfl⟩

theorem sameContent_set {position : Nat} (hchild : items[position]? = some child)
    (h : ∀ text, other.Denotes .item text ↔ child.Denotes .item text) :
    SameContent (array items) (array (items.set position other)) := by
  refine ⟨rfl, rfl, ?_⟩
  intro standing text
  cases standing with
  | item => simp only [not_denotes_array_item]
  | member =>
      rw [denotes_array_iff, denotes_array_iff]
      exact exists_mem_set_iff hchild (h text)

theorem sameContent_put (hchild : members.lookup token = some child) (h : SameContent child other) :
    SameContent (object members) (object (Keyed.put token other members)) := by
  have hlookup : ∀ key, Option.Rel SameContent (members.lookup key)
      ((Keyed.put token other members).lookup key) := by
    intro key
    rw [Keyed.lookup_put]
    by_cases hkey : key = token
    · rw [if_pos hkey, hkey, hchild]
      exact Option.Rel.some h
    · rw [if_neg hkey]
      cases members.lookup key with
      | none => exact Option.Rel.none
      | some value => exact Option.Rel.some (SameContent.refl value)
  refine ⟨rfl, rfl, ?_⟩
  intro standing text
  rw [denotes_object_iff, denotes_object_iff]
  have hcontent := content?_rel (fun _ _ h => h.isObject) (fun _ _ h => h.isArray)
    fun key _ => hlookup key
  generalize content? members = first at hcontent
  generalize content? (Keyed.put token other members) = second at hcontent
  cases hcontent with
  | none => rfl
  | some h => simp only [Option.some.injEq, exists_eq_left', h.denotes]

/-- Replacing a child by one with the same content leaves the content as it
is. -/
theorem sameContent_setChild (hchild : value.child? token = some child)
    (h : SameContent child other) : SameContent value (value.setChild token other) := by
  rcases child?_cases hchild with ⟨members, rfl, hlookup⟩ | ⟨items, position, rfl, rfl, hitem⟩
  · exact sameContent_put hlookup h
  · rw [setChild_item]
    exact sameContent_set hitem fun text => h.denotes .item text

/-- There is an item of an array at a place. -/
def ItemAt (value : Json) (pointer : Pointer) : Prop :=
  ∃ outer token items, pointer = outer ++ [token] ∧ value.at? outer = some (array items)

theorem not_itemAt_nil : ¬ value.ItemAt [] := by
  rintro ⟨outer, token, items, heq, _⟩
  exact List.concat_ne_nil _ _ heq.symm

/-- The array is the value itself or stands inside the child. -/
theorem ItemAt.cases {rest : Pointer} (hchild : value.child? token = some child)
    (h : value.ItemAt (token :: rest)) :
    (rest = [] ∧ ∃ items, value = array items) ∨ child.ItemAt rest := by
  obtain ⟨outer, last, items, heq, harray⟩ := h
  cases outer with
  | nil =>
      obtain ⟨rfl, rfl⟩ := List.cons.inj heq
      exact Or.inl ⟨rfl, items, Option.some.inj harray⟩
  | cons first outer =>
      obtain ⟨rfl, rfl⟩ := List.cons.inj heq
      rw [at?, hchild] at harray
      exact Or.inr ⟨outer, last, items, rfl, harray⟩

/-- Replacing an item by a value that denotes the same texts leaves the content
of everything around the array as it is. -/
theorem sameContent_replaceAt {pointer : Pointer} {old new : Json}
    (hold : value.at? pointer = some old) (hitem : value.ItemAt pointer)
    (h : ∀ standing text, new.Denotes standing text ↔ old.Denotes standing text) :
    SameContent value (value.replaceAt pointer new) := by
  induction pointer generalizing value with
  | nil => exact absurd hitem not_itemAt_nil
  | cons token rest ih =>
      obtain ⟨child, hchild, hrest⟩ := Option.bind_eq_some_iff.mp hold
      rw [replaceAt_cons hchild]
      rcases hitem.cases hchild with ⟨rfl, items, rfl⟩ | hinside
      · obtain rfl : child = old := Option.some.inj hrest
        obtain ⟨position, hposition, hat⟩ := Option.bind_eq_some_iff.mp hchild
        rw [Pointer.index?_eq_some_iff.mp hposition, setChild_item]
        exact sameContent_set hat fun text => h .item text
      · exact sameContent_setChild hchild (ih hrest hinside)

/-! ## Scalars as contents -/

/-- The objects with a given content. -/
def wrappings (inner : Json) : List Json :=
  [object [(Keyword.value, inner)], object [(Keyword.id, inner)],
    object [(Keyword.list, array [inner])]]

/-- A scalar denotes the same text as an object with this content. -/
theorem denotes_wrapping_iff {scalar wrapped : Json} (hobject : scalar.isObject = false)
    (harray : scalar.isArray = false) (hwrapped : wrapped ∈ scalar.wrappings)
    (standing : Standing) (text : String) :
    wrapped.Denotes standing text ↔ scalar.Denotes standing text := by
  have hscalar : ∀ other, scalar.Denotes other text ↔ scalar.Denotes standing text := by
    intro other
    rw [denotes_scalar_iff hobject harray, denotes_scalar_iff hobject harray]
  have hinner : ∀ {members inner}, content? members = some inner →
      ((object members).Denotes standing text ↔ inner.Denotes .member text) := by
    intro members inner hcontent
    rw [denotes_object_iff, hcontent]
    simp only [Option.some.injEq, exists_eq_left']
  have hvalue : content? [(Keyword.value, scalar)] = some scalar := by
    simp [content?, core?, Keyed.lookup_cons_ite, Keyword.list, Keyword.value, hobject]
  have hid : content? [(Keyword.id, scalar)] = some scalar := by
    simp [content?, core?, Keyed.lookup_cons_ite, Keyword.list, Keyword.value, Keyword.id, hobject]
  simp only [wrappings, List.mem_cons, List.not_mem_nil, or_false] at hwrapped
  rcases hwrapped with rfl | rfl | rfl
  · exact (hinner hvalue).trans (hscalar .member)
  · exact (hinner hid).trans (hscalar .member)
  · rw [hinner (content?_of_list rfl), denotes_array_iff]
    simpa using hscalar .item

end Json

namespace Predicate

variable {expander : Expander} {predicate : Predicate} {members : List (String × Json)}

/-- A text is the expected one.  Where the expected text is a name it may be
spelled so or expand to it. -/
def Expects (expander : Expander) (predicate : Predicate) (text : String) : Prop :=
  if predicate.expanded = true then
    text = predicate.expected ∨ expander.expand text = predicate.expected
  else
    text = predicate.expected

theorem acceptsText_iff (text : String) :
    predicate.acceptsText expander text = true ↔ predicate.Expects expander text := by
  rw [acceptsText, Expects]
  split
  · exact Expander.accepts_iff
  · exact beq_iff_eq

/-- Of a name that is at the end of its expansion only expansions count. -/
theorem expects_iff_of_expand_eq (hexpanded : predicate.expanded = true)
    (h : expander.expand predicate.expected = predicate.expected) (text : String) :
    predicate.Expects expander text ↔ expander.expand text = predicate.expected := by
  rw [Expects, if_pos hexpanded, ← Expander.accepts_iff, Expander.accepts_iff_of_expand_eq h]

/-- A member of the right name denotes an expected text. -/
def Finds (expander : Expander) (predicate : Predicate) (entry : String × Json) : Prop :=
  (entry.1 = predicate.key ∨ expander.expand entry.1 = predicate.key) ∧
    ∃ text, entry.2.Denotes .member text ∧ predicate.Expects expander text

theorem holds_object_iff :
    predicate.holds expander (.object members) = true ↔
      ∃ entry ∈ members, predicate.Finds expander entry := by
  rw [holds, List.any_eq_true]
  refine exists_congr fun entry => and_congr_right' ?_
  rw [Bool.and_eq_true, Expander.accepts_iff, (Json.anyText_iff _ _).2, Finds]
  simp only [acceptsText_iff]

theorem holds_iff {node : Json} : predicate.holds expander node = true ↔
    ∃ members, node = .object members ∧ ∃ entry ∈ members, predicate.Finds expander entry := by
  cases node with
  | object members => simp only [holds_object_iff, Json.object.injEq, exists_eq_left']
  | _ => simp [holds]

theorem finds_congr {name : String} {value other : Json}
    (h : ∀ text, other.Denotes .member text ↔ value.Denotes .member text) :
    predicate.Finds expander (name, other) ↔ predicate.Finds expander (name, value) := by
  simp only [Finds, h]

theorem holds_eq_false {node : Json} (h : node.isObject = false) :
    predicate.holds expander node = false := by
  cases node with
  | object members => contradiction
  | _ => rfl

/-- A member of the tested node, or an item of an array inside it, may be
replaced by a value that denotes the same texts. -/
theorem holds_replaceAt {node old new : Json} {pointer : Pointer}
    (hold : node.at? pointer = some old) (hplace : (∃ name, pointer = [name]) ∨ node.ItemAt pointer)
    (h : ∀ standing text, new.Denotes standing text ↔ old.Denotes standing text) :
    predicate.holds expander (node.replaceAt pointer new) = predicate.holds expander node := by
  cases pointer with
  | nil =>
      rcases hplace with ⟨name, heq⟩ | hitem
      · contradiction
      · exact absurd hitem Json.not_itemAt_nil
  | cons token rest =>
      obtain ⟨child, hchild, hrest⟩ := Option.bind_eq_some_iff.mp hold
      rw [Json.replaceAt_cons hchild]
      cases hobject : node.isObject with
      | false => rw [holds_eq_false hobject, holds_eq_false ((Json.isObject_setChild _ _ _).trans hobject)]
      | true =>
          rcases Json.child?_cases hchild with ⟨members, rfl, hlookup⟩ | ⟨items, _, rfl, _⟩
          · have hdenotes : ∀ text, (child.replaceAt rest new).Denotes .member text ↔
                child.Denotes .member text := by
              rcases hplace with ⟨name, heq⟩ | hitem
              · obtain ⟨rfl, rfl⟩ := List.cons.inj heq
                obtain rfl : child = old := Option.some.inj hrest
                exact h .member
              · rcases hitem.cases hchild with ⟨_, items, hitems⟩ | hinside
                · contradiction
                · exact (Json.sameContent_replaceAt hrest hinside h).denotes .member
            rw [Bool.eq_iff_iff, Json.setChild, holds_object_iff, holds_object_iff]
            exact Keyed.exists_mem_put_iff hlookup (finds_congr hdenotes)
          · contradiction

/-- A predicate holds exactly of the objects with a member of the right name that
denotes an expected text.  Expected names at the end of their expansion are
compared with expansions only.  And the outcome stays the same when a scalar
that is a member of the tested node, or an item of an array inside it, is
written as an object with this content. -/
theorem holds_iff_denotes (expander : Expander) (predicate : Predicate) (node : Json) :
    (predicate.holds expander node = true ↔
      ∃ members name value text, node = .object members ∧ (name, value) ∈ members ∧
        (name = predicate.key ∨ expander.expand name = predicate.key) ∧
        value.Denotes .member text ∧ predicate.Expects expander text) ∧
    (predicate.expanded = true → expander.expand predicate.expected = predicate.expected →
      ∀ text, predicate.Expects expander text ↔ expander.expand text = predicate.expected) ∧
    ∀ pointer scalar, node.at? pointer = some scalar →
      scalar.isObject = false → scalar.isArray = false →
      ((∃ name, pointer = [name]) ∨ node.ItemAt pointer) →
      ∀ wrapped ∈ scalar.wrappings,
        (node.replaceAt pointer wrapped).at? pointer = some wrapped ∧
          predicate.holds expander (node.replaceAt pointer wrapped) =
            predicate.holds expander node := by
  refine ⟨?_, expects_iff_of_expand_eq, ?_⟩
  · rw [holds_iff]
    constructor
    · rintro ⟨members, rfl, ⟨name, value⟩, hmem, hname, text, htext, hexpects⟩
      exact ⟨members, name, value, text, rfl, hmem, hname, htext, hexpects⟩
    · rintro ⟨members, name, value, text, rfl, hmem, hname, htext, hexpects⟩
      exact ⟨members, rfl, (name, value), hmem, hname, text, htext, hexpects⟩
  · intro pointer scalar hat hobject harray hplace wrapped hwrapped
    exact ⟨Json.at?_replaceAt hat wrapped,
      holds_replaceAt hat hplace (Json.denotes_wrapping_iff hobject harray hwrapped)⟩

/-- Where an alias leads to an alias no one equation between expansions tells
which texts are expected: the expected text is accepted although it expands
further, and so is a text with another expansion than the expected one. -/
theorem holds_of_either_spelling :
    let expander := ((Context.empty.withAlias "a" "b:x").withAlias "b" "c:").expander
    let predicate := compile expander "k" "a:1"
    let node := Json.object [("k", .string "b:x1")]
    predicate.expanded = true ∧
      (predicate.holds expander node = true ∧
        ¬ ∃ members name value text, node = .object members ∧ (name, value) ∈ members ∧
          (name = predicate.key ∨ expander.expand name = predicate.key) ∧
          value.Denotes .member text ∧ expander.expand text = predicate.expected) ∧
      predicate.holds expander (.object [("k", .string "a:1")]) = true ∧
      expander.expand "a:1" ≠ expander.expand predicate.expected := by
  intro expander predicate node
  have hpredicate : predicate = { key := "k", expected := "b:x1", expanded := true } := by
    change compile expander "k" "a:1" = _
    rw [compile, if_neg (by decide)]
    decide +kernel
  have hshort : expander.expand "a:1" = "b:x1" := by decide +kernel
  have hfull : expander.expand "b:x1" = "c:x1" := by decide +kernel
  have htaken : ∀ text, text = "b:x1" ∨ expander.expand text = "b:x1" →
      predicate.holds expander (.object [("k", .string text)]) = true := by
    intro text htext
    rw [hpredicate]
    exact holds_object_iff.mpr ⟨_, List.mem_singleton_self _, Or.inl rfl, text,
      Json.Denotes.scalar rfl, htext⟩
  refine ⟨by rw [hpredicate], ⟨htaken _ (Or.inl rfl), ?_⟩, htaken _ (Or.inr hshort), ?_⟩
  · rintro ⟨members, name, value, text, hobject, hmem, _, hdenotes, hexpand⟩
    obtain rfl := Json.object.inj hobject
    obtain ⟨_, rfl⟩ := Prod.mk.inj (List.mem_singleton.mp hmem)
    obtain rfl : "b:x1" = text := Option.some.inj ((Json.denotes_scalar_iff rfl rfl).mp hdenotes)
    rw [hfull, hpredicate] at hexpand
    exact absurd hexpand (by decide)
  · rw [hpredicate, hshort, hfull]
    decide

/-- A node with a list in a list. -/
def knowing : Json :=
  .object [("ex:knows", .array [.object [(Keyword.list, .array [.null,
    .object [(Keyword.list, .array [.string "ex:bob"])]])]])]

/-- The place of the name in it. -/
def knownPlace : Pointer := ["ex:knows", "0", Keyword.list, "1", Keyword.list, "0"]

theorem compile_knows :
    compile (Context.empty.withAlias "ex" "http://x#").expander "ex:knows" "ex:bob" =
      { key := "http://x#knows", expected := "http://x#bob", expanded := true } := by
  rw [compile, if_neg (by decide)]
  decide +kernel

theorem knowing_denotes :
    ∃ members value, knowing = .object members ∧ ("ex:knows", value) ∈ members ∧
      value.Denotes .member "ex:bob" := by
  refine ⟨_, _, rfl, List.mem_singleton_self _, ?_⟩
  refine Json.Denotes.array (List.mem_singleton_self _) ?_
  refine Json.Denotes.list rfl (List.mem_cons_of_mem _ (List.mem_singleton_self _)) ?_
  exact Json.Denotes.list rfl (List.mem_singleton_self _) (Json.Denotes.scalar rfl)

/-- A name in a list of a list is found behind the short name of its property,
and so is an object in its place whose identity it is. -/
theorem holds_iff_denotes_nestedLists :
    let expander := (Context.empty.withAlias "ex" "http://x#").expander
    let predicate := compile expander "ex:knows" "ex:bob"
    let wrapped := Json.object [(Keyword.id, .string "ex:bob")]
    (knowing.at? knownPlace = some (.string "ex:bob") ∧ knowing.ItemAt knownPlace ∧
        predicate.expanded = true ∧ expander.expand predicate.expected = predicate.expected) ∧
      (predicate.Expects expander "ex:bob" ↔ expander.expand "ex:bob" = predicate.expected) ∧
      predicate.holds expander knowing = true ∧
      predicate.holds expander (knowing.replaceAt knownPlace wrapped) = true := by
  intro expander predicate wrapped
  have hat : knowing.at? knownPlace = some (.string "ex:bob") := rfl
  have hitem : knowing.ItemAt knownPlace :=
    ⟨["ex:knows", "0", Keyword.list, "1", Keyword.list], "0", [.string "ex:bob"], rfl, rfl⟩
  have hpredicate : predicate =
      { key := "http://x#knows", expected := "http://x#bob", expanded := true } := compile_knows
  have hexpanded : predicate.expanded = true := by rw [hpredicate]
  have hexpand : expander.expand predicate.expected = predicate.expected := by
    rw [hpredicate]
    decide +kernel
  have hname : expander.expand "ex:knows" = predicate.key := by
    rw [hpredicate]
    decide +kernel
  have htext : expander.expand "ex:bob" = predicate.expected := by
    rw [hpredicate]
    decide +kernel
  have hwrapped : wrapped ∈ (Json.string "ex:bob").wrappings := by simp [wrapped, Json.wrappings]
  obtain ⟨hholds, hexpects, hreplace⟩ := holds_iff_denotes expander predicate knowing
  have hexpects := hexpects hexpanded hexpand "ex:bob"
  have hknowing : predicate.holds expander knowing = true := by
    obtain ⟨members, value, hobject, hmem, hdenotes⟩ := knowing_denotes
    exact hholds.mpr ⟨members, _, value, _, hobject, hmem, Or.inr hname, hdenotes,
      hexpects.mpr htext⟩
  refine ⟨⟨hat, hitem, hexpanded, hexpand⟩, hexpects, hknowing, ?_⟩
  rw [(hreplace knownPlace _ hat rfl rfl (Or.inr hitem) wrapped hwrapped).2]
  exact hknowing

end Predicate

end LinkedPath
