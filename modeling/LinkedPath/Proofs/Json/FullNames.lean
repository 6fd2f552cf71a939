import LinkedPath.Proofs.Json.Content
import LinkedPath.Proofs.Json.Members

/-!
# Documents in full names

Two documents may say the same with short names and with full ones.  `inFull`
replaces every member name of a value by its expansion, and also the strings at
chosen places.  In a settled context no name becomes a keyword that way, so the
members under keywords stay what they are, and a value in full stands for the
texts that it stood for, up to their spelling (`anyText_inFull`).
-/

namespace LinkedPath

namespace Json

mutual

/-- The value with all member names in full, and the strings at chosen places
too.  The place is that of the value itself. -/
def inFull (expander : Expander) (chosen : Pointer → Bool) (place : Pointer) : Json → Json
  | string text => string (if chosen place then expander.expand text else text)
  | array items => array (itemsInFull expander chosen place 0 items)
  | object members => object (membersInFull expander chosen place members)
  | null => null
  | bool flag => bool flag
  | number value => number value

/-- The items of an array, from some position on. -/
def itemsInFull (expander : Expander) (chosen : Pointer → Bool) (place : Pointer)
    (position : Nat) : List Json → List Json
  | [] => []
  | item :: rest =>
      inFull expander chosen (place ++ [Pointer.indexToken position]) item ::
        itemsInFull expander chosen place (position + 1) rest

/-- The members of an object. -/
def membersInFull (expander : Expander) (chosen : Pointer → Bool) (place : Pointer) :
    List (String × Json) → List (String × Json)
  | [] => []
  | (name, value) :: rest =>
      (expander.expand name, inFull expander chosen (place ++ [name]) value) ::
        membersInFull expander chosen place rest

end

section

variable (expander : Expander) (chosen : Pointer → Bool) (place : Pointer)

theorem zipIdx_itemsInFull (position : Nat) (items : List Json) :
    (itemsInFull expander chosen place position items).zipIdx position =
      (items.zipIdx position).map fun entry =>
        (inFull expander chosen (place ++ [Pointer.indexToken entry.2]) entry.1, entry.2) := by
  induction items generalizing position with
  | nil => rw [itemsInFull]; rfl
  | cons item rest ih => rw [itemsInFull, List.zipIdx_cons, ih]; rfl

theorem membersInFull_eq (members : List (String × Json)) :
    membersInFull expander chosen place members =
      members.map fun entry =>
        (expander.expand entry.1, inFull expander chosen (place ++ [entry.1]) entry.2) := by
  induction members with
  | nil => rw [membersInFull]; rfl
  | cons entry rest ih =>
      obtain ⟨name, value⟩ := entry
      rw [membersInFull, ih]
      rfl

theorem keys_membersInFull (members : List (String × Json)) :
    Keyed.keys (membersInFull expander chosen place members) =
      (Keyed.keys members).map expander.expand := by
  rw [membersInFull_eq, Keyed.keys, Keyed.keys, List.map_map, List.map_map]
  rfl

@[simp] theorem isObject_inFull (value : Json) :
    (value.inFull expander chosen place).isObject = value.isObject := by
  cases value <;> rw [inFull] <;> rfl

@[simp] theorem isArray_inFull (value : Json) :
    (value.inFull expander chosen place).isArray = value.isArray := by
  cases value <;> rw [inFull] <;> rfl

theorem mem_itemsInFull {expander : Expander} {chosen : Pointer → Bool} {place : Pointer}
    {position : Nat} {items : List Json} {found : Json}
    (h : found ∈ itemsInFull expander chosen place position items) :
    ∃ item ∈ items, ∃ place, found = item.inFull expander chosen place := by
  induction items generalizing position with
  | nil =>
      rw [itemsInFull] at h
      contradiction
  | cons item rest ih =>
      rw [itemsInFull] at h
      rcases List.mem_cons.mp h with rfl | hrest
      · exact ⟨item, List.mem_cons_self, _, rfl⟩
      · obtain ⟨other, hother, place, hfound⟩ := ih hrest
        exact ⟨other, List.mem_cons_of_mem _ hother, place, hfound⟩

/-- What cannot tell the items from the items in full holds of one of both. -/
theorem any_itemsInFull {test : Json → Bool} {items : List Json}
    (h : ∀ item ∈ items, ∀ place, test (item.inFull expander chosen place) = test item)
    (position : Nat) : (itemsInFull expander chosen place position items).any test = items.any test := by
  induction items generalizing position with
  | nil => rw [itemsInFull]
  | cons item rest ih =>
      obtain ⟨hitem, hrest⟩ := List.forall_mem_cons.mp h
      rw [itemsInFull, List.any_cons, List.any_cons, hitem, ih hrest]

end

/-! ## Well-formed documents -/

/-- A document in which no two names of an object have the same expansion is well
formed in full. -/
theorem WellFormed.inFull {expander : Expander} {value : Json} (hwf : value.WellFormed)
    (hnames : value.EveryObject fun members =>
      ((Keyed.keys members).map expander.expand).Nodup)
    (chosen : Pointer → Bool) (place : Pointer) :
    (value.inFull expander chosen place).WellFormed := by
  induction value using Json.induction generalizing place with
  | onArray items ih =>
      rw [Json.inFull, WellFormed, allWellFormed_iff]
      intro found hfound
      obtain ⟨item, hmem, place, rfl⟩ := mem_itemsInFull hfound
      obtain ⟨position, hposition⟩ := List.mem_iff_getElem?.mp hmem
      exact ih item hmem (hwf.of_item hmem) (hnames.child? (child?_of_item hposition)) place
  | onObject members ih =>
      rw [Json.inFull, WellFormed, keys_membersInFull, membersWellFormed_iff, membersInFull_eq]
      refine ⟨hnames members ⟨[], rfl⟩, ?_⟩
      intro found hfound
      obtain ⟨⟨name, value⟩, hmem, rfl⟩ := List.mem_map.mp hfound
      exact ih _ hmem (hwf.of_member hmem) (hnames.child? (child?_of_member hwf hmem)) _
  | onScalar value hobject harray =>
      cases value with
      | array items => contradiction
      | object members => contradiction
      | _ =>
          rw [Json.inFull]
          trivial

/-! ## Members under keywords -/

variable {context : Context} (chosen : Pointer → Bool)

theorem lookup_membersInFull (hsettled : context.Settled) (place : Pointer) {keyword : String}
    (hkeyword : Keyword.isKeyword keyword = true) (members : List (String × Json)) :
    (membersInFull context.expander chosen place members).lookup keyword =
      (members.lookup keyword).map (inFull context.expander chosen (place ++ [keyword])) := by
  rw [membersInFull_eq]
  exact Keyed.lookup_rename (fun name value => inFull context.expander chosen (place ++ [name]) value)
    (fun name _ => hsettled.expand_eq_keyword_iff hkeyword)

/-- The content in full is the content of the object in full. -/
theorem content?_membersInFull (hsettled : context.Settled) (place : Pointer)
    (members : List (String × Json)) :
    Option.Rel (fun value full => ∃ below, full = value.inFull context.expander chosen below)
      (content? members) (content? (membersInFull context.expander chosen place members)) := by
  refine content?_rel ?_ ?_ fun key hkey => ?_
  · rintro value _ ⟨below, rfl⟩
    exact isObject_inFull _ _ _ _
  · rintro value _ ⟨below, rfl⟩
    exact isArray_inFull _ _ _ _
  · rw [lookup_membersInFull chosen hsettled place hkey]
    cases members.lookup key with
    | none => exact Option.Rel.none
    | some value => exact Option.Rel.some ⟨_, rfl⟩

/-! ## Texts -/

variable {chosen}

/-- The strings at the chosen places are accepted in full exactly when they are
accepted as they are. -/
def TakesSpellings (expander : Expander) (chosen : Pointer → Bool) (accepts : String → Bool) : Prop :=
  ∀ place text, chosen place = true → accepts (expander.expand text) = accepts text

/-- A value in full stands for the same accepted texts. -/
theorem anyText_inFull (hsettled : context.Settled) {accepts : String → Bool}
    (haccepts : TakesSpellings context.expander chosen accepts) (value : Json) (place : Pointer) :
    (value.inFull context.expander chosen place).anyTextOfItem accepts =
        value.anyTextOfItem accepts ∧
      (value.inFull context.expander chosen place).anyText accepts = value.anyText accepts := by
  induction value using Json.induction generalizing place with
  | onArray items ih =>
      rw [inFull, anyText_array, anyText_array]
      refine ⟨by rw [anyTextOfItem, anyTextOfItem], ?_⟩
      exact any_itemsInFull _ _ _ (fun item hitem place => (ih item hitem place).1) 0
  | onObject members ih =>
      have hitem : ((object members).inFull context.expander chosen place).anyTextOfItem accepts =
          (object members).anyTextOfItem accepts := by
        have hcontent := content?_membersInFull chosen hsettled place members
        rw [inFull, anyTextOfItem_object_eq, anyTextOfItem_object_eq]
        generalize content? (membersInFull context.expander chosen place members) = full
          at hcontent ⊢
        generalize hmembers : content? members = inner at hcontent ⊢
        cases hcontent with
        | none => rfl
        | some h =>
            obtain ⟨below, rfl⟩ := h
            obtain ⟨name, hmem⟩ := exists_mem_of_content? hmembers
            exact (ih _ hmem below).2
      have harray : ((object members).inFull context.expander chosen place).isArray = false :=
        isArray_inFull _ _ _ _
      exact ⟨hitem, by rw [anyText_of_not_array accepts harray, anyText_of_not_array accepts rfl, hitem]⟩
  | onScalar value hobject harray =>
      have hitem : (value.inFull context.expander chosen place).anyTextOfItem accepts =
          value.anyTextOfItem accepts := by
        cases value with
        | array items => contradiction
        | object members => contradiction
        | string text =>
            rw [inFull, anyTextOfItem, anyTextOfItem]
            split
            · rename_i hchosen
              exact haccepts place text hchosen
            · rfl
        | _ => rw [inFull]
      have harrayFull : (value.inFull context.expander chosen place).isArray = false :=
        (isArray_inFull _ _ _ _).trans harray
      exact ⟨hitem, by
        rw [anyText_of_not_array accepts harrayFull, anyText_of_not_array accepts harray, hitem]⟩

end Json

end LinkedPath
