import LinkedPath.Proofs.Match.Denotation

/-!
# Keys with literal values

A predicate compares names, or texts as they are written, by the signs of its
key: one at sign that starts neither `@type` nor `@id` is enough for texts
(`isLiteralKey_iff`).  So a predicate takes a name in both spellings exactly when
its key has no such sign or the name is its own expansion
(`takesSpellings_iff`), and it takes its text only when the key has one or
nothing else expands to the text (`takesVerbatim_iff`).
-/

namespace LinkedPath

namespace Predicate

variable {expander : Expander} {key value name text : String} {chars : List Char}

/-- The text goes on with the name of the type or identity keyword. -/
def OpensName (chars : List Char) : Prop :=
  "type".toList <+: chars ∨ "id".toList <+: chars

instance : Decidable (OpensName chars) :=
  inferInstanceAs (Decidable (_ ∨ _))

/-- There is an at sign that starts neither the type nor the identity keyword. -/
def HasFreeSign (chars : List Char) : Prop :=
  ∃ lead rest, chars = lead ++ '@' :: rest ∧ ¬ OpensName rest

theorem hasLiteralKeyword_iff : hasLiteralKeyword chars = true ↔ HasFreeSign chars := by
  induction chars with
  | nil => simp [hasLiteralKeyword, HasFreeSign]
  | cons c more ih =>
      have hfirst : (c == '@' &&
            !("type".toList.isPrefixOf more || "id".toList.isPrefixOf more)) = true ↔
          c = '@' ∧ ¬ OpensName more := by
        rw [Bool.and_eq_true, beq_iff_eq, Bool.not_eq_true', ← Bool.not_eq_true, Bool.or_eq_true,
          List.isPrefixOf_iff_prefix, List.isPrefixOf_iff_prefix, OpensName]
      rw [hasLiteralKeyword, Bool.or_eq_true, hfirst, ih]
      constructor
      · rintro (⟨rfl, hfree⟩ | ⟨lead, rest, rfl, hfree⟩)
        · exact ⟨[], more, rfl, hfree⟩
        · exact ⟨c :: lead, rest, rfl, hfree⟩
      · rintro ⟨lead, rest, heq, hfree⟩
        cases lead with
        | nil =>
            obtain ⟨rfl, rfl⟩ := List.cons.inj heq
            exact Or.inl ⟨rfl, hfree⟩
        | cons d lead =>
            obtain ⟨rfl, rfl⟩ := List.cons.inj heq
            exact Or.inr ⟨lead, rest, rfl, hfree⟩

/-- A key is literal exactly when it has a free sign anywhere. -/
theorem isLiteralKey_iff : isLiteralKey key = true ↔ HasFreeSign key.toList :=
  hasLiteralKeyword_iff

theorem not_hasFreeSign_of_not_mem (h : '@' ∉ chars) : ¬ HasFreeSign chars := by
  rintro ⟨lead, rest, rfl, _⟩
  simp at h

theorem hasFreeSign_of_isKeyword (hkeyword : Keyword.isKeyword key = true)
    (h : ¬ OpensName key.toList.tail) : HasFreeSign key.toList := by
  obtain ⟨rest, hrest⟩ := (Keyword.isKeyword_iff key).mp hkeyword
  rw [hrest] at h ⊢
  exact ⟨[], rest, rfl, h⟩

/-! ## Nodes with one member -/

/-- The node with one text. -/
def single (name text : String) : Json :=
  .object [(name, .string text)]

theorem expects_compile_iff : (compile expander key value).Expects expander text ↔
    if isLiteralKey key = true then text = value
    else text = expander.expand value ∨ expander.expand text = expander.expand value := by
  rw [compile, Expects]
  cases isLiteralKey key <;> rfl

theorem compile_key : (compile expander key value).key = expander.expand key := by
  rw [compile]
  split <;> rfl

/-- Under a key in either spelling only the text counts. -/
theorem holds_single_iff (hname : name = key ∨ name = expander.expand key) :
    (compile expander key value).holds expander (single name text) = true ↔
      (compile expander key value).Expects expander text := by
  have hkey : name = (compile expander key value).key ∨
      expander.expand name = (compile expander key value).key := by
    rw [compile_key]
    rcases hname with rfl | rfl
    · exact Or.inr rfl
    · exact Or.inl rfl
  have hdenotes : ∀ other, (Json.string text).Denotes .member other ↔ other = text := by
    intro other
    rw [Json.denotes_scalar_iff rfl rfl, Json.scalarText?, Option.some.injEq, eq_comm]
  rw [single, holds_object_iff]
  simp only [List.mem_singleton, exists_eq_left, Finds, hkey, hdenotes, true_and]

/-- The predicate holds of the node with its key and its value, each as it is
written or in full. -/
def TakesSpellings (expander : Expander) (key value : String) : Prop :=
  ∀ name text, name = key ∨ name = expander.expand key → text = value ∨ text = expander.expand value →
    (compile expander key value).holds expander (single name text) = true

/-- The predicate holds of the node with its key and a text exactly when the
text is its value. -/
def TakesVerbatim (expander : Expander) (key value : String) : Prop :=
  ∀ text, (compile expander key value).holds expander (single key text) = true ↔ text = value

theorem takesSpellings_iff : TakesSpellings expander key value ↔
    isLiteralKey key = false ∨ expander.expand value = value := by
  constructor
  · intro h
    rcases Bool.eq_false_or_eq_true (isLiteralKey key) with hliteral | hname
    · have hfull := h key _ (Or.inl rfl) (Or.inr rfl)
      rw [holds_single_iff (Or.inl rfl), expects_compile_iff, if_pos hliteral] at hfull
      exact Or.inr hfull
    · exact Or.inl hname
  · intro h name text hname htext
    rw [holds_single_iff hname, expects_compile_iff]
    split
    · rename_i hliteral
      have hvalue := h.resolve_left (by rw [hliteral]; decide)
      rwa [hvalue, or_self] at htext
    · rcases htext with rfl | rfl
      · exact Or.inr rfl
      · exact Or.inl rfl

theorem takesVerbatim_iff : TakesVerbatim expander key value ↔
    isLiteralKey key = true ∨
      (expander.expand value = value ∧ ∀ text, expander.expand text = value → text = value) := by
  simp only [TakesVerbatim, holds_single_iff (Or.inl rfl), expects_compile_iff]
  cases isLiteralKey key with
  | true => simp
  | false =>
      simp only [Bool.false_eq_true, if_false, false_or]
      constructor
      · intro h
        have hvalue : expander.expand value = value := (h _).mp (Or.inl rfl)
        refine ⟨hvalue, fun text htext => (h text).mp (Or.inr ?_)⟩
        rw [htext, hvalue]
      · rintro ⟨hvalue, honly⟩ text
        rw [hvalue]
        exact ⟨fun h => h.elim id (honly text), Or.inl⟩

/-- What a predicate takes depends on the signs of its key.  It takes both
spellings of key and value under keys without at signs and under the identity
and type keywords; it takes its value only as it is written under keywords that
do not begin like these two.  Under all other keys the free signs decide. -/
theorem taken_by_signs (context : Context) (key value : String) :
    (TakesSpellings context.expander key value ↔
      ¬ HasFreeSign key.toList ∨ context.expander.expand value = value) ∧
    (TakesVerbatim context.expander key value ↔
      HasFreeSign key.toList ∨ (context.expander.expand value = value ∧
        ∀ text, context.expander.expand text = value → text = value)) ∧
    (('@' ∉ key.toList ∨ key = Keyword.id ∨ key = Keyword.type) →
      TakesSpellings context.expander key value) ∧
    (Keyword.isKeyword key = true → ¬ OpensName key.toList.tail →
      TakesVerbatim context.expander key value) := by
  have hspellings : TakesSpellings context.expander key value ↔
      ¬ HasFreeSign key.toList ∨ context.expander.expand value = value := by
    rw [takesSpellings_iff, ← isLiteralKey_iff, Bool.not_eq_true]
  have hverbatim : TakesVerbatim context.expander key value ↔
      HasFreeSign key.toList ∨ (context.expander.expand value = value ∧
        ∀ text, context.expander.expand text = value → text = value) := by
    rw [takesVerbatim_iff, isLiteralKey_iff]
  refine ⟨hspellings, hverbatim, ?_, ?_⟩
  · intro hkey
    refine hspellings.mpr (Or.inl ?_)
    rcases hkey with hsign | rfl | rfl
    · exact not_hasFreeSign_of_not_mem hsign
    · rw [← isLiteralKey_iff]
      decide
    · rw [← isLiteralKey_iff]
      decide
  · intro hkeyword hopens
    exact hverbatim.mpr (Or.inl (hasFreeSign_of_isKeyword hkeyword hopens))

/-- A name without the sign takes spellings, and the index keyword takes its values
verbatim. -/
theorem taken_by_signs_index :
    let context := Context.empty.withAlias "ex" "http://x#"
    '@' ∉ "ex:flag".toList ∧ TakesSpellings context.expander "ex:flag" "ex:on" ∧
      Keyword.isKeyword Keyword.index = true ∧ ¬ OpensName Keyword.index.toList.tail ∧
      TakesVerbatim context.expander Keyword.index "ex:on" := by
  intro context
  have hsign : '@' ∉ "ex:flag".toList := by decide
  have hkeyword : Keyword.isKeyword Keyword.index = true := (Keyword.isKeyword_iff _).mpr ⟨_, rfl⟩
  have hopens : ¬ OpensName Keyword.index.toList.tail := by decide
  exact ⟨hsign, (taken_by_signs context "ex:flag" "ex:on").2.2.1 (Or.inl hsign), hkeyword, hopens,
    (taken_by_signs context Keyword.index "ex:on").2.2.2 hkeyword hopens⟩

/-- A sign inside a property name makes its values literal, and a keyword that
only begins like the identity keyword has names as values. -/
theorem not_taken_by_keyword :
    let context := Context.empty.withAlias "ex" "http://x#"
    (Keyword.isKeyword "a@b" = false ∧
      (compile context.expander "a@b" "ex:on").holds context.expander
        (single "a@b" (context.expander.expand "ex:on")) = false) ∧
    (Keyword.isKeyword "@idx" = true ∧ "@idx" ≠ Keyword.id ∧ "@idx" ≠ Keyword.type ∧
      (compile context.expander "@idx" "ex:on").holds context.expander
        (single "@idx" "http://x#on") = true) ∧
    (¬ ∀ key value, Keyword.isKeyword key = false → TakesSpellings context.expander key value) ∧
    ¬ ∀ key value, Keyword.isKeyword key = true → key ≠ Keyword.id → key ≠ Keyword.type →
      TakesVerbatim context.expander key value := by
  intro context
  have hexpand : context.expander.expand "ex:on" = "http://x#on" := by decide +kernel
  have hproperty : Keyword.isKeyword "a@b" = false := by
    rw [← Bool.not_eq_true, Keyword.isKeyword_iff_head?]
    decide
  have hliteral : (compile context.expander "a@b" "ex:on").holds context.expander
      (single "a@b" (context.expander.expand "ex:on")) = false := by
    rw [← Bool.not_eq_true, holds_single_iff (Or.inl rfl), expects_compile_iff, if_pos (by decide),
      hexpand]
    decide
  have hnames : (compile context.expander "@idx" "ex:on").holds context.expander
      (single "@idx" "http://x#on") = true := by
    rw [holds_single_iff (Or.inl rfl), expects_compile_iff, if_neg (by decide), hexpand]
    exact Or.inl rfl
  have hkeyword : Keyword.isKeyword "@idx" = true := (Keyword.isKeyword_iff _).mpr ⟨_, rfl⟩
  have hid : "@idx" ≠ Keyword.id := by decide
  have htype : "@idx" ≠ Keyword.type := by decide
  refine ⟨⟨hproperty, hliteral⟩, ⟨hkeyword, hid, htype, hnames⟩, ?_, ?_⟩
  · intro h
    have htaken := h "a@b" "ex:on" hproperty "a@b" _ (Or.inl rfl) (Or.inr rfl)
    rw [hliteral] at htaken
    contradiction
  · intro h
    have htext := (h "@idx" "ex:on" hkeyword hid htype _).mp hnames
    exact absurd htext (by decide)

end Predicate

end LinkedPath
