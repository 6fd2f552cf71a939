import LinkedPath.Json.Pointer
import LinkedPath.Proofs.Keyed

/-!
# Places of a document

What a pointer leads to.  An index token is read back as its index, and no
other token is, so every place of a document is named by one sequence of
tokens.  The text of a pointer is read back also when the escapes of a token
are undone in two passes over the token, one for each escape
(`ofTextPasses?_text`).  In a well-formed document every member is found under
its key, and every value inside the document is well formed.
-/

namespace LinkedPath

/-! ## Index tokens -/

namespace Number

theorem digitsValue_eq (digits : List Char) : digitsValue digits = Nat.ofDigitChars 10 digits 0 := by
  rw [digitsValue, Nat.ofDigitChars_eq_foldl]
  congr 1
  funext value digit
  rw [Nat.mul_comm]
  rfl

theorem digitsValue_toDigits (n : Nat) : digitsValue (Nat.toDigits 10 n) = n := by
  rw [digitsValue_eq, Nat.ofDigitChars_ten_toDigits]

theorem toDigits_head (n : Nat) (h : 10 ≤ n) : (Nat.toDigits 10 n).head? ≠ some '0' := by
  induction n using Nat.strongRecOn with
  | ind n ih =>
      rw [Nat.toDigits_of_base_le (by omega) h]
      by_cases hlt : n / 10 < 10
      · rw [Nat.toDigits_of_lt_base hlt]
        have hpos : n / 10 ≠ 0 := by omega
        simpa using hpos
      · rw [List.head?_append, Option.or_of_isSome (by simp)]
        exact ih (n / 10) (by omega) (by omega)

theorem isWhole_toDigits (n : Nat) : isWhole (Nat.toDigits 10 n) = true := by
  have hne : Nat.toDigits 10 n ≠ [] := Nat.toDigits_ne_nil
  by_cases hlt : n < 10
  · simp [isWhole, Nat.toDigits_of_lt_base hlt]
  · have hhead := toDigits_head n (by omega)
    simp [isWhole, hne, hhead]

theorem toNat_of_isDigit {digit : Char} (h : digit.isDigit = true) :
    48 ≤ digit.toNat ∧ digit.toNat ≤ 57 :=
  Char.isDigit_iff_toNat.mp h

theorem digitValue_lt {digit : Char} (h : digit.isDigit = true) : digitValue digit < 10 := by
  have hdigit := toNat_of_isDigit h
  have hzero : '0'.toNat = 48 := rfl
  unfold digitValue
  omega

theorem digitChar_digitValue {digit : Char} (h : digit.isDigit = true) :
    (digitValue digit).digitChar = digit := by
  have hdigit := toNat_of_isDigit h
  have hvalue := Nat.toNat_digitChar_of_lt_ten (digitValue_lt h)
  have hzero : '0'.toNat = 48 := rfl
  apply Char.toNat_inj.mp
  rw [hvalue]
  unfold digitValue
  omega

/-- Digits behind a positive number make the digits of a greater one. -/
theorem toDigits_append {digits : List Char} {value : Nat} (hvalue : 0 < value)
    (h : ∀ digit ∈ digits, digit.isDigit = true) :
    Nat.toDigits 10 value ++ digits = Nat.toDigits 10 (Nat.ofDigitChars 10 digits value) := by
  -- The number before the digits stays positive, so no zero ever leads.
  induction digits generalizing value with
  | nil => simp
  | cons digit rest ih =>
      have hdigit := h digit (by simp)
      have hlt := digitValue_lt hdigit
      have hnext : Nat.toDigits 10 (10 * value + digitValue digit) =
          Nat.toDigits 10 value ++ [digit] := by
        rw [← Nat.toDigits_append_toDigits (by omega) hvalue hlt, Nat.toDigits_of_lt_base hlt,
          digitChar_digitValue hdigit]
      rw [Nat.ofDigitChars_cons]
      show _ = Nat.toDigits 10 (Nat.ofDigitChars 10 rest (10 * value + digitValue digit))
      rw [← ih (by omega) fun other hother => h other (List.mem_cons_of_mem _ hother), hnext,
        List.append_assoc]
      rfl

theorem toDigits_digitsValue {digits : List Char} (hwhole : isWhole digits = true)
    (h : ∀ digit ∈ digits, digit.isDigit = true) :
    Nat.toDigits 10 (digitsValue digits) = digits := by
  cases digits with
  | nil => simp [isWhole] at hwhole
  | cons digit rest =>
      have hdigit := h digit (by simp)
      have hfirst : Nat.toDigits 10 (digitValue digit) = [digit] := by
        rw [Nat.toDigits_of_lt_base (digitValue_lt hdigit), digitChar_digitValue hdigit]
      have hvalue : digitsValue (digit :: rest) =
          Nat.ofDigitChars 10 rest (digitValue digit) := by
        rw [digitsValue_eq, Nat.ofDigitChars_cons, Nat.mul_zero, Nat.zero_add]
        rfl
      rw [hvalue]
      by_cases hzero : digitValue digit = 0
      · -- A leading zero stands alone.
        have hchar : digit = '0' := by
          rw [← digitChar_digitValue hdigit, hzero]
          rfl
        have hrest : rest = [] := by simpa [isWhole, hchar] using hwhole
        rw [hrest]
        exact hfirst
      · rw [← toDigits_append (by omega) fun other hother => h other (List.mem_cons_of_mem _ hother),
          hfirst]
        rfl

end Number

namespace Pointer

theorem toList_indexToken (index : Nat) : (indexToken index).toList = Nat.toDigits 10 index := by
  rw [indexToken, Nat.toString_eq_repr, Nat.toList_repr]

/-- An index token stands for its index, and nothing else does. -/
theorem index?_eq_some_iff {token : String} {index : Nat} :
    index? token = some index ↔ token = indexToken index := by
  constructor
  · intro h
    simp only [index?] at h
    split at h
    · rename_i hdigits
      rw [Bool.and_eq_true, List.all_eq_true] at hdigits
      obtain rfl : Number.digitsValue token.toList = index := by simpa using h
      rw [← String.toList_inj, toList_indexToken]
      exact (Number.toDigits_digitsValue hdigits.1 hdigits.2).symm
    · contradiction
  · rintro rfl
    have hall : (Nat.toDigits 10 index).all Char.isDigit = true := by
      rw [List.all_eq_true]
      exact fun digit hdigit => Nat.isDigit_of_mem_toDigits (by omega) (by omega) hdigit
    simp only [index?, toList_indexToken]
    rw [Number.isWhole_toDigits, hall, Number.digitsValue_toDigits]
    rfl

theorem indexToken_injective {index other : Nat} (h : indexToken index = indexToken other) :
    index = other := by
  have hindex := index?_eq_some_iff.mpr (rfl : indexToken index = indexToken index)
  rw [h, index?_eq_some_iff.mpr rfl] at hindex
  exact (Option.some.inj hindex).symm

/-! ## Escapes undone in two passes -/

/-- Replace every tilde that is followed by a mark, and the mark with it, from
left to right. -/
def undo (mark meant : Char) : List Char → List Char
  | [] => []
  | '~' :: c :: rest =>
      if c = mark then meant :: undo mark meant rest else '~' :: undo mark meant (c :: rest)
  | c :: rest => c :: undo mark meant rest

/-- The pointer that a text stands for.  In every piece between slashes each
`~1` is turned into a slash, and after that each `~0` into a tilde. -/
def ofTextPasses? (text : String) : Option Pointer :=
  match text.toList with
  | [] => some []
  | c :: rest =>
      if c = '/' then
        some ((pieces rest).map fun piece => String.ofList (undo '0' '~' (undo '1' '/' piece)))
      else
        none

theorem undo_cons_of_ne {mark meant c : Char} (hc : c ≠ '~') (rest : List Char) :
    undo mark meant (c :: rest) = c :: undo mark meant rest := by
  rw [undo]
  rintro d more rfl
  exact absurd rfl hc

theorem undo_tilde_of_ne {mark meant c : Char} (hc : c ≠ mark) (rest : List Char) :
    undo mark meant ('~' :: c :: rest) = '~' :: undo mark meant (c :: rest) := by
  rw [undo, if_neg hc]

/-- The first pass makes no zero, so it makes no escape for the second one. -/
theorem head?_undo_slash {c : Char} (hc : c ≠ '0') (rest : List Char) :
    (undo '1' '/' (c :: rest)).head? ≠ some '0' := by
  by_cases htilde : c = '~'
  · subst htilde
    cases rest with
    | nil => simp [undo]
    | cons d more =>
        rw [undo]
        split <;> simp
  · rw [undo_cons_of_ne htilde]
    simpa using hc

theorem undo_tilde_of_head? {text : List Char} (h : text.head? ≠ some '0') :
    undo '0' '~' ('~' :: text) = '~' :: undo '0' '~' text := by
  cases text with
  | nil => simp [undo]
  | cons c rest => exact undo_tilde_of_ne (by simpa using h) rest

theorem undo_undo (text : List Char) : undo '0' '~' (undo '1' '/' text) = unescape text := by
  fun_induction unescape text with
  | case1 => rfl
  | case2 rest ih =>
      rw [undo_tilde_of_ne (by decide), undo_cons_of_ne (c := '0') (by decide), undo, if_pos rfl,
        ih]
  | case3 rest ih => rw [undo, if_pos rfl, undo_cons_of_ne (by decide), ih]
  | case4 c rest hzero hone ih =>
      by_cases htilde : c = '~'
      · subst htilde
        cases rest with
        | nil => rfl
        | cons d more =>
            -- This tilde begins no escape; both passes leave it as it is.
            have hd0 : d ≠ '0' := by
              rintro rfl
              exact hzero more rfl rfl
            have hd1 : d ≠ '1' := by
              rintro rfl
              exact hone more rfl rfl
            rw [undo_tilde_of_ne hd1, undo_tilde_of_head? (head?_undo_slash hd0 more), ih]
      · rw [undo_cons_of_ne htilde, undo_cons_of_ne htilde, ih]

theorem ofTextPasses?_text (pointer : Pointer) : ofTextPasses? pointer.text = some pointer := by
  rw [← ofText?_text pointer, ofTextPasses?, ofText?]
  cases pointer.text.toList with
  | nil => rfl
  | cons c rest => simp only [undo_undo]

theorem text_injective {first second : Pointer} (h : first.text = second.text) :
    first = second := by
  have hfirst := ofText?_text first
  rw [h, ofText?_text] at hfirst
  exact (Option.some.inj hfirst).symm

end Pointer

/-! ## Children of values -/

namespace Json

theorem child?_of_member {members : List (String × Json)} {name : String} {value : Json}
    (hwf : (object members).WellFormed) (h : (name, value) ∈ members) :
    (object members).child? name = some value := by
  rw [WellFormed] at hwf
  exact Keyed.lookup_of_mem hwf.1 h

theorem child?_of_item {items : List Json} {position : Nat} {item : Json}
    (h : items[position]? = some item) :
    (array items).child? (Pointer.indexToken position) = some item := by
  simp only [child?]
  rw [Pointer.index?_eq_some_iff.mpr rfl]
  exact h

/-- A token leads to a member of an object or to an item of an array. -/
theorem child?_cases {value child : Json} {token : String} (h : value.child? token = some child) :
    (∃ members, value = object members ∧ members.lookup token = some child) ∨
    (∃ items position, value = array items ∧ token = Pointer.indexToken position ∧
      items[position]? = some child) := by
  cases value with
  | object members => exact Or.inl ⟨members, rfl, h⟩
  | array items =>
      obtain ⟨position, hposition, hitem⟩ := Option.bind_eq_some_iff.mp h
      exact Or.inr ⟨items, position, rfl, Pointer.index?_eq_some_iff.mp hposition, hitem⟩
  | _ => simp [child?] at h

theorem WellFormed.of_member {members : List (String × Json)} {name : String} {value : Json}
    (hwf : (object members).WellFormed) (h : (name, value) ∈ members) : value.WellFormed := by
  rw [WellFormed] at hwf
  exact (membersWellFormed_iff members).mp hwf.2 (name, value) h

theorem WellFormed.of_item {items : List Json} {item : Json} (hwf : (array items).WellFormed)
    (h : item ∈ items) : item.WellFormed := by
  rw [WellFormed] at hwf
  exact (allWellFormed_iff items).mp hwf item h

theorem WellFormed.child? {value child : Json} {token : String} (hwf : value.WellFormed)
    (h : value.child? token = some child) : child.WellFormed := by
  rcases child?_cases h with ⟨members, rfl, hlookup⟩ | ⟨items, position, rfl, _, hitem⟩
  · exact hwf.of_member (Keyed.mem_of_lookup_eq_some hlookup)
  · exact hwf.of_item (List.mem_of_getElem? hitem)

/-- Whatever a pointer leads to in a well-formed document is well formed. -/
theorem WellFormed.at? {value inner : Json} {pointer : Pointer} (hwf : value.WellFormed)
    (h : value.at? pointer = some inner) : inner.WellFormed := by
  induction pointer generalizing value with
  | nil =>
      obtain rfl : value = inner := by simpa using h
      exact hwf
  | cons token rest ih =>
      obtain ⟨child, hchild, hrest⟩ := Option.bind_eq_some_iff.mp h
      exact ih (hwf.child? hchild) hrest

theorem at?_concat (value : Json) (pointer : Pointer) (token : String) :
    value.at? (pointer ++ [token]) =
      (value.at? pointer).bind fun inner => inner.child? token := by
  rw [at?_append]
  congr 1
  funext inner
  simp [at?]

end Json

end LinkedPath
