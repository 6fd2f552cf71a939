import LinkedPath.Json.Basic

/-!
# Pointers into a document

A pointer is a sequence of tokens.  At an object a token is a key, at an array
it is an index in decimal.  The text of a pointer has a slash before every
token; a slash or a tilde inside a token is escaped.  The main statements are
`ofText?_text`, reading undoes writing, and `at?_append`, following two
pointers in turn is following their concatenation.
-/

namespace LinkedPath

/-- A place in a document, as the tokens that lead to it from the top. -/
abbrev Pointer := List String

namespace Pointer

/-- The token for a position of an array. -/
def indexToken (index : Nat) : String := toString index

/-- The position that a token stands for: decimal digits without sign and
without leading zeros. -/
def index? (token : String) : Option Nat :=
  let digits := token.toList
  if Number.isWhole digits && digits.all Char.isDigit then
    some (Number.digitsValue digits)
  else
    none

/-- A character inside a written token. -/
def escapeChar (c : Char) : List Char :=
  if c = '~' then ['~', '0']
  else if c = '/' then ['~', '1']
  else [c]

/-- A token as it is written. -/
def escape (token : List Char) : List Char :=
  token.flatMap escapeChar

/-- A written token as it is meant; a tilde that introduces no escape stands
for itself. -/
def unescape : List Char → List Char
  | [] => []
  | '~' :: '0' :: rest => '~' :: unescape rest
  | '~' :: '1' :: rest => '/' :: unescape rest
  | c :: rest => c :: unescape rest

/-- The characters of a written pointer. -/
def chars : Pointer → List Char
  | [] => []
  | token :: rest => '/' :: (escape token.toList ++ chars rest)

/-- The text of a pointer; the text of the empty pointer is empty. -/
def text (pointer : Pointer) : String :=
  String.ofList (chars pointer)

/-- The pieces of a text between its slashes. -/
def pieces : List Char → List (List Char)
  | [] => [[]]
  | c :: rest =>
      if c = '/' then
        [] :: pieces rest
      else
        match pieces rest with
        | [] => [[c]]
        | piece :: more => (c :: piece) :: more

/-- The pointer that a text stands for.  A text that is not empty must begin
with a slash. -/
def ofText? (text : String) : Option Pointer :=
  match text.toList with
  | [] => some []
  | c :: rest =>
      if c = '/' then
        some ((pieces rest).map fun piece => String.ofList (unescape piece))
      else
        none

/-! ## Reading undoes writing -/

theorem slash_not_mem_escape (token : List Char) : '/' ∉ escape token := by
  induction token with
  | nil => simp [escape]
  | cons c rest ih =>
      simp only [escape, List.flatMap_cons, List.mem_append, not_or] at *
      refine ⟨?_, ih⟩
      unfold escapeChar
      split
      · simp
      · split
        · simp
        · rename_i hslash
          simpa using fun h => hslash h.symm

theorem unescape_escape (token : List Char) : unescape (escape token) = token := by
  induction token with
  | nil => rfl
  | cons c rest ih =>
      simp only [escape, List.flatMap_cons] at *
      by_cases htilde : c = '~'
      · subst htilde
        simp [escapeChar, unescape, ih]
      · by_cases hslash : c = '/'
        · subst hslash
          simp [escapeChar, unescape, ih]
        · rw [show escapeChar c = [c] by simp [escapeChar, htilde, hslash]]
          rw [List.singleton_append, unescape, ih]
          · rintro left rfl
            exact absurd rfl htilde
          · rintro left rfl
            exact absurd rfl htilde

theorem pieces_of_slash_not_mem {piece : List Char} (h : '/' ∉ piece) :
    pieces piece = [piece] := by
  induction piece with
  | nil => rfl
  | cons c rest ih =>
      simp only [List.mem_cons, not_or] at h
      have hc : c ≠ '/' := fun hc => h.1 hc.symm
      simp [pieces, hc, ih h.2]

theorem pieces_append {piece : List Char} (h : '/' ∉ piece) (rest : List Char) :
    pieces (piece ++ '/' :: rest) = piece :: pieces rest := by
  induction piece with
  | nil => simp [pieces]
  | cons c more ih =>
      simp only [List.mem_cons, not_or] at h
      have hc : c ≠ '/' := fun hc => h.1 hc.symm
      simp [pieces, hc, ih h.2]

theorem pieces_chars (token : String) (rest : Pointer) :
    (pieces (escape token.toList ++ chars rest)).map
        (fun piece => String.ofList (unescape piece)) = token :: rest := by
  induction rest generalizing token with
  | nil =>
      simp only [chars, List.append_nil]
      rw [pieces_of_slash_not_mem (slash_not_mem_escape _)]
      simp [unescape_escape, String.ofList_toList]
  | cons next more ih =>
      simp only [chars]
      rw [pieces_append (slash_not_mem_escape _), List.map_cons, ih next]
      simp [unescape_escape, String.ofList_toList]

theorem ofText?_text (pointer : Pointer) : ofText? (text pointer) = some pointer := by
  cases pointer with
  | nil => rfl
  | cons token rest =>
      simp only [ofText?, text, String.toList_ofList, chars, if_true]
      exact congrArg some (pieces_chars token rest)

end Pointer

namespace Json

/-- The value directly inside a container that a token leads to. -/
def child? (value : Json) (token : String) : Option Json :=
  match value with
  | object members => members.lookup token
  | array items => (Pointer.index? token).bind fun index => items[index]?
  | _ => none

/-- The value that a pointer leads to. -/
def at? (value : Json) : Pointer → Option Json
  | [] => some value
  | token :: rest => (value.child? token).bind fun child => child.at? rest

/-- The value that the text of a pointer leads to. -/
def resolve? (value : Json) (text : String) : Option Json :=
  (Pointer.ofText? text).bind value.at?

@[simp] theorem at?_nil (value : Json) : value.at? [] = some value := rfl

theorem at?_append (value : Json) (first second : Pointer) :
    value.at? (first ++ second) = (value.at? first).bind fun inner => inner.at? second := by
  induction first generalizing value with
  | nil => rfl
  | cons token rest ih =>
      simp only [List.cons_append, at?]
      cases value.child? token with
      | none => rfl
      | some child => exact ih child

theorem resolve?_text (value : Json) (pointer : Pointer) :
    value.resolve? pointer.text = value.at? pointer := by
  simp [resolve?, Pointer.ofText?_text]

end Json

end LinkedPath
