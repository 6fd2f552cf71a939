import LinkedPath.Json.Basic

/-!
# Tokens of a JSON text

The text is cut into brackets, separators, scalars and strings.  Blanks
between tokens are the four that JSON knows.  Strings hold no control
characters, and a surrogate escape must be one half of a pair.
-/

namespace LinkedPath.Json

/-- A token of a JSON text. -/
inductive Token
  | openArray
  | closeArray
  | openObject
  | closeObject
  | comma
  | colon
  /-- A complete value that is neither a string nor a container. -/
  | scalar (value : Json)
  /-- A string, which is a value or the key of a member. -/
  | text (value : String)

/-- A blank between tokens. -/
def isSpace (c : Char) : Bool :=
  c == ' ' || c == '\n' || c == '\t' || c == '\r'

/-- The value of a hexadecimal digit. -/
def hexDigit? (c : Char) : Option Nat :=
  if '0' ≤ c ∧ c ≤ '9' then some (c.toNat - '0'.toNat)
  else if 'a' ≤ c ∧ c ≤ 'f' then some (c.toNat - 'a'.toNat + 10)
  else if 'A' ≤ c ∧ c ≤ 'F' then some (c.toNat - 'A'.toNat + 10)
  else none

/-- The code unit written by four hexadecimal digits. -/
def unit? (a b c d : Char) : Option Nat :=
  match hexDigit? a, hexDigit? b, hexDigit? c, hexDigit? d with
  | some a, some b, some c, some d => some (((a * 16 + b) * 16 + c) * 16 + d)
  | _, _, _, _ => none

/-- The first half of a surrogate pair. -/
def isHighSurrogate (unit : Nat) : Bool := 0xD800 ≤ unit && unit < 0xDC00

/-- The second half of a surrogate pair. -/
def isLowSurrogate (unit : Nat) : Bool := 0xDC00 ≤ unit && unit < 0xE000

/-- The character that a surrogate pair stands for. -/
def joinSurrogates (high low : Nat) : Char :=
  Char.ofNat (0x10000 + (high - 0xD800) * 0x400 + (low - 0xDC00))

/-- The character that a one-letter escape stands for. -/
def escaped? : Char → Option Char
  | '\x22' => some '\x22'
  | '\\' => some '\\'
  | '/' => some '/'
  | 'b' => some '\x08'
  | 'f' => some '\x0c'
  | 'n' => some '\n'
  | 'r' => some '\r'
  | 't' => some '\t'
  | _ => none

/-- Read a string up to its closing quote; `read` holds the characters so far,
last one first. -/
def quoted? (read : List Char) : List Char → Option (String × List Char)
  | [] => none
  | '\x22' :: rest => some (String.ofList read.reverse, rest)
  | '\\' :: 'u' :: a :: b :: c :: d :: rest =>
      match unit? a b c d with
      | none => none
      | some unit =>
          if isHighSurrogate unit then
            match rest with
            | '\\' :: 'u' :: e :: f :: g :: h :: rest =>
                match unit? e f g h with
                | none => none
                | some low =>
                    if isLowSurrogate low then
                      quoted? (joinSurrogates unit low :: read) rest
                    else
                      none
            | _ => none
          else if isLowSurrogate unit then
            none
          else
            quoted? (Char.ofNat unit :: read) rest
  | '\\' :: letter :: rest =>
      match escaped? letter with
      | some c => quoted? (c :: read) rest
      | none => none
  | c :: rest => if c < ' ' then none else quoted? (c :: read) rest

/-- The token at the start of a text that does not begin with a blank, and what
follows it. -/
def token? : List Char → Option (Token × List Char)
  | '[' :: rest => some (.openArray, rest)
  | ']' :: rest => some (.closeArray, rest)
  | '\x7b' :: rest => some (.openObject, rest)
  | '\x7d' :: rest => some (.closeObject, rest)
  | ',' :: rest => some (.comma, rest)
  | ':' :: rest => some (.colon, rest)
  | '\x22' :: rest => (quoted? [] rest).map fun (value, rest) => (.text value, rest)
  | 'n' :: 'u' :: 'l' :: 'l' :: rest => some (.scalar null, rest)
  | 't' :: 'r' :: 'u' :: 'e' :: rest => some (.scalar (bool true), rest)
  | 'f' :: 'a' :: 'l' :: 's' :: 'e' :: rest => some (.scalar (bool false), rest)
  | text =>
      match Number.literal? text with
      | none => none
      | some (literal, rest) => literal.value?.map fun value => (.scalar (number value), rest)

/-! ## Every token takes something from the text -/

theorem quoted?_shorter (read text : List Char) :
    ∀ value rest, quoted? read text = some (value, rest) → rest.length < text.length := by
  fun_induction quoted? read text
  all_goals
    intro value rest h
    simp_all
  all_goals omega

theorem token?_shorter {text rest : List Char} {token : Token}
    (h : token? text = some (token, rest)) : rest.length < text.length := by
  unfold token? at h
  split at h
  case h_7 tail =>
      cases hq : quoted? [] tail with
      | none => simp [hq] at h
      | some found =>
          obtain ⟨value, left⟩ := found
          have := quoted?_shorter _ _ _ _ hq
          simp [hq] at h
          obtain ⟨-, rfl⟩ := h
          simp
          omega
  case h_11 =>
      split at h
      · contradiction
      · rename_i literal left hl
        have := Number.literal?_shorter hl
        cases hv : literal.value? with
        | none => simp [hv] at h
        | some value =>
            simp [hv] at h
            obtain ⟨-, rfl⟩ := h
            exact this
  all_goals
    simp at h
    obtain ⟨-, rfl⟩ := h
    simp
  all_goals omega

/-- The tokens of a text; `read` holds those so far, last one first. -/
def tokensFrom? (read : List Token) (text : List Char) : Option (List Token) :=
  match _hskip : text.dropWhile isSpace with
  | [] => some read.reverse
  | c :: rest =>
      match _htoken : token? (c :: rest) with
      | none => none
      | some (token, left) => tokensFrom? (token :: read) left
termination_by text.length
decreasing_by
  have hshort := token?_shorter _htoken
  have hdrop : (text.dropWhile isSpace).length ≤ text.length :=
    (List.dropWhile_suffix isSpace).length_le
  rw [_hskip] at hdrop
  omega

/-- The tokens of a text, unless some part of it is no token. -/
def tokens? (text : String) : Option (List Token) :=
  tokensFrom? [] text.toList

end LinkedPath.Json
