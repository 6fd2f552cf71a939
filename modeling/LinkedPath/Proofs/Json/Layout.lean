import LinkedPath.Json.Writer

/-!
# Layouts of written lists

A value is written in one of two layouts (`written`), and a list is written
from the texts of its items alone (`written_array`): side by side without
blanks, or each on lines of its own that are indented by two more blanks.

For the layout with lines this needs that a value, written one level deeper, is
its text with every line indented (`pretty_succ`).  Line ends are where the
layout put them, because words, numbers and strings are written on one line.
-/

namespace LinkedPath

/-- The text has no line end. -/
def OneLine (text : List Char) : Prop := '\n' ∉ text

instance (text : List Char) : Decidable (OneLine text) :=
  inferInstanceAs (Decidable ('\n' ∉ text))

namespace OneLine

variable {text part before behind : List Char}

theorem cons {c : Char} (hc : c ≠ '\n') (h : OneLine text) : OneLine (c :: text) := by
  simpa [OneLine] using ⟨hc.symm, h⟩

theorem append (hbefore : OneLine before) (hbehind : OneLine behind) :
    OneLine (before ++ behind) := by
  simpa [OneLine] using ⟨hbefore, hbehind⟩

theorem of_subset (h : OneLine text) (hpart : part ⊆ text) : OneLine part :=
  fun hmem => h (hpart hmem)

theorem replicate {c : Char} (hc : c ≠ '\n') (n : Nat) : OneLine (List.replicate n c) :=
  fun hmem => hc (List.eq_of_mem_replicate hmem).symm

end OneLine

/-! ## Numbers -/

namespace Decimal

theorem oneLine_digits (n : Nat) : OneLine (toString n).toList := by
  rw [Nat.toString_eq_ofList_toDigits, String.toList_ofList]
  intro hmem
  exact absurd (Nat.isDigit_of_mem_toDigits (by decide) (by decide) hmem) (by decide)

theorem oneLine_positional {digits : List Char} (h : OneLine digits) (exponent : Int) :
    OneLine (positional digits exponent) := by
  have hzeros (n : Nat) : OneLine (List.replicate n '0') := .replicate (by decide) n
  unfold positional
  split
  · exact (h.append (hzeros _)).append (by decide)
  · simp only
    split
    · exact (h.of_subset (List.take_subset _ _)).append
        (.cons (by decide) (h.of_subset (List.drop_subset _ _)))
    · exact .cons (by decide) (.cons (by decide) ((hzeros _).append h))

theorem oneLine_scientific {digits : List Char} (h : OneLine digits) (power : Int) :
    OneLine (scientific digits power) := by
  have hsign : (if power < 0 then '-' else '+') ≠ '\n' := by
    split <;> decide
  have hpower : OneLine ('e' :: (if power < 0 then '-' else '+') ::
      (toString power.natAbs).toList) :=
    .cons (by decide) (.cons hsign (oneLine_digits _))
  unfold scientific
  refine OneLine.append ?_ hpower
  -- Only a mantissa with several digits has a point.
  match digits, h with
  | [], h => exact h
  | [_], h => exact h
  | first :: second :: more, h =>
      have hfirst : first ≠ '\n' := fun heq => h (by simp [heq])
      exact .cons hfirst (.cons (by decide) (h.of_subset (List.subset_cons_self _ _)))

theorem oneLine_floatText (layout : Layout) (x : Float) :
    OneLine (floatText layout x).toList := by
  have hsize : OneLine (if (Binary.ofFloat x).mantissa = 0 then ['0', '.', '0']
      else (shortest (Binary.ofFloat x)).text layout) := by
    split
    · decide
    · unfold Scientific.text
      simp only
      split
      · exact oneLine_positional (oneLine_digits _) _
      · exact oneLine_scientific (oneLine_digits _) _
  unfold floatText
  rw [String.toList_ofList]
  split
  · exact .cons (by decide) hsize
  · exact hsize

end Decimal

theorem Number.oneLine_text (value : Number) : OneLine value.text.toList := by
  cases value with
  | integer value =>
      cases value with
      | ofNat n => exact Decimal.oneLine_digits n
      | negSucc n =>
          have htext : (Number.integer (.negSucc n)).text = "-" ++ toString (n + 1) := rfl
          rw [htext, String.toList_append]
          exact OneLine.append (by decide) (Decimal.oneLine_digits _)
  | real value => exact Decimal.oneLine_floatText layout value

namespace Json

/-! ## Strings -/

theorem hexDigit_ne_lineEnd {n : Nat} (h : n < 16) : hexDigit n ≠ '\n' := by
  revert n
  decide

/-- A line end is written as an escape, and so are the other control
characters. -/
theorem oneLine_escapeChar (c : Char) : OneLine (escapeChar c) := by
  by_cases hline : c = '\n'
  · subst hline
    decide
  unfold escapeChar
  repeat (split; · decide)
  split
  · rename_i hcontrol
    have hlow : c.toNat < 32 := hcontrol
    have hfirst := hexDigit_ne_lineEnd (n := c.toNat / 16) (by omega)
    have hlast := hexDigit_ne_lineEnd (n := c.toNat % 16) (by omega)
    have hescape : OneLine ['\\', 'u', '0', '0'] := by decide
    exact hescape.append (.cons hfirst (.cons hlast (by decide)))
  · exact .cons hline (by decide)

theorem oneLine_quote (text : String) : OneLine (quote text).toList := by
  have hbody : OneLine (text.toList.flatMap escapeChar) := by
    intro hmem
    obtain ⟨c, -, hc⟩ := List.mem_flatMap.mp hmem
    exact oneLine_escapeChar c hc
  have hquotes : OneLine "\x22".toList := by decide
  have htext : (quote text).toList =
      "\x22".toList ++ text.toList.flatMap escapeChar ++ "\x22".toList := by
    simp [quote]
  rw [htext]
  exact (hquotes.append hbody).append hquotes

/-! ## Lines -/

/-- A character in a text whose lines are indented. -/
def indentedChar (c : Char) : List Char :=
  if c = '\n' then ['\n', ' ', ' '] else [c]

/-- The text with every line but the first one indented by two blanks. -/
def indented (text : String) : String :=
  String.ofList (text.toList.flatMap indentedChar)

theorem indented_append (before behind : String) :
    indented (before ++ behind) = indented before ++ indented behind := by
  simp [indented]

theorem flatMap_indentedChar {text : List Char} (h : OneLine text) :
    text.flatMap indentedChar = text := by
  induction text with
  | nil => rfl
  | cons c rest ih =>
      have hc : indentedChar c = [c] := if_neg fun heq => h (by simp [heq])
      rw [List.flatMap_cons, hc, ih (h.of_subset (List.subset_cons_self _ _))]
      rfl

theorem indented_of_oneLine {text : String} (h : OneLine text.toList) : indented text = text := by
  rw [indented, flatMap_indentedChar h, String.ofList_toList]

theorem indented_quote (text : String) : indented (quote text) = quote text :=
  indented_of_oneLine (oneLine_quote text)

theorem indented_newLine (level : Nat) : indented (newLine level) = newLine (level + 1) := by
  have hblanks : OneLine (List.replicate (2 * level) ' ') := .replicate (by decide) _
  rw [indented, newLine, String.toList_ofList, List.flatMap_cons, flatMap_indentedChar hblanks]
  rfl

mutual

/-- A value one level deeper is its text with the lines indented. -/
theorem pretty_succ (level : Nat) : ∀ value : Json,
    value.pretty (level + 1) = indented (value.pretty level)
  | null | array [] | object [] | bool true | bool false => by
      simp (disch := decide) [pretty, indented_of_oneLine]
  | number value => by
      rw [pretty, pretty, indented_of_oneLine value.oneLine_text]
  | string value => by
      rw [pretty, pretty, indented_quote]
  | array (item :: rest) => by
      simp (disch := decide) only [pretty, indented_append, indented_newLine,
        pretty_succ (level + 1) item, prettyItems_succ (level + 1) rest, indented_of_oneLine]
  | object ((key, value) :: rest) => by
      simp (disch := decide) only [pretty, indented_append, indented_newLine, indented_quote,
        pretty_succ (level + 1) value, prettyMembers_succ (level + 1) rest, indented_of_oneLine]

theorem prettyItems_succ (level : Nat) : ∀ items : List Json,
    prettyItems (level + 1) items = indented (prettyItems level items)
  | [] => rfl
  | item :: rest => by
      simp (disch := decide) only [prettyItems, indented_append, indented_newLine,
        pretty_succ level item, prettyItems_succ level rest, indented_of_oneLine]

theorem prettyMembers_succ (level : Nat) : ∀ members : List (String × Json),
    prettyMembers (level + 1) members = indented (prettyMembers level members)
  | [] => rfl
  | (key, value) :: rest => by
      simp (disch := decide) only [prettyMembers, indented_append, indented_newLine,
        indented_quote, pretty_succ level value, prettyMembers_succ level rest,
        indented_of_oneLine]

end

/-! ## Lists -/

/-- The text of a value in one of the two layouts. -/
def written (pretty : Bool) (value : Json) : String :=
  if pretty then value.pretty 0 else value.compact

/-- The text of a list whose items have these texts: side by side, or each on
lines of its own. -/
def listed (pretty : Bool) (texts : List String) : String :=
  match texts with
  | [] => "[]"
  | _ =>
      if pretty then
        "[\n  " ++ ",\n  ".intercalate (texts.map indented) ++ "\n]"
      else
        "[" ++ ",".intercalate texts ++ "]"

theorem compact_append_compactItems (item : Json) (rest : List Json) :
    item.compact ++ compactItems rest = ",".intercalate ((item :: rest).map compact) := by
  induction rest generalizing item with
  | nil => simp [compactItems]
  | cons next rest ih =>
      calc item.compact ++ compactItems (next :: rest)
          = item.compact ++ "," ++ (next.compact ++ compactItems rest) := by
            simp only [compactItems, String.append_assoc]
        _ = item.compact ++ "," ++ ",".intercalate ((next :: rest).map compact) := by
            rw [ih]
        _ = ",".intercalate ((item :: next :: rest).map compact) :=
            String.intercalate_cons_cons.symm

theorem pretty_append_prettyItems (item : Json) (rest : List Json) :
    item.pretty 1 ++ prettyItems 1 rest =
      ",\n  ".intercalate ((item :: rest).map fun value => indented (value.pretty 0)) := by
  induction rest generalizing item with
  | nil => simp [prettyItems, pretty_succ]
  | cons next rest ih =>
      have hcomma : "," ++ newLine 1 = ",\n  " := rfl
      calc item.pretty 1 ++ prettyItems 1 (next :: rest)
          = item.pretty 1 ++ ("," ++ newLine 1) ++ (next.pretty 1 ++ prettyItems 1 rest) := by
            simp only [prettyItems, String.append_assoc]
        _ = indented (item.pretty 0) ++ ",\n  " ++
              ",\n  ".intercalate ((next :: rest).map fun value => indented (value.pretty 0)) := by
            rw [ih, hcomma, pretty_succ]
        _ = ",\n  ".intercalate
              ((item :: next :: rest).map fun value => indented (value.pretty 0)) :=
            String.intercalate_cons_cons.symm

/-- A list is written from the texts of its items alone. -/
theorem written_array (pretty : Bool) (items : List Json) :
    written pretty (.array items) = listed pretty (items.map (written pretty)) := by
  cases items with
  | nil => cases pretty <;> rfl
  | cons item rest =>
      cases pretty with
      | false =>
          calc (Json.array (item :: rest)).compact
              = "[" ++ (item.compact ++ compactItems rest) ++ "]" := by
                simp only [compact, String.append_assoc]
            _ = listed false ((item :: rest).map (written false)) := by
                rw [compact_append_compactItems]
                rfl
      | true =>
          have hopen : "[" ++ newLine 1 = "[\n  " := rfl
          have hclose : newLine 0 ++ "]" = "\n]" := rfl
          calc (Json.array (item :: rest)).pretty 0
              = ("[" ++ newLine 1) ++ (item.pretty 1 ++ prettyItems 1 rest) ++
                  (newLine 0 ++ "]") := by
                simp only [Json.pretty, String.append_assoc]
            _ = listed true ((item :: rest).map (written true)) := by
                rw [pretty_append_prettyItems, hopen, hclose]
                simp [listed, written, Function.comp_def]

/-- Two lines are indented, and only where the layout ended them. -/
example : listed true [written true (.array [.string "a\nb"]), "null"] =
    "[\n  [\n    \"a\\nb\"\n  ],\n  null\n]" := by
  decide +kernel

end Json

end LinkedPath
