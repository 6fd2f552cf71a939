import LinkedPath.Json.Token

/-!
# Reading a document

The tokens of a text are assembled by a machine that keeps the containers that
are still open on a stack, innermost first.  The number of open containers is
bounded.  A key that an object repeats keeps its first place and takes its
last value.
-/

namespace LinkedPath.Json

/-- A container that is still open. -/
inductive Frame
  /-- The items of an array so far, last one first. -/
  | items (done : List Json)
  /-- The members of an object so far and the key that awaits its value. -/
  | members (done : List (String × Json)) (key : String)

/-- What may come next. -/
inductive Expected
  /-- A value. -/
  | value
  /-- The first item of an array that has just been opened, or its end. -/
  | firstItem
  /-- The first key of an object that has just been opened, or its end. -/
  | firstKey
  /-- A key, given the members so far. -/
  | key (done : List (String × Json))
  /-- The colon behind the key of the innermost object. -/
  | colon
  /-- Whatever follows a complete value. -/
  | after (value : Json)

/-- The state of the machine: open containers, innermost first, and what may
come next. -/
structure Reading where
  frames : List Frame
  expected : Expected

/-- Before the first token. -/
def Reading.start : Reading := { frames := [], expected := .value }

/-- Open an array, unless too many containers are open already. -/
def Reading.openArray? (limit : Nat) (frames : List Frame) : Option Reading :=
  if frames.length < limit then
    some { frames := .items [] :: frames, expected := .firstItem }
  else
    none

/-- Open an object, unless too many containers are open already. -/
def Reading.openObject? (limit : Nat) (frames : List Frame) : Option Reading :=
  if frames.length < limit then
    some { frames, expected := .firstKey }
  else
    none

/-- A token where a value is expected. -/
def Reading.value? (limit : Nat) (frames : List Frame) : Token → Option Reading
  | .scalar value => some { frames, expected := .after value }
  | .text value => some { frames, expected := .after (string value) }
  | .openArray => openArray? limit frames
  | .openObject => openObject? limit frames
  | _ => none

/-- A token behind a complete value. -/
def Reading.after? (value : Json) : List Frame → Token → Option Reading
  | .items done :: frames, .comma =>
      some { frames := .items (value :: done) :: frames, expected := .value }
  | .items done :: frames, .closeArray =>
      some { frames, expected := .after (array (value :: done).reverse) }
  | .members done key :: frames, .comma =>
      some { frames, expected := .key (Keyed.put key value done) }
  | .members done key :: frames, .closeObject =>
      some { frames, expected := .after (object (Keyed.put key value done)) }
  | _, _ => none

/-- One step of the machine. -/
def Reading.step? (limit : Nat) (reading : Reading) (token : Token) : Option Reading :=
  match reading.expected, token with
  | .value, token => value? limit reading.frames token
  | .firstItem, .closeArray =>
      some { frames := reading.frames.tail, expected := .after (array []) }
  | .firstItem, token => value? limit reading.frames token
  | .firstKey, .closeObject =>
      some { reading with expected := .after (object []) }
  | .firstKey, .text key =>
      some { frames := .members [] key :: reading.frames, expected := .colon }
  | .key done, .text key =>
      some { frames := .members done key :: reading.frames, expected := .colon }
  | .colon, .colon => some { reading with expected := .value }
  | .after value, token => after? value reading.frames token
  | _, _ => none

/-- The value that has been read when nothing is left open. -/
def Reading.result? (reading : Reading) : Option Json :=
  match reading.frames, reading.expected with
  | [], .after value => some value
  | _, _ => none

/-- Run the machine over all tokens. -/
def Reading.run? (limit : Nat) (reading : Reading) : List Token → Option Json
  | [] => reading.result?
  | token :: rest =>
      match reading.step? limit token with
      | none => none
      | some next => next.run? limit rest

/-- The value written by a text with at most `limit` open containers. -/
def read? (limit : Nat) (text : String) : Option Json :=
  (tokens? text).bind (Reading.start.run? limit)

/-- The number of containers that may be open in a document. -/
def maxOpen : Nat := 127

/-- The document written by a text. -/
def parse? (text : String) : Option Json :=
  read? maxOpen text

end LinkedPath.Json
