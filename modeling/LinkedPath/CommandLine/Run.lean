import LinkedPath.CommandLine.Arguments
import LinkedPath.CommandLine.Folder
import LinkedPath.Json.Reader
import LinkedPath.Json.Writer
import LinkedPath.Session.Workspace

/-!
# Carrying out a request

A request reads its document first and its context next, and its first fault is
the one that is reported.  The files and the input are given as functions and
texts, so that an answer is a value.
-/

namespace LinkedPath.CommandLine

/-- What a request can read. -/
structure Surroundings where
  files : String → Except ReadFault String
  input : Except ReadFault String

/-- The files of a folder in memory, and an input. -/
def Surroundings.ofFolder (folder : Folder) (input : String) : Surroundings :=
  { files := folder.read, input := .ok input }

/-- Why a request has no answer. -/
inductive Trouble
  | readingDocument (name : String) (fault : ReadFault)
  | readingInput (fault : ReadFault)
  | parsingDocument
  | readingContext (name : String) (fault : ReadFault)
  | parsingContext
  | parsingInlineContext
  | refused (fault : Fault)
  deriving DecidableEq, Repr

/-- The wording of a trouble. -/
def Trouble.message : Trouble → String
  | readingDocument name fault => "reading document '" ++ name ++ "': " ++ fault.message
  | readingInput fault => "reading document from stdin: " ++ fault.message
  | parsingDocument => "parsing document JSON"
  | readingContext name fault => "reading context '" ++ name ++ "': " ++ fault.message
  | parsingContext => "parsing context JSON"
  | parsingInlineContext => "parsing inline context JSON"
  | refused fault => fault.message

/-- Read a JSON text, or report why not. -/
def parse (trouble : Trouble) (text : String) : Except Trouble Json :=
  match Json.parse? text with
  | some value => .ok value
  | none => .error trouble

/-- Read the document, from a file or else from the input. -/
def readDocument (surroundings : Surroundings) : Option String → Except Trouble Json
  | some name => do
      let text ← (surroundings.files name).mapError (Trouble.readingDocument name)
      parse .parsingDocument text
  | none => do
      let text ← surroundings.input.mapError Trouble.readingInput
      parse .parsingDocument text

/-- The written context that a value stands for: the object under its context
keyword if there is one, and else the value. -/
def unwrapContext (value : Json) : Json :=
  match value.member? Keyword.context with
  | some (.object members) => .object members
  | _ => value

/-- The value in which a written context is looked for, if there is one. -/
def contextValue? (surroundings : Surroundings) (document? : Option Json) :
    ContextSource → Except Trouble (Option Json)
  | .document => .ok (document?.bind fun document => document.member? Keyword.context)
  | .file name => do
      let text ← (surroundings.files name).mapError (Trouble.readingContext name)
      some <$> parse .parsingContext text
  | .inline text => some <$> parse .parsingInlineContext text

/-- Read the context; without a source it is empty. -/
def readContext (surroundings : Surroundings) (document? : Option Json)
    (source : ContextSource) : Except Trouble Context := do
  match ← contextValue? surroundings document? source with
  | some value => (Context.ofJson (unwrapContext value)).mapError Trouble.refused
  | none => return .empty

/-- The written form of an answer, with a line end. -/
def print (pretty : Bool) (value : Json) : String :=
  (if pretty then value.pretty 0 else value.compact) ++ "\n"

/-- The value that answers a question about a document. -/
def ask (context : Context) (caching : Bool) (document : Json) (path : String) (all : Bool) :
    Json :=
  let (factory, workspace) := Workspace.empty.factory context caching
  let (handle, workspace) := workspace.bind factory document
  if all then
    .array (workspace.queryAll handle path).1.items
  else
    match (workspace.query handle path).1 with
    | some selection => selection.json
    | none => .null

/-- The file of a source. -/
def ContextSource.fileNames : ContextSource → List String
  | .file name => [name]
  | _ => []

/-- The files that a request reads. -/
def Request.fileNames : Request → List String
  | .query _ file? source _ _ _ => file?.toList ++ source.fileNames
  | .compile _ source _ => source.fileNames

/-- The request reads its document from the input. -/
def Request.readsInput : Request → Bool
  | .query _ file? _ _ _ _ => file?.isNone
  | .compile _ _ _ => false

/-- Carry out a request. -/
def Request.run (surroundings : Surroundings) : Request → Except Trouble String
  | .query path file? source all pretty caching => do
      let document ← readDocument surroundings file?
      let context ← readContext surroundings (some document) source
      return print pretty (ask context caching document path all)
  | .compile path source pretty => do
      let context ← readContext surroundings none source
      return print pretty (Compiled.compile context.expander path).toJson

/-- What the program leaves behind: its exit code, its output, and the line
that reports a trouble. -/
structure Answer where
  exitCode : UInt32
  output : String
  report? : Option String
  deriving DecidableEq, Repr

/-- The line that the program shows as its version. -/
def versionLine : String := "ld-query 0.2.0\n"

/-- The answer to the early end of the arguments. -/
def Stop.answer : Stop → Answer
  | help => { exitCode := 0, output := "", report? := none }
  | version => { exitCode := 0, output := versionLine, report? := none }
  | misuse _ => { exitCode := 2, output := "", report? := none }

/-- The answer to a request. -/
def Request.answer (surroundings : Surroundings) (request : Request) : Answer :=
  match request.run surroundings with
  | .ok output => { exitCode := 0, output, report? := none }
  | .error trouble =>
      { exitCode := 1, output := "", report? := some ("Error: " ++ trouble.message) }

/-- The answer to the arguments. -/
def answer (surroundings : Surroundings) (arguments : List String) : Answer :=
  match Request.ofArguments arguments with
  | .error stop => stop.answer
  | .ok request => request.answer surroundings

end LinkedPath.CommandLine
