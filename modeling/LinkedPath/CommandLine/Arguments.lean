/-!
# Command line arguments

Arguments are read from left to right, and the first one that cannot be used
ends the reading; so does an option that asks for help or for the version.
What a command is given as a whole, such as its missing path, is looked at when
all its arguments have been read.
-/

namespace LinkedPath.CommandLine

/-- A reason why the arguments are refused. -/
inductive Misuse
  | missingCommand
  | unknownCommand (text : String)
  | unknownOption (text : String)
  | missingValue
  | unexpectedValue (text : String)
  | repeated
  | extraOperand (text : String)
  | missingPath
  /-- Two sources of a context exclude each other. -/
  | twoContexts
  deriving DecidableEq, Repr

/-- What ends the reading of arguments early. -/
inductive Stop
  | help
  | version
  | misuse (reason : Misuse)
  deriving DecidableEq, Repr

/-- The shape of an argument. -/
inductive Argument
  /-- Only operands follow. -/
  | ends
  /-- An option with a long name, and the value behind its equals sign. -/
  | long (name : String) (value? : Option String)
  /-- Options of one letter, the last of which may be followed by its value. -/
  | short (letters : List Char)
  | operand (text : String)
  deriving DecidableEq, Repr

namespace Argument

/-- The long option of the characters behind two dashes. -/
def longOf (text : List Char) : Argument :=
  let (name, rest) := text.span (· != '=')
  match rest with
  | [] => long (String.ofList name) none
  | _ :: value => long (String.ofList name) (some (String.ofList value))

/-- The shape of an argument.  A single dash is an operand. -/
def ofText (text : String) : Argument :=
  match text.toList with
  | ['-', '-'] => ends
  | '-' :: '-' :: rest => longOf rest
  | ['-'] => operand text
  | '-' :: letters => short letters
  | _ => operand text

/-- The argument is no value of the option before it. -/
def isDashed : Argument → Bool
  | operand _ => false
  | _ => true

end Argument

/-- An option without a value that may be given once. -/
inductive Flag
  | all
  | pretty
  | noCache
  deriving DecidableEq, Repr

/-- An option with a value. -/
inductive Setting
  | file
  | context
  | contextJson
  deriving DecidableEq, Repr

/-- What an option means. -/
inductive Meaning
  | flag (flag : Flag)
  | setting (setting : Setting)
  | verbose
  | version
  | help
  deriving DecidableEq, Repr

/-- The place of an option: before the command or behind one of them. -/
inductive Scope
  | top
  | query
  | compile
  deriving DecidableEq, Repr

namespace Scope

/-- The meaning of a long name. -/
def long? : Scope → String → Option Meaning
  | _, "help" => some .help
  | _, "verbose" => some .verbose
  | .top, "version" => some .version
  | .query, "file" => some (.setting .file)
  | .query, "all" => some (.flag .all)
  | .query, "no-cache" => some (.flag .noCache)
  | .query, "context" | .compile, "context" => some (.setting .context)
  | .query, "context-json" | .compile, "context-json" => some (.setting .contextJson)
  | .query, "pretty" | .compile, "pretty" => some (.flag .pretty)
  | _, _ => none

/-- The meaning of a letter. -/
def short? : Scope → Char → Option Meaning
  | _, 'h' => some .help
  | _, 'v' => some .verbose
  | .top, 'V' => some .version
  | .query, 'f' => some (.setting .file)
  | .query, 'a' => some (.flag .all)
  | .query, 'c' | .compile, 'c' => some (.setting .context)
  | .query, 'p' | .compile, 'p' => some (.flag .pretty)
  | _, _ => none

end Scope

/-- What has been read of the arguments of a command. -/
structure Gathered where
  path? : Option String
  settings : List (Setting × String)
  flags : List Flag
  deriving DecidableEq, Repr

namespace Gathered

/-- Before the first argument. -/
def empty : Gathered := { path? := none, settings := [], flags := [] }

/-- Take up the path; there is only one. -/
def operand (gathered : Gathered) (text : String) : Except Stop Gathered :=
  match gathered.path? with
  | none => .ok { gathered with path? := some text }
  | some _ => .error (.misuse (.extraOperand text))

/-- Take up the value of an option; it is given once. -/
def withSetting (gathered : Gathered) (setting : Setting) (value : String) :
    Except Stop Gathered :=
  match gathered.settings.lookup setting with
  | none => .ok { gathered with settings := (setting, value) :: gathered.settings }
  | some _ => .error (.misuse .repeated)

/-- Take up an option that has no value. -/
def withSwitch (gathered : Gathered) : Meaning → Except Stop Gathered
  | .flag flag =>
      if gathered.flags.contains flag then
        .error (.misuse .repeated)
      else
        .ok { gathered with flags := flag :: gathered.flags }
  | .verbose | .setting _ => .ok gathered
  | .version => .error .version
  | .help => .error .help

/-- Take up options of one letter.  The result may have an option whose value
is the next argument. -/
def letters (scope : Scope) (gathered : Gathered) :
    List Char → Except Stop (Gathered × Option Setting)
  | [] => .ok (gathered, none)
  | letter :: rest =>
      match scope.short? letter with
      | none => .error (.misuse (.unknownOption (String.singleton letter)))
      | some (.setting setting) =>
          match rest with
          | [] => .ok (gathered, some setting)
          | '=' :: value => (·, none) <$> gathered.withSetting setting (String.ofList value)
          | value => (·, none) <$> gathered.withSetting setting (String.ofList value)
      | some meaning => do letters scope (← gathered.withSwitch meaning) rest

/-- Take up an argument.  The result may have an option whose value is the next
argument. -/
def take (scope : Scope) (gathered : Gathered) :
    Argument → Except Stop (Gathered × Option Setting)
  | .ends => .ok (gathered, none)
  | .operand text => (·, none) <$> gathered.operand text
  | .short text => gathered.letters scope text
  | .long name value? =>
      match scope.long? name, value? with
      | none, _ => .error (.misuse (.unknownOption name))
      | some (.setting setting), some value => (·, none) <$> gathered.withSetting setting value
      | some (.setting setting), none => .ok (gathered, some setting)
      | some _, some value => .error (.misuse (.unexpectedValue value))
      | some meaning, none => (·, none) <$> gathered.withSwitch meaning

/-- Read the arguments of a command.  An option may wait for its value. -/
def read (scope : Scope) (gathered : Gathered) :
    Option Setting → List String → Except Stop Gathered
  | none, [] => .ok gathered
  | some _, [] => .error (.misuse .missingValue)
  | some setting, text :: rest => do
      if (Argument.ofText text).isDashed then
        throw (.misuse .missingValue)
      read scope (← gathered.withSetting setting text) none rest
  | none, text :: rest =>
      match Argument.ofText text with
      | .ends => rest.foldlM operand gathered
      | argument => do
          let (gathered, waiting?) ← gathered.take scope argument
          read scope gathered waiting? rest

end Gathered

/-- Where a context comes from. -/
inductive ContextSource
  /-- The document of the question, if it holds one. -/
  | document
  | file (name : String)
  | inline (text : String)
  deriving DecidableEq, Repr

/-- What the command line asks for. -/
inductive Request
  /-- Ask a selector about a document, from a file or else from the input. -/
  | query (path : String) (file? : Option String) (source : ContextSource)
      (all pretty caching : Bool)
  /-- Show the compiled form of a selector. -/
  | compile (path : String) (source : ContextSource) (pretty : Bool)
  deriving DecidableEq, Repr

namespace Gathered

/-- The source of the context; only one may be given. -/
def contextSource (gathered : Gathered) : Except Stop ContextSource :=
  match gathered.settings.lookup .context, gathered.settings.lookup .contextJson with
  | none, none => .ok .document
  | some name, none => .ok (.file name)
  | none, some text => .ok (.inline text)
  | some _, some _ => .error (.misuse .twoContexts)

/-- The path, which has to be given. -/
def path (gathered : Gathered) : Except Stop String :=
  match gathered.path? with
  | some path => .ok path
  | none => .error (.misuse .missingPath)

end Gathered

namespace Request

/-- Read the arguments of the query command. -/
def ofQueryArguments (arguments : List String) : Except Stop Request := do
  let gathered ← Gathered.empty.read .query none arguments
  let has := gathered.flags.contains
  return .query (← gathered.path) (gathered.settings.lookup .file) (← gathered.contextSource)
    (has .all) (has .pretty) (!has .noCache)

/-- Read the arguments of the compile command. -/
def ofCompileArguments (arguments : List String) : Except Stop Request := do
  let gathered ← Gathered.empty.read .compile none arguments
  return .compile (← gathered.path) (← gathered.contextSource) (gathered.flags.contains .pretty)

/-- There is help on one command, and on the program when none is named. -/
def helpOn : List String → Stop
  | [] | ["query"] | ["compile"] | ["help"] => .help
  | text :: _ => .misuse (.unknownCommand text)

/-- Read all arguments: options of the program, then a command and its
arguments. -/
def ofArguments : List String → Except Stop Request
  | [] => .error (.misuse .missingCommand)
  | text :: rest =>
      match Argument.ofText text with
      | .ends => .error (.misuse .missingCommand)
      | .operand "query" => ofQueryArguments rest
      | .operand "compile" => ofCompileArguments rest
      | .operand "help" => .error (helpOn rest)
      | .operand _ => .error (.misuse (.unknownCommand text))
      | argument => do
          let _ ← Gathered.empty.take .top argument
          ofArguments rest

end Request

end LinkedPath.CommandLine
