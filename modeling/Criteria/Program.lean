import Criteria.Request

/-!
# The program

From a command line, with the files that it names, to the text of a query: what the command line
gives overrides what the request file gives, parameter by parameter.
-/

namespace Criteria.CommandLine

/-! ## Command lines

The options of a command line. An option takes one value, behind an equals sign or as the next
argument, and may be given once; a value is checked when the next option begins. Flags take no
value. Short names can be run together, and the value of an option may end such a run. The backend
may also come from the environment. -/

/-- The forms in which a document query is written. -/
inductive Format where
  | json
  | yaml
deriving Repr, DecidableEq

def Format.ofName? (s : String) : Option Format :=
  if s = "json" then some .json else if s = "yaml" then some .yaml else none

/-- The options, which take a value. -/
inductive Setting where
  | backend
  | request
  | output
  | parameter (p : Parameter)
deriving Repr, DecidableEq

/-- The flags, which take no value. -/
inductive Flag where
  | verbose
  | help
  | version
deriving Repr, DecidableEq

/-- Why a command line is not carried out. -/
inductive UsageError where
  | unknownArgument
  | invalidValue
  | argumentConflict
  | tooManyValues
  | displayHelp
  | displayVersion
deriving Repr, DecidableEq

/-- The name of the kind of error. -/
def UsageError.name : UsageError → String
  | .unknownArgument => "UnknownArgument"
  | .invalidValue => "InvalidValue"
  | .argumentConflict => "ArgumentConflict"
  | .tooManyValues => "TooManyValues"
  | .displayHelp => "DisplayHelp"
  | .displayVersion => "DisplayVersion"

/-- An option or a flag. -/
inductive Switch where
  | setting (o : Setting)
  | flag (f : Flag)
deriving Repr, DecidableEq

/-- The switch with a long name. -/
def ofLongName? (name : String) : Option Switch :=
  match name with
  | "backend" => some (.setting .backend)
  | "request" => some (.setting .request)
  | "output" => some (.setting .output)
  | "filter" => some (.setting (.parameter .filter))
  | "sort" => some (.setting (.parameter .sort))
  | "skip" => some (.setting (.parameter .skip))
  | "limit" => some (.setting (.parameter .limit))
  | "fields" => some (.setting (.parameter .fields))
  | "default-operator" => some (.setting (.parameter .defaultOperator))
  | "verbose" => some (.flag .verbose)
  | "help" => some (.flag .help)
  | "version" => some (.flag .version)
  | _ => none

/-- The switch with a short name. -/
def ofShortName? (name : Char) : Option Switch :=
  match name with
  | 'b' => some (.setting .backend)
  | 'r' => some (.setting .request)
  | 'o' => some (.setting .output)
  | 'v' => some (.flag .verbose)
  | 'h' => some (.flag .help)
  | 'V' => some (.flag .version)
  | _ => none

/-- These options take the next argument as their value even if it looks like a switch. -/
def Setting.takesHyphens : Setting → Bool
  | .parameter .filter | .parameter .skip | .parameter .limit => true
  | _ => false

/-- What a command line asks for. -/
structure Arguments where
  backend : Option Backend := none
  request : Option String := none
  output : Option Format := none
  verbose : Bool := false
  /-- The parameters that are given, in order. -/
  parameters : List (Parameter × String) := []

namespace Arguments

/-- A first value for something that may be given once. -/
def once {α : Type} (old : Option α) (new : Option α) : Except UsageError (Option α) :=
  match old, new with
  | some _, _ => .error .argumentConflict
  | none, none => .error .invalidValue
  | none, some a => .ok (some a)

/-- Records the value of an option. -/
def setValue (a : Arguments) (o : Setting) (value : String) : Except UsageError Arguments :=
  match o with
  | .backend => (once a.backend (Backend.ofName? value)).map fun b => { a with backend := b }
  | .request =>
    (once a.request (if value = "" then none else some value)).map fun r => { a with request := r }
  | .output => (once a.output (Format.ofName? value)).map fun f => { a with output := f }
  | .parameter p =>
    if a.parameters.any (·.1 = p) then .error .argumentConflict
    else .ok { a with parameters := a.parameters ++ [(p, value)] }

/-- Records the value of an option that must have got one. -/
def set (a : Arguments) (o : Setting) (value : Option String) : Except UsageError Arguments :=
  match value with
  | none => .error .invalidValue
  | some v => a.setValue o v

/-- Records a flag; asking for help or the version ends everything. -/
def raise (a : Arguments) (f : Flag) : Except UsageError Arguments :=
  match f with
  | .help => .error .displayHelp
  | .version => .error .displayVersion
  | .verbose => if a.verbose then .error .argumentConflict else .ok { a with verbose := true }

/-- Takes the backend from the environment unless it is given. -/
def withEnvironment (a : Arguments) (backend : Option String) : Except UsageError Arguments :=
  match a.backend, backend with
  | none, some name => a.setValue .backend name
  | _, _ => .ok a

end Arguments

/-- How far a command line has been read: what has been recorded, and the last option with its
value, which are still to be recorded. -/
structure State where
  given : Arguments
  pending : Option (Setting × Option String)

namespace State

/-- Records the last option. -/
def settle (s : State) : Except UsageError Arguments :=
  match s.pending with
  | none => .ok s.given
  | some (o, value) => s.given.set o value

/-- The option that waits for its value. -/
def waiting? (s : State) : Option Setting :=
  match s.pending with
  | some (o, none) => some o
  | _ => none

/-- Reads a switch by its long name, with the value behind an equals sign. -/
def readLong (s : State) (name : String) (value : Option String) : Except UsageError State :=
  match ofLongName? name, value with
  | none, _ => .error .unknownArgument
  | some (.flag _), some _ => .error .tooManyValues
  | some (.flag f), none => do return ⟨← (← s.settle).raise f, none⟩
  | some (.setting o), some v => do return ⟨← (← s.settle).setValue o v, none⟩
  | some (.setting o), none => do return ⟨← s.settle, some (o, none)⟩

/-- Reads switches by their short names. What follows the name of an option is its value. -/
def readShort (s : State) : List Char → Except UsageError State
  | [] => .ok s
  | c :: rest =>
    match ofShortName? c with
    | none => .error .unknownArgument
    | some (.flag f) => do
      let given ← (← s.settle).raise f
      readShort ⟨given, none⟩ rest
    | some (.setting o) => do
      let given ← s.settle
      match rest with
      | [] => return ⟨given, some (o, none)⟩
      | '=' :: value => return ⟨← given.setValue o (String.ofList value), none⟩
      | value => return ⟨← given.setValue o (String.ofList value), none⟩

end State

/-- What an argument looks like. -/
inductive Shape where
  /-- A double hyphen, after which there are no switches. -/
  | escape
  | long (name : String) (value : Option String)
  | short (names : List Char)
  | plain
deriving Repr, DecidableEq

/-- The shape of an argument. A single hyphen is no switch. -/
def shape (arg : String) : Shape :=
  match arg.toList with
  | ['-', '-'] => .escape
  | '-' :: '-' :: rest =>
    let name := String.ofList (rest.takeWhile (· ≠ '='))
    match rest.dropWhile (· ≠ '=') with
    | [] => .long name none
    | _ :: value => .long name (some (String.ofList value))
  | '-' :: c :: rest => .short (c :: rest)
  | _ => .plain

namespace State

/-- Takes an argument that is no switch: it is the value of the option that waits for one. -/
def take (s : State) (arg : String) : Except UsageError State :=
  match s.waiting? with
  | some o => .ok { s with pending := some (o, some arg) }
  | none => .error .unknownArgument

/-- Reads all arguments. -/
def readAll (s : State) : List String → Except UsageError Arguments
  | [] => s.settle
  | arg :: rest =>
    if (s.waiting?.map Setting.takesHyphens).getD false then
      do readAll (← s.take arg) rest
    else
      match shape arg with
      | .escape => if rest.isEmpty then s.settle else .error .unknownArgument
      | .long name value => do readAll (← s.readLong name value) rest
      | .short names => do readAll (← s.readShort names) rest
      | .plain => do readAll (← s.take arg) rest

end State

/-- What the arguments and the environment ask for. -/
def parse (environment : Option String) (args : List String) : Except UsageError Arguments := do
  let given ← State.readAll ⟨{}, none⟩ args
  given.withEnvironment environment

end Criteria.CommandLine

/-! ## Runs -/

namespace Criteria.Program

open Criteria.CommandLine

/-- Why there is no text. -/
inductive Failure where
  | usage (error : UsageError)
  /-- The request file is missing or holds no request. -/
  | request
  | invalid (error : InvalidParameter)
  | unwritable (error : Instant.FormatError)
deriving Repr, DecidableEq

/-- The backend and the parameters that a request and a command line ask for together. -/
def collect (request : Request) (arguments : Arguments) : Backend × Params :=
  ((arguments.backend.or request.backend).getD .fallback,
    request.params.merge (Params.ofList (arguments.parameters.map fun a => (a.1.name, a.2))))

/-- The text of a query: a query string, or a document in the given format. -/
def text (format : Format) : Query → Except Instant.FormatError String
  | .search q => .ok (q.text ++ "\n")
  | .document q =>
    match format with
    | .json => q.toDatum.map fun d => Json.write .indented d ++ "\n"
    | .yaml => q.toDatum.map Yaml.write

/-- What a command line amounts to. -/
structure Outcome where
  backend : Backend
  params : Params
  verbose : Bool
  text : String

/-- The request file that a command line names, if it names one. -/
def request (files : String → Option Request.File) (arguments : Arguments) :
    Except Failure Request :=
  match arguments.request with
  | none => .ok Request.empty
  | some path =>
    match (files path).bind Request.ofFile? with
    | some r => .ok r
    | none => .error .request

/-- Carries out what has been read from a command line. -/
def carryOut (files : String → Option Request.File) (arguments : Arguments) :
    Except Failure Outcome := do
  let request ← request files arguments
  let (backend, params) := collect request arguments
  let query ← (Query.ofParams backend params).1.mapError .invalid
  let text ← (text (arguments.output.getD .json) query).mapError .unwritable
  return { backend, params, verbose := arguments.verbose, text }

/-- Carries out a command line, with the backend that the environment names. -/
def run (environment : Option String) (files : String → Option Request.File)
    (args : List String) : Except Failure Outcome := do
  carryOut files (← (parse environment args).mapError .usage)

end Criteria.Program
