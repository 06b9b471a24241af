import Criteria.Program

/-!
# The command

Reads the request file that the command line names, prints the query, and reports what is wrong on
the error output.
-/

namespace Criteria

/-- The variable of the environment that names a backend. -/
def backendVariable : String := "CRAF_BACKEND"

/-- The extension of the last part of a path. A name that only begins with a point has none. -/
def extensionOf (path : String) : String :=
  match ((path.splitOn "/").getLastD "").splitOn "." with
  | [] | [_] | ["", _] => ""
  | parts => parts.getLastD ""

/-- The names under which the file at a path is looked for, with their extensions: the path itself,
and the path with the extension of a format behind it. -/
def candidates (path : String) : List (String × String) :=
  (path, extensionOf path) ::
    ["json", "toml", "yaml", "yml"].map fun extension => (path ++ "." ++ extension, extension)

/-- The message that reports a failure. -/
def Program.Failure.message : Program.Failure → String
  | .usage e => e.name
  | .request => "the request file cannot be read"
  | .invalid e => e.message
  | .unwritable e => e.message

/-- The first of some files that can be read. -/
def readFirst : List (String × String) → IO (Option Request.File)
  | [] => return none
  | (name, extension) :: rest => do
    try
      return some ⟨extension, ← IO.FS.readFile name⟩
    catch _ => readFirst rest

/-- The file at the path that the arguments name. -/
def readFiles (environment : Option String) (args : List String) :
    IO (String → Option Request.File) := do
  match CommandLine.parse environment args with
  | .ok { request := some path, .. } =>
    let file ← readFirst (candidates path)
    return fun p => if p = path then file else none
  | _ => return fun _ => none

end Criteria

def main (args : List String) : IO UInt32 := do
  let environment ← IO.getEnv Criteria.backendVariable
  let files ← Criteria.readFiles environment args
  match Criteria.Program.run environment files args with
  | .ok outcome =>
    IO.print outcome.text
    return 0
  | .error failure =>
    IO.eprintln failure.message
    return 1
