import BaseLang.Command

/-
  The command line: reading the arguments and the files, and running the command.
-/

namespace BaseLang.CommandLine

/-- What the arguments read so far ask for. -/
structure Arguments where
  file? : Option String
  output? : Option String
  context : Bool

/-- With the source file named, which is done once. -/
def Arguments.withFile (a : Arguments) (path : String) : Option Arguments :=
  if a.file?.isSome || path = "" then none else some { a with file? := some path }

/-- With the output file named, which is done at most once. -/
def Arguments.withOutput (a : Arguments) (path : String) : Option Arguments :=
  if a.output?.isSome || path = "" then none else some { a with output? := some path }

/-- With the lines of the source asked for, which is done at most once. -/
def Arguments.withContext (a : Arguments) : Option Arguments :=
  if a.context then none else some { a with context := true }

/-- Whether an argument is an option. A dash alone is the name of a file. -/
def isOption (arg : String) : Bool := arg.startsWith "-" && arg != "-"

/-- The output file that is named in the same argument as its option. -/
def attached? (arg : String) : Option String :=
  if arg.startsWith "--output=" then some (arg.drop 9).toString
  else if arg.startsWith "-o=" then some (arg.drop 3).toString
  else if arg.startsWith "-o" then some (arg.drop 2).toString
  else none

/-- What all the arguments ask for, given those read so far. Only files stand
after two dashes. -/
def Arguments.read (a : Arguments) : List String → Option Arguments
  | [] => some a
  | "--" :: rest => rest.foldlM Arguments.withFile a
  | "--context" :: rest => a.withContext.bind fun b => b.read rest
  | "-o" :: path :: rest | "--output" :: path :: rest =>
    if isOption path then none else (a.withOutput path).bind fun b => b.read rest
  | arg :: rest =>
    match attached? arg with
    | some path => (a.withOutput path).bind fun b => b.read rest
    | none => if isOption arg then none else (a.withFile arg).bind fun b => b.read rest

def command? (args : List String) : Option Command :=
  match (Arguments.mk none none false).read args with
  | some ⟨some file, output?, context⟩ => some ⟨file, output?, context⟩
  | _ => none

/-- The command's name for what the system reports. -/
def fileError : IO.Error → FileError
  | .noFileOrDirectory _ _ _ => .notFound
  | .inappropriateType _ 21 _ => .isADirectory
  | .inappropriateType _ _ _ => .notADirectory
  | .invalidArgument _ 36 _ => .nameTooLong
  | .permissionDenied _ 13 _ => .other "Permission denied (os error 13)"
  | e => .other e.toString

def readSource (path : String) : IO (Except FileError String) := do
  try
    match String.fromUTF8? (← (← IO.FS.Handle.mk path .read).readBinToEnd) with
    | some text => return .ok text
    | none => return .error .notText
  catch e => return .error (fileError e)

def writeOutput (path text : String) : IO (Except FileError Unit) := do
  try
    IO.FS.writeFile path text
    return .ok ()
  catch e => return .error (fileError e)

/-- Runs the command on the files of the system: what it would write tells
whether anything has to be written, and how that went tells the outcome. -/
def execute (c : Command) : IO UInt32 := do
  let contents ← readSource c.file
  let writing ← match c.output?, (c.run contents (.ok ())).toOption.bind Command.Outcome.written? with
    | some path, some text => writeOutput path text
    | _, _ => pure (.ok ())
  match c.run contents writing with
  | .ok outcome =>
    IO.eprint outcome.messages
    return if outcome.success then 0 else 1
  | .error abort =>
    IO.eprint (abort.messages ++ "basec: a caret stands too far to the right to be drawn\n")
    return 101

end BaseLang.CommandLine

/-- Checks the Base program that the arguments name. -/
def main (args : List String) : IO UInt32 := do
  match BaseLang.CommandLine.command? args with
  | some command => BaseLang.CommandLine.execute command
  | none =>
    IO.eprintln "Usage: basec [--context] [-o OUT] FILE"
    return 2
