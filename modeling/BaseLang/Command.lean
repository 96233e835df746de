import BaseLang.Analysis
import BaseLang.Snippet

/-
  The command that checks one source file.

  A file that cannot be read, is no program or could not be analysed gets one
  message. Otherwise every diagnostic is listed, and the annotated text goes to
  the output file if one is named, whether or not there are diagnostics. The
  command succeeds exactly when it has nothing to say. At a snippet that cannot be
  drawn the run breaks off.

  What reading and writing files came to is given to the command, so that it is
  a function.
-/

namespace BaseLang

/-- What the user asks for. -/
structure Command where
  /-- The source file. -/
  file : String
  /-- The file to which the annotated text is written. -/
  output? : Option String
  /-- Whether diagnostics are shown with their line of the source. -/
  context : Bool

inductive FileError where
  | notFound
  | notADirectory
  | isADirectory
  | nameTooLong
  | notText
  | other (text : String)
  deriving DecidableEq, Repr

def FileError.message : FileError → String
  | notFound => "No such file or directory (os error 2)"
  | notADirectory => "Not a directory (os error 20)"
  | isADirectory => "Is a directory (os error 21)"
  | nameTooLong => "File name too long (os error 36)"
  | notText => "stream did not contain valid UTF-8"
  | other text => text

namespace Command

/-- What the command finds out about a source text. -/
structure Report where
  /-- What it says about it. -/
  messages : String
  /-- The annotated text, if the source is a program. -/
  rendering? : Option String
  /-- Whether nothing is wrong. -/
  clean : Bool

/-- A run that breaks off. -/
structure Abort where
  /-- What has been written to the error stream by then. -/
  messages : String
  deriving DecidableEq, Repr

/-- Messages that are written one after the other. The run breaks off at the first that
cannot be drawn. -/
def say : List (Option String) → Except Abort String
  | [] => .ok ""
  | none :: _ => .error ⟨""⟩
  | some message :: rest =>
    match say rest with
    | .ok others => .ok (message ++ others)
    | .error abort => .error ⟨message ++ abort.messages⟩

def errorMessage (c : Command) (source : String) (e : SyntaxError) : Option String :=
  Snippet.render? e.title e.position source c.file

def diagnosticMessage (c : Command) (source : String) (d : Diagnostic) : Option String :=
  if c.context then Snippet.render? d.kind.text d.position source c.file else some (d.text ++ "\n")

/-- Scans, parses and analyses a source text. -/
def examine (c : Command) (source : String) : Except Abort Report :=
  match Program.ofSource? source with
  | .error e => (say [c.errorMessage source e]).map fun messages => ⟨messages, none, false⟩
  | .ok program =>
    match analyze program with
    | .error e => .ok ⟨"basec: internal error: " ++ e.message ++ "\n", none, false⟩
    | .ok analysis =>
      (say (analysis.diagnostics.map (c.diagnosticMessage source))).map fun messages =>
        ⟨messages, some (program.annotatedText analysis.resolution), !analysis.hasErrors⟩

/-- What a run of the command comes to. -/
structure Outcome where
  success : Bool
  /-- What is written to the error stream. -/
  messages : String
  /-- What is written to the output file, if it is written. -/
  written? : Option String
  deriving DecidableEq, Repr

/-- The outcome of a run that has come to its report. -/
def finish (c : Command) (report : Report) (writing : Except FileError Unit) : Outcome :=
  match c.output?, report.rendering? with
  | some output, some rendering =>
    match writing with
    | .ok () => ⟨report.clean, report.messages, some rendering⟩
    | .error e =>
      ⟨false, report.messages ++ "basec: cannot write " ++ output ++ ": " ++ e.message ++ "\n", none⟩
  | _, _ => ⟨report.clean, report.messages, none⟩

/-- The run of the command, given what the source file holds and what writing
the output file would come to. -/
def run (c : Command) (contents : Except FileError String) (writing : Except FileError Unit) :
    Except Abort Outcome :=
  match contents with
  | .error e => .ok ⟨false, "basec: cannot read " ++ c.file ++ ": " ++ e.message ++ "\n", none⟩
  | .ok source => (c.examine source).map fun report => c.finish report writing

end Command

end BaseLang
