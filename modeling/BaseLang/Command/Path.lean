import BaseLang.Command

/-
  Paths as they are written, and the places they lead to.

  A path is a start and names between slashes. A place is what is left of the
  names once the dots are gone: it says where a file lies, seen from the
  directory in which the command runs.
-/

namespace BaseLang

/-- Where a file or a directory lies: the names on the way to it. Double dots
stand only in front, for the directories around the one in which the command
runs, and a slash stands only as the first name, for the root. -/
abbrev Place := List String

namespace Place

/-- The directory in which the command runs. -/
def here : Place := []

/-- The directory that no other contains. -/
def root : Place := ["/"]

/-- The directory that contains what lies there. The root contains itself. -/
def parent (p : Place) : Place :=
  match p.getLast? with
  | none | some ".." => p ++ [".."]
  | some "/" => p
  | some _ => p.dropLast

/-- Where one more name of a path leads. -/
def enter (p : Place) (name : String) : Place :=
  if name = "." then p else if name = ".." then p.parent else p ++ [name]

/-- Whether it lies around the directory in which the command runs, or is that
directory, or is the root. -/
def isAround (p : Place) : Bool := p.all fun name => name == ".." || name == "/"

end Place

/-- A written path. -/
structure Path where
  /-- Where its names start. -/
  start : Place
  /-- The names between its slashes. -/
  names : List String
  /-- Whether a slash ends it. -/
  slashed : Bool
  deriving DecidableEq, Repr

namespace Path

/-- Reads a written path. An empty one leads nowhere, and one that would fill a
page of 4096 bytes with the null byte at its end is refused. -/
def parse (path : String) : Except FileError Path :=
  if path = "" then .error .notFound
  else if 4096 ≤ path.utf8ByteSize then .error .nameTooLong
  else .ok ⟨if path.startsWith "/" then .root else .here,
    (path.splitOn "/").filter (· ≠ ""), path.endsWith "/"⟩

/-- The names on the way to the last one. -/
def way (p : Path) : List String := p.names.dropLast

/-- The last name. Slashes alone lead where a dot after them would. -/
def last (p : Path) : String := p.names.getLastD "."

/-- Where the path leads if every name on it leads somewhere. -/
def place (p : Path) : Place := p.names.foldl Place.enter p.start

end Path

end BaseLang
