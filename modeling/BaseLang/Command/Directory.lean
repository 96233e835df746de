import BaseLang.Command.Path

/-
  Runs of the command in a directory that is a value.

  The directory holds files, each at its place, and the directories on the way
  to them. A path is walked name by name, and each name before the last has to
  lead to a directory, also when a double dot undoes it. Reading and writing fail
  as they do on a disk: where there is nothing, at a directory, below a file, and
  at a name that is too long. Of what is around the directory only the files that
  are put there are known.
-/

namespace BaseLang

/-- A directory: its files, each at its place. -/
structure Directory where
  files : List (Place × ByteArray)

namespace Directory

def file? (d : Directory) (place : Place) : Option ByteArray := d.files.lookup place

def isDirectory (d : Directory) (place : Place) : Bool :=
  place.isAround ||
    d.files.any fun f => place.isPrefixOf f.1 && place.length < f.1.length

/-- The directory with those bytes at that place, whatever was there. -/
def put (d : Directory) (place : Place) (bytes : ByteArray) : Directory :=
  ⟨(place, bytes) :: d.files.filter fun f => f.1 != place⟩

/-- The directory with one file in it, if the path is one. -/
def holding (path : String) (bytes : ByteArray) : Directory :=
  match Path.parse path with
  | .ok p => (Directory.mk []).put p.place bytes
  | .error _ => ⟨[]⟩

/-- Whether a name has more than the 255 bytes that a directory can hold. -/
def isTooLong (name : String) : Bool := 255 < name.utf8ByteSize

/-- The place to which a name leads in the directory at a place. -/
def seek (place : Place) (name : String) : Except FileError Place :=
  if isTooLong name then .error .nameTooLong else .ok (place.enter name)

/-- Goes into the directory to which a name leads. -/
def descend (d : Directory) (place : Place) (name : String) : Except FileError Place := do
  let next ← seek place name
  if d.isDirectory next then return next
  else if (d.file? next).isSome then throw .notADirectory
  else throw .notFound

/-- Goes to the directory in which the last name of a path stands. -/
def walk (d : Directory) (p : Path) : Except FileError Place :=
  p.way.foldlM d.descend p.start

def readBytes (d : Directory) (path : String) : Except FileError ByteArray := do
  let p ← Path.parse path
  let place ← seek (← d.walk p) p.last
  if d.isDirectory place then throw .isADirectory
  match d.file? place with
  | none => throw .notFound
  | some bytes => if p.slashed then throw .notADirectory else return bytes

def readText (d : Directory) (path : String) : Except FileError String := do
  match String.fromUTF8? (← d.readBytes path) with
  | some text => return text
  | none => throw .notText

/-- The directory after the bytes are written at a path. A file that does not
exist is made, but never under a path that a slash ends. -/
def write (d : Directory) (path : String) (bytes : ByteArray) : Except FileError Directory := do
  let p ← Path.parse path
  let parent ← d.walk p
  if p.slashed then throw .isADirectory
  let place ← seek parent p.last
  if d.isDirectory place then throw .isADirectory
  return d.put place bytes

end Directory

/-- A run of the command in a directory, and the directory after it. -/
def Command.runIn (c : Command) (d : Directory) : Except Command.Abort Command.Outcome × Directory :=
  let writing := match c.output? with
    | none => .ok ()
    | some path => (d.write path .empty).map fun _ => ()
  let outcome := c.run (d.readText c.file) writing
  match c.output?, outcome.toOption.bind Command.Outcome.written? with
  | some path, some text => (outcome, ((d.write path text.toUTF8).toOption).getD d)
  | _, _ => (outcome, d)

end BaseLang
