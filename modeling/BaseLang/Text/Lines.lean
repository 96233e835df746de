import BaseLang.Text.Blank

/-
  The lines of a text.

  Only a line feed ends a line. Carriage returns before it belong to the line
  but not to what is shown of it.
-/

namespace BaseLang.Lines

/-- The pieces of a text between its line feeds. There is always at least one,
and a final line feed is followed by an empty line. -/
def split : List Char → List (List Char)
  | [] => [[]]
  | c :: rest =>
    if c = '\n' then [] :: split rest
    else
      match split rest with
      | [] => [[c]]
      | line :: lines => (c :: line) :: lines

/-- Every text has a line. -/
theorem split_ne_nil (cs : List Char) : split cs ≠ [] := by
  cases cs with
  | nil => simp [split]
  | cons c cs =>
    rw [split]
    split
    · simp
    · split <;> simp

/-- The text without the characters at its end that satisfy `p`. -/
def dropEndWhile (p : Char → Bool) : List Char → List Char
  | [] => []
  | c :: rest =>
    match dropEndWhile p rest with
    | [] => if p c then [] else [c]
    | kept => c :: kept

/-- The line of that number, counted from one, without carriage returns at its
end. -/
def line? (source : String) (number : Nat) : Option String :=
  match number with
  | 0 => none
  | n + 1 => (split source.toList)[n]?.map fun cs => String.ofList (dropEndWhile (· == '\r') cs)

end BaseLang.Lines
