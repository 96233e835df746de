import BaseLang.Proofs.Scanning.LineText
import BaseLang.Snippet

/-
  Carets of snippets.

  The last line of a snippet is a caret, the one above it shows the line of the source that
  the position names. The caret is set by the column, which counts bytes, while what it
  points into is a line of characters:

    1. `Lines.newline_not_mem` — a line that is looked up has no line feed in it;
    2. `LastLines`, `ShownAt`, `CaretAt` — the last two lines of a text, where the upper one
       shows a text of the source and where the lower one has its caret;
    3. `lines_eq`, `exists_lastLines` — the last two lines of a snippet;
    4. `caret_under_iff` — the caret stands under what was found exactly if every character
       before it on its line has one byte, and otherwise to the right of it, by as many
       characters as there are bytes too many;
    5. `caret_beside` — a program for which it does not.
-/

namespace BaseLang

/-! ## Lines without line feeds -/

namespace Lines

theorem newline_not_mem_split {cs line : List Char} (h : line ∈ split cs) : '\n' ∉ line := by
  induction cs generalizing line with
  | nil =>
    rw [List.mem_singleton.1 h]
    exact List.not_mem_nil
  | cons c cs ih =>
    by_cases hc : c = '\n'
    · rw [hc, split_cons_newline] at h
      rcases List.mem_cons.1 h with rfl | h
      · exact List.not_mem_nil
      · exact ih h
    · rw [split_cons hc] at h
      cases hlines : split cs with
      | nil => exact absurd hlines (split_ne_nil cs)
      | cons first lines =>
        rw [hlines] at h ih
        rcases List.mem_cons.1 h with rfl | h
        · rw [List.mem_cons, not_or]
          exact ⟨Ne.symm hc, ih List.mem_cons_self⟩
        · exact ih (List.mem_cons_of_mem _ h)

theorem dropEndWhile_isPrefix (p : Char → Bool) (cs : List Char) : dropEndWhile p cs <+: cs := by
  induction cs with
  | nil => exact List.prefix_rfl
  | cons c cs ih =>
    rw [dropEndWhile]
    split
    · split
      · exact List.nil_prefix
      · exact List.prefix_append [c] cs
    · exact (List.cons_prefix_cons).2 ⟨rfl, ih⟩

theorem newline_not_mem {source line : String} {n : Nat} (h : line? source n = some line) :
    '\n' ∉ line.toList := by
  cases n with
  | zero => cases h
  | succ n =>
    obtain ⟨cs, hcs, rfl⟩ := Option.map_eq_some_iff.1 h
    rw [String.toList_ofList]
    exact fun hmem => newline_not_mem_split (List.mem_of_getElem? hcs) ((dropEndWhile_isPrefix _ cs).subset hmem)

end Lines

/-! ## Characters of one byte -/

/-- There are as many bytes as characters exactly if each character has one. -/
theorem utf8Length_eq_length_iff {cs : List Char} : utf8Length cs = cs.length ↔ ∀ c ∈ cs, c.utf8Size = 1 := by
  induction cs with
  | nil => exact ⟨fun _ => nofun, fun _ => rfl⟩
  | cons c cs ih =>
    have hc := c.utf8Size_pos
    have hcs := length_le_utf8Length cs
    rw [List.forall_mem_cons, ← ih, utf8Length, List.length_cons]
    omega

namespace Snippet

theorem utf8Length_of_isIndent {cs : List Char} (h : ∀ c ∈ cs, isIndent c = true) :
    utf8Length cs = cs.length := by
  refine utf8Length_eq_length_iff.2 fun c hc => ?_
  have hindent := h c hc
  rw [isIndent, Bool.or_eq_true, beq_iff_eq, beq_iff_eq] at hindent
  rcases hindent with rfl | rfl <;> rfl

theorem not_isIndent {c : Char} (h : isBlank c = false) : isIndent c = false := by
  rw [← Bool.not_eq_true, isIndent, Bool.or_eq_true, beq_iff_eq, beq_iff_eq]
  rintro (rfl | rfl) <;> cases h

/-! ## The line above and the line of the caret -/

def gutter (number : Nat) : List Char := Decimal.natural number ++ [' ', '|', ' ']

/-- The last two lines of a text whose lines all end with a line feed. -/
structure LastLines (cs above below : List Char) : Prop where
  ends : ∃ others, cs = others ++ '\n' :: (above ++ '\n' :: (below ++ ['\n']))
  above : '\n' ∉ above
  below : '\n' ∉ below

/-- Of the line with that number, on which the characters `before` come before the text,
`above` shows the text at that index: behind the number, the bar and what of those
characters is not indentation. -/
def ShownAt (number : Nat) (before text above : List Char) (i : Nat) : Prop :=
  ∃ rest, above = gutter number ++ before.dropWhile isIndent ++ (text ++ rest) ∧
    i = (gutter number ++ before.dropWhile isIndent).length

/-- The line has a single caret, at its end and at that index. -/
def CaretAt (below : List Char) (i : Nat) : Prop :=
  ∃ fill, below = fill ++ ['^'] ∧ '^' ∉ fill ∧ fill.length = i

/-! ## What a snippet shows -/

variable {before text rest : List Char}

theorem takeWhile_isIndent (h : Solid text) :
    (before ++ (text ++ rest)).takeWhile isIndent = before.takeWhile isIndent := by
  obtain ⟨c, cs, rfl, hc⟩ := h.first
  exact takeWhile_before (not_isIndent hc) before (cs ++ rest)

theorem dropWhile_isIndent (h : Solid text) :
    (before ++ (text ++ rest)).dropWhile isIndent = before.dropWhile isIndent ++ (text ++ rest) := by
  have hwhole := List.takeWhile_append_dropWhile (p := isIndent) (l := before ++ (text ++ rest))
  have hbefore := List.takeWhile_append_dropWhile (p := isIndent) (l := before)
  rw [takeWhile_isIndent h] at hwhole
  refine (List.append_right_inj (before.takeWhile isIndent)).1 ?_
  rw [hwhole, ← List.append_assoc (before.takeWhile isIndent), hbefore]

/-- Indentation has one byte for each character. -/
theorem utf8Length_dropWhile_isIndent (cs : List Char) :
    utf8Length (cs.dropWhile isIndent) + (cs.takeWhile isIndent).length = utf8Length cs := by
  have hindent : utf8Length (cs.takeWhile isIndent) = (cs.takeWhile isIndent).length :=
    utf8Length_of_isIndent fun c hc => List.mem_takeWhile_imp hc
  have hboth := utf8Length_append (cs.takeWhile isIndent) (cs.dropWhile isIndent)
  rw [List.takeWhile_append_dropWhile, hindent] at hboth
  omega

/-- What stands to the left of the caret: the bar under the number's end, and a dash for
every byte that is shown before the text. -/
def field (number : Nat) (before : List Char) : List Char :=
  bar number ++ ' ' :: List.replicate (utf8Length (before.dropWhile isIndent)) '-'

/-- The lines of a snippet about a solid text that stands on a line of the source. -/
theorem lines_eq (h : Solid text) (number : Nat) :
    lines ⟨number, utf8Length before + 1⟩ (before ++ (text ++ rest)) =
      bar number ++ '\n' ::
        (gutter number ++ before.dropWhile isIndent ++ (text ++ Lines.dropEndWhile isBlank rest) ++ '\n' ::
          (field number before ++ ['^'] ++ ['\n'])) := by
  have hshown := h.dropEndWhile (fun _ => id) (before.dropWhile isIndent) rest
  have hwidth : caretWidth ⟨number, utf8Length before + 1⟩ (before ++ (text ++ rest)) =
      utf8Length (before.dropWhile isIndent) + 1 := by
    have hbytes := utf8Length_dropWhile_isIndent before
    rw [caretWidth, takeWhile_isIndent h]
    dsimp only
    omega
  simp only [lines, dropWhile_isIndent h, hshown, hwidth, gutter, field, alignRight,
    List.length_singleton, Nat.add_sub_cancel, List.append_assoc, List.cons_append, List.nil_append]

theorem newline_not_mem_gutter (number : Nat) : '\n' ∉ gutter number := by
  rw [gutter, List.mem_append, not_or]
  refine ⟨fun h => ?_, by decide⟩
  cases Decimal.isDigit_of_mem_natural h

/-- Left of the caret there are blanks, a bar and dashes. -/
theorem mem_field {number : Nat} {c : Char} (h : c ∈ field number before) : c ∈ [' ', '|', '-'] := by
  simp only [field, bar, alignRight, List.mem_append, List.mem_cons, List.mem_replicate,
    List.not_mem_nil, or_false] at h
  rcases h with (⟨-, rfl⟩ | rfl) | rfl | ⟨-, rfl⟩ <;> decide

/-- The caret stands as far to the right as the bytes that are shown before the text take it. -/
theorem length_field (number : Nat) (before : List Char) :
    (field number before).length =
      (gutter number ++ before.dropWhile isIndent).length + (utf8Length before - before.length) := by
  have hbytes := utf8Length_dropWhile_isIndent before
  have hle := length_le_utf8Length (before.dropWhile isIndent)
  have hlength := congrArg List.length (List.takeWhile_append_dropWhile (p := isIndent) (l := before))
  rw [List.length_append] at hlength
  simp only [field, bar, alignRight, gutter, List.length_append, List.length_cons, List.length_replicate,
    List.length_nil]
  omega

/-- The last two lines of a snippet about what the scanner finds. -/
theorem exists_lastLines {source line : String} {p : Position} (title file : String)
    (hline : Lines.line? source p.line = some line) (hchars : line.toList = before ++ (text ++ rest))
    (hcolumn : p.column = utf8Length before + 1) (h : Solid text) :
    LastLines (render title p source file).toList
      (gutter p.line ++ before.dropWhile isIndent ++ (text ++ Lines.dropEndWhile isBlank rest))
      (field p.line before ++ ['^']) := by
  obtain ⟨number, column⟩ := p
  obtain rfl : column = utf8Length before + 1 := hcolumn
  refine ⟨⟨("Error: " ++ title ++ "\n-> " ++ file ++ ":" ++
    (⟨number, utf8Length before + 1⟩ : Position).text ++ "\n").toList ++ bar number, ?_⟩, ?_, ?_⟩
  · rw [render, hline, String.toList_append]
    dsimp only
    rw [String.toList_ofList, hchars, lines_eq h]
    exact (List.append_assoc _ _ _).symm
  · have hnone := Lines.newline_not_mem hline
    rw [hchars] at hnone
    intro hmem
    simp only [List.mem_append, or_assoc] at hmem hnone
    rcases hmem with hmem | hmem | hmem | hmem
    · exact newline_not_mem_gutter number hmem
    · exact hnone (.inl ((List.dropWhile_sublist _).subset hmem))
    · exact hnone (.inr (.inl hmem))
    · exact hnone (.inr (.inr ((Lines.dropEndWhile_isPrefix _ rest).subset hmem)))
  · rw [List.mem_append, not_or]
    exact ⟨fun hmem => absurd (mem_field hmem) (by decide), by decide⟩

/-- Where the caret of a snippet stands. For whatever the scanner finds at a position of a
source that is not too long, if the snippet can be drawn, the line above the last one shows it,
and the last line has its caret as far to the right of it as there are bytes too many in what
comes before it on its line. So the caret stands under it exactly if each of these characters
has one byte. -/
theorem caret_under_iff {source : String} {p : Position} {text : List Char}
    (hsize : utf8Length source.toList < 2 ^ 32 - 1) (h : Spotted source p text) (hfits : fits p source = true)
    (title file : String) :
    ∃ line before rest above below i j,
      Lines.line? source p.line = some line ∧ line.toList = before ++ (text ++ rest) ∧
      p.column = utf8Length before + 1 ∧
      render? title p source file = some (render title p source file) ∧
      LastLines (render title p source file).toList above below ∧
      ShownAt p.line before text above i ∧ CaretAt below j ∧
      j = i + (utf8Length before - before.length) ∧
      (j = i ↔ ∀ c ∈ before, c.utf8Size = 1) := by
  obtain ⟨line, before, rest, hline, hchars, hcolumn⟩ := h.textAt hsize
  obtain ⟨-, -, -, -, hsolid, -⟩ := h.exists_split hsize
  refine ⟨line, before, rest, _, _, _, _, hline, hchars, hcolumn, render?_of_fits hfits title file,
    exists_lastLines title file hline hchars hcolumn hsolid, ⟨_, rfl, rfl⟩, ⟨_, rfl, ?_, rfl⟩,
    length_field p.line before, ?_⟩
  · exact fun hmem => absurd (mem_field hmem) (by decide)
  · have hle := length_le_utf8Length before
    rw [length_field, ← utf8Length_eq_length_iff]
    omega

/-- A line whose number has two digits, indented by a space and a tab. -/
def indentedSource : String := "\n\n\n\n\n\n\n\n\n \ty = 1."

theorem caret_under_indented :
    utf8Length indentedSource.toList < 2 ^ 32 - 1 ∧ Spotted indentedSource ⟨10, 3⟩ ['y'] ∧
      fits ⟨10, 3⟩ indentedSource = true ∧ ∃ above below i,
      LastLines (render "Undeclared identifier" ⟨10, 3⟩ indentedSource "a.base").toList above below ∧
      ShownAt 10 [' ', '\t'] ['y'] above i ∧ CaretAt below i := by
  have hscan : scan indentedSource = .ok [⟨.identifier, "y", ⟨⟨10, 3⟩, ⟨10, 4⟩⟩⟩,
      ⟨.assignment, "=", ⟨⟨10, 5⟩, ⟨10, 6⟩⟩⟩, ⟨.intLiteral, "1", ⟨⟨10, 7⟩, ⟨10, 8⟩⟩⟩,
      ⟨.dot, ".", ⟨⟨10, 8⟩, ⟨10, 9⟩⟩⟩, .endOfInput ⟨10, 9⟩] := by decide +kernel
  have hspotted : Spotted indentedSource ⟨10, 3⟩ ['y'] := .token hscan List.mem_cons_self nofun
  have hknown : Lines.line? indentedSource 10 = some " \ty = 1." := by decide +kernel
  have hsize : utf8Length indentedSource.toList < 2 ^ 32 - 1 := by decide +kernel
  have hfits : fits ⟨10, 3⟩ indentedSource = true := by decide +kernel
  obtain ⟨line, before, rest, above, below, i, j, hline, hchars, hcolumn, -, hlast, hshown, hcaret, -, hunder⟩ :=
    caret_under_iff hsize hspotted hfits "Undeclared identifier" "a.base"
  obtain rfl : " \ty = 1." = line := Option.some.inj (hknown.symm.trans hline)
  have hsplit : [' ', '\t'] ++ "y = 1.".toList = before ++ (['y'] ++ rest) := hchars
  obtain rfl : [' ', '\t'] = before := append_inj_of_utf8Length hsplit (Nat.succ.inj hcolumn)
  have hbytes : ∀ c ∈ [' ', '\t'], c.utf8Size = 1 :=
    List.forall_mem_cons.2 ⟨rfl, List.forall_mem_singleton.2 rfl⟩
  rw [hunder.2 hbytes] at hcaret
  exact ⟨hsize, hspotted, hfits, above, below, i, hlast, hshown, hcaret⟩

/-- A condition with a string that has a character of two bytes, before a name that is not
declared. -/
def accentedSource : String := "void f\x7b\x7d [ if \"é\" == y [] ]"

/-- The caret that should stand under the name stands one character to the right of it. -/
theorem caret_beside :
    Spotted accentedSource ⟨1, 23⟩ ['y'] ∧
      render? "Undeclared identifier" ⟨1, 23⟩ accentedSource "a.base" = some
        ("Error: Undeclared identifier\n-> a.base:1:23\n  |\n1 | void f\x7b\x7d [ if \"é\" == y [] ]\n" ++
          "  | ----------------------^\n") ∧
      "1 | void f\x7b\x7d [ if \"é\" == y [] ]".toList[25]? = some 'y' ∧
      CaretAt "  | ----------------------^".toList 26 := by
  have hscan : scan accentedSource = .ok [⟨.voidWord, "void", ⟨⟨1, 1⟩, ⟨1, 5⟩⟩⟩,
      ⟨.identifier, "f", ⟨⟨1, 6⟩, ⟨1, 7⟩⟩⟩, ⟨.openCurly, "\x7b", ⟨⟨1, 7⟩, ⟨1, 8⟩⟩⟩,
      ⟨.closeCurly, "\x7d", ⟨⟨1, 8⟩, ⟨1, 9⟩⟩⟩, ⟨.openBracket, "[", ⟨⟨1, 10⟩, ⟨1, 11⟩⟩⟩,
      ⟨.ifWord, "if", ⟨⟨1, 12⟩, ⟨1, 14⟩⟩⟩, ⟨.stringLiteral, "\"é\"", ⟨⟨1, 15⟩, ⟨1, 19⟩⟩⟩,
      ⟨.equals, "==", ⟨⟨1, 20⟩, ⟨1, 22⟩⟩⟩, ⟨.identifier, "y", ⟨⟨1, 23⟩, ⟨1, 24⟩⟩⟩,
      ⟨.openBracket, "[", ⟨⟨1, 25⟩, ⟨1, 26⟩⟩⟩, ⟨.closeBracket, "]", ⟨⟨1, 26⟩, ⟨1, 27⟩⟩⟩,
      ⟨.closeBracket, "]", ⟨⟨1, 28⟩, ⟨1, 29⟩⟩⟩, .endOfInput ⟨1, 29⟩] := by decide +kernel
  have hspotted : Spotted accentedSource ⟨1, 23⟩ ['y'] :=
    .token (t := ⟨.identifier, "y", ⟨⟨1, 23⟩, ⟨1, 24⟩⟩⟩) hscan (by decide) nofun
  have hfits : fits ⟨1, 23⟩ accentedSource = true := by decide +kernel
  refine ⟨hspotted, (render?_of_fits hfits _ _).trans (congrArg some (by decide +kernel)), by decide +kernel, ?_⟩
  exact ⟨"  | ----------------------".toList, by decide +kernel, by decide +kernel, by decide +kernel⟩

end Snippet

end BaseLang
