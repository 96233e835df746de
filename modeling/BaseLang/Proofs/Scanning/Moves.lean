import Mathlib.Algebra.GroupWithZero.Nat
import BaseLang.Proofs.Scanning.Lexemes
import BaseLang.Proofs.Scanning.Places

/-
  The cursor depends only on how far it has moved.

  The scanner moves its cursor by numbers of bytes, and counts lines on the way. How the way
  is cut into moves does not matter: the characters that have been read determine the cursor,
  and the sum of the moves determines these characters.

    1. `Boundary` — the places at which a cursor can stop, and `Cursor.Stops` — moves that stop
       at such places, those beyond the end of the text at its end;
    2. `LineStarts` — where the line after some characters starts;
    3. `Cursor.ReadUpTo` — a cursor that has read so many bytes of a source, which determines it
       (`Cursor.ReadUpTo.eq`), and `Cursor.ReadUpTo.advance` — what a move makes of it;
    4. `Cursor.ReadUpTo.foldl_advance` — so do all moves, and `moves_as_one` — the main theorem.
-/

namespace BaseLang

/-! ## Places between characters -/

/-- After so many bytes of the source a character begins, or the source ends. -/
def Boundary (source : String) (offset : Nat) : Prop :=
  ∃ before rest, source.toList = before ++ rest ∧ utf8Length before = offset

/-- Of two beginnings of a text the longer one goes on from the shorter one. -/
theorem exists_between {before before' rest rest' : List Char} (h : before ++ rest = before' ++ rest')
    (hle : utf8Length before ≤ utf8Length before') : ∃ text, before' = before ++ text ∧ rest = text ++ rest' := by
  rcases List.append_eq_append_iff.1 h with ⟨text, hbefore, hrest⟩ | ⟨text, hbefore, -⟩
  · exact ⟨text, hbefore, hrest⟩
  · rw [hbefore, utf8Length_append] at hle
    have hsame : before = before' := append_inj_of_utf8Length h (by rw [hbefore, utf8Length_append]; omega)
    subst hsame
    exact ⟨[], (List.append_nil before).symm, List.append_cancel_left h⟩

/-! ## Where lines start -/

/-- After these characters the line starts at that offset: at the beginning of the text, or just
after the last line feed among them. -/
inductive LineStarts : List Char → Nat → Prop
  | first {before} (h : '\n' ∉ before) : LineStarts before 0
  | later {earlier current} (h : '\n' ∉ current) :
    LineStarts (earlier ++ '\n' :: current) (utf8Length (earlier ++ ['\n']))

theorem LineStarts.concat {before : List Char} {start : Nat} (h : LineStarts before start) {c : Char}
    (hc : c ≠ '\n') : LineStarts (before ++ [c]) start := by
  have hlonger : ∀ {cs : List Char}, '\n' ∉ cs → '\n' ∉ cs ++ [c] := by
    intro cs hcs hmem
    rcases List.mem_append.1 hmem with hmem | hmem
    · exact hcs hmem
    · exact hc (List.mem_singleton.1 hmem).symm
  cases h with
  | first h => exact .first (hlonger h)
  | later h =>
    rw [List.append_assoc, List.cons_append]
    exact .later (hlonger h)

theorem LineStarts.le {before : List Char} {start : Nat} (h : LineStarts before start) :
    start ≤ utf8Length before := by
  cases h with
  | first h => exact Nat.zero_le _
  | @later earlier current h =>
    rw [List.append_cons earlier '\n' current, utf8Length_append (earlier ++ ['\n'])]
    exact Nat.le_add_right _ _

/-- The last line of some characters is what comes after its start. -/
theorem exists_lineStarts (before : List Char) :
    ∃ start, LineStarts before start ∧ start + utf8Length (lastLine before) = utf8Length before := by
  induction before using List.reverseRecOn with
  | nil => exact ⟨0, .first List.not_mem_nil, rfl⟩
  | append_singleton before c ih =>
    by_cases hc : c = '\n'
    · subst hc
      rw [lastLine_newline]
      exact ⟨_, .later List.not_mem_nil, rfl⟩
    · obtain ⟨start, hstart, hbytes⟩ := ih
      refine ⟨start, hstart.concat hc, ?_⟩
      rw [lastLine_concat _ hc, utf8Length_append, utf8Length_append, ← Nat.add_assoc, hbytes]

/-! ## Moves -/

namespace Cursor
variable {source : String} {c d : Cursor} {offset : Nat}

/-- Moves from the cursor on, each of which stops at a boundary of the source. A move beyond
the end of the source stops there. -/
def Stops (source : String) : Cursor → List Nat → Prop
  | _, [] => True
  | c, bytes :: moves =>
    Boundary source (min (c.offset + bytes) (utf8Length source.toList)) ∧ Stops source (c.advance bytes) moves

/-- The cursor has read so many bytes of the source: all other counts are those of the characters that
these are. -/
def ReadUpTo (source : String) (offset : Nat) (c : Cursor) : Prop :=
  ∃ before, source.toList = before ++ c.rest ∧ utf8Length before = offset ∧ c.Stands before

theorem readUpTo_start (source : String) : (start source).ReadUpTo source 0 :=
  ⟨[], rfl, rfl, stands_start source⟩

theorem ReadUpTo.offset_eq (h : c.ReadUpTo source offset) : c.offset = offset := by
  obtain ⟨before, -, hbytes, hstands⟩ := h
  rw [hstands.offset, hbytes]

/-- How much has been read determines the cursor. -/
theorem ReadUpTo.eq (hc : c.ReadUpTo source offset) (hd : d.ReadUpTo source offset) : c = d := by
  obtain ⟨before, hsource, hbytes, hstands⟩ := hc
  obtain ⟨before', hsource', hbytes', hstands'⟩ := hd
  have hsplit := hsource.symm.trans hsource'
  obtain rfl : before = before' := append_inj_of_utf8Length hsplit (hbytes.trans hbytes'.symm)
  obtain ⟨rest, offset, line, lineStart⟩ := c
  obtain ⟨rest', offset', line', lineStart'⟩ := d
  simp only [mk.injEq]
  refine ⟨List.append_cancel_left hsplit, hstands.offset.trans hstands'.offset.symm,
    hstands.line.trans hstands'.line.symm, ?_⟩
  exact Nat.add_right_cancel (hstands.lineStart.trans hstands'.lineStart.symm)

/-- A move over more than all characters is one over all of them. -/
theorem advanceOver_of_le : ∀ {ahead : List Char} {bytes : Nat} (c : Cursor), utf8Length ahead ≤ bytes →
    advanceOver ahead bytes c = advanceOver ahead (utf8Length ahead) c
  | [], _, _, _ => rfl
  | ch :: ahead, bytes, c, h => by
    rw [utf8Length] at h
    rw [advanceOver, advanceOver, utf8Length, if_neg (by omega), if_neg (by omega), Nat.add_sub_cancel_left,
      advanceOver_of_le c.next (by omega)]

theorem advance_eq (c : Cursor) (bytes : Nat) : c.advance bytes = c.advance (min bytes (utf8Length c.rest)) := by
  rcases Nat.le_total bytes (utf8Length c.rest) with h | h
  · rw [Nat.min_eq_left h]
  · rw [Nat.min_eq_right h, advance, advance, advanceOver_of_le c h]

/-- A move to a boundary reads so many bytes more, or all that there are. -/
theorem ReadUpTo.advance (h : c.ReadUpTo source offset) {bytes : Nat}
    (hstop : Boundary source (min (offset + bytes) (utf8Length source.toList))) :
    (c.advance bytes).ReadUpTo source (min (offset + bytes) (utf8Length source.toList)) := by
  obtain ⟨before, hsource, hbytes, hstands⟩ := h
  obtain ⟨before', rest', hsource', hstop⟩ := hstop
  have hsize : utf8Length source.toList = offset + utf8Length c.rest := by rw [hsource, utf8Length_append, hbytes]
  obtain ⟨text, rfl, hrest⟩ := exists_between (hsource.symm.trans hsource') (by omega)
  -- the move is one over the characters between the two boundaries
  have hmove : min bytes (utf8Length c.rest) = utf8Length text := by
    rw [utf8Length_append] at hstop
    omega
  rw [advance_eq, hmove]
  exact ⟨before ++ text, by rw [rest_advance hrest, hsource'], hstop, hstands.advance hrest⟩

/-- Moves one after the other read as many bytes as they are together. -/
theorem ReadUpTo.foldl_advance {moves : List Nat} (h : c.ReadUpTo source offset)
    (hsize : offset ≤ utf8Length source.toList) (hstops : c.Stops source moves) :
    (moves.foldl Cursor.advance c).ReadUpTo source (min (offset + moves.sum) (utf8Length source.toList)) := by
  induction moves generalizing c offset with
  | nil =>
    rw [List.sum_nil, Nat.add_zero, Nat.min_eq_left hsize]
    exact h
  | cons bytes moves ih =>
    obtain ⟨hstop, hstops⟩ := hstops
    rw [h.offset_eq] at hstop
    -- once the end is reached, it stays the end
    have htotal : min (min (offset + bytes) (utf8Length source.toList) + moves.sum) (utf8Length source.toList) =
        min (offset + (bytes :: moves).sum) (utf8Length source.toList) := by
      rw [List.sum_cons]
      omega
    rw [List.foldl_cons, ← htotal]
    exact ih (h.advance hstop) (Nat.min_le_right _ _) hstops

end Cursor

/-- The cursor depends only on how far it has moved. After moves that stop at boundaries of the source,
from its beginning on, it is where one move by their sum leads, the sum being a number of bytes that a
machine word holds, as each move is. The cursor has read as many bytes, or all; its
line is one more than the line feeds among them, and that line starts just after the last of these. So
the line starts at or before the cursor, and the column counts the bytes in between. The source has
fewer than `2 ^ 32 - 1` bytes, so that 32 bits are enough for line and column. -/
theorem moves_as_one {source : String} {moves : List Nat} (hsize : utf8Length source.toList < 2 ^ 32 - 1)
    (h : (Cursor.start source).Stops source moves) :
    let c := moves.foldl Cursor.advance (.start source)
    c = (Cursor.start source).advance moves.sum ∧
      ∃ before, source.toList = before ++ c.rest ∧ c.offset = utf8Length before ∧
        c.offset = min moves.sum (utf8Length source.toList) ∧ c.line = 1 + before.count '\n' ∧
        LineStarts before c.lineStart ∧ c.lineStart ≤ c.offset ∧ c.position.line = c.line ∧
        c.lineStart + c.position.column = c.offset + 1 ∧ c.position.line < 2 ^ 32 ∧
        c.position.column < 2 ^ 32 := by
  intro c
  have hread : c.ReadUpTo source (min moves.sum (utf8Length source.toList)) := by
    have hmoved := (Cursor.readUpTo_start source).foldl_advance (Nat.zero_le _) h
    rwa [Nat.zero_add] at hmoved
  have hoffset := hread.offset_eq
  have hone : ((Cursor.start source).advance moves.sum).ReadUpTo source
      (min moves.sum (utf8Length source.toList)) := by
    obtain ⟨before, hsource, hbytes, -⟩ := hread
    have hend : Boundary source (min (0 + moves.sum) (utf8Length source.toList)) := by
      rw [Nat.zero_add]
      exact ⟨before, _, hsource, hbytes⟩
    have hmoved := (Cursor.readUpTo_start source).advance hend
    rwa [Nat.zero_add] at hmoved
  refine ⟨hread.eq hone, ?_⟩
  obtain ⟨before, hsource, -, hstands⟩ := hread
  obtain ⟨start, hstart, hbytes⟩ := exists_lineStarts before
  obtain rfl : start = c.lineStart := Nat.add_right_cancel (hbytes.trans hstands.lineStart.symm)
  have hle : c.lineStart ≤ c.offset := hstands.offset ▸ hstart.le
  rw [hsource, utf8Length_append] at hsize
  have hposition : c.position = .after before := by
    rw [hstands.position, Position.narrow_after (by omega)]
  obtain ⟨hline, hcolumn⟩ := Position.after_le before
  rw [hposition]
  refine ⟨before, hsource, hstands.offset, hoffset, hstands.line, hstart, hle, hstands.line.symm, ?_, by omega,
    by omega⟩
  rw [hstands.offset, ← hbytes]
  show c.lineStart + (1 + utf8Length (lastLine before)) = c.lineStart + utf8Length (lastLine before) + 1
  omega

/-- A character of two bytes, and lines that end in the middle and at the end of a move. -/
def movedSource : String := "é\n\nx\n"

/-- The third move crosses the end of a line, the last two go beyond the end of the source. -/
theorem moves_as_one_beyond :
    utf8Length movedSource.toList < 2 ^ 32 - 1 ∧
      (Cursor.start movedSource).Stops movedSource [2, 1, 2, 0, 100, 3] ∧
      [2, 1, 2, 0, 100, 3].foldl Cursor.advance (.start movedSource) = ⟨[], 6, 4, 6⟩ ∧
      (Cursor.start movedSource).advance 108 = ⟨[], 6, 4, 6⟩ ∧ LineStarts movedSource.toList 6 := by
  have hstops : (Cursor.start movedSource).Stops movedSource [2, 1, 2, 0, 100, 3] :=
    ⟨⟨['é'], ['\n', '\n', 'x', '\n'], rfl, rfl⟩, ⟨['é', '\n'], ['\n', 'x', '\n'], rfl, rfl⟩,
      ⟨['é', '\n', '\n', 'x'], ['\n'], rfl, rfl⟩, ⟨['é', '\n', '\n', 'x'], ['\n'], rfl, rfl⟩,
      ⟨['é', '\n', '\n', 'x', '\n'], [], rfl, rfl⟩, ⟨['é', '\n', '\n', 'x', '\n'], [], rfl, rfl⟩, trivial⟩
  have hmoved : [2, 1, 2, 0, 100, 3].foldl Cursor.advance (.start movedSource) = ⟨[], 6, 4, 6⟩ := by
    decide +kernel
  have hsize : utf8Length movedSource.toList < 2 ^ 32 - 1 := by decide +kernel
  obtain ⟨hone, before, hsource, -, -, -, hstart, -⟩ := moves_as_one hsize hstops
  rw [hmoved] at hone hsource hstart
  rw [List.append_nil] at hsource
  exact ⟨hsize, hstops, hmoved, hone.symm, hsource ▸ hstart⟩

end BaseLang
