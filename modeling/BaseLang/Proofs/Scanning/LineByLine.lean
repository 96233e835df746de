import BaseLang.Proofs.Scanning.Tiling
import Mathlib.Data.List.Find

/-
  Scanning goes line by line.

  No stretch of text but blanks goes beyond the end of a line, and blanks make no token. So
  what is made of a text is made of its lines, one after the other, each as if it stood alone.

    1. `movedDown` — what is made of a text that stands some lines further down;
    2. `Pattern.first?_before_newline` — a line feed after a text, and whatever follows it, does
       not change what is matched in the text;
    3. `LongestScan.movedDown`, `LongestScan.before_line` — the two halves of a text that is split
       at a line feed;
    4. `scan_line_by_line` — scanning such a text.
-/

namespace BaseLang

/-! ## Further down in a text -/

/-- The position that many lines further down. -/
def Position.down (lines : Nat) (p : Position) : Position := ⟨p.line + lines, p.column⟩

/-- What is made of a text that stands that many lines further down. -/
def movedDown (lines : Nat) : Except SyntaxError (List Token) → Except SyntaxError (List Token) :=
  moved (.down lines)

theorem lastLine_after_newline (pre cs : List Char) : lastLine (pre ++ '\n' :: cs) = lastLine cs := by
  induction cs using List.reverseRecOn with
  | nil => exact lastLine_newline pre
  | append_singleton cs c ih =>
    rw [← List.cons_append, ← List.append_assoc]
    by_cases hc : c = '\n'
    · rw [hc, lastLine_newline, lastLine_newline]
    · rw [lastLine_concat _ hc, lastLine_concat _ hc, ih]

/-- The lines before a line feed do not change the column of what stands after it. -/
theorem Position.after_newline (pre cs : List Char) :
    Position.after (pre ++ '\n' :: cs) = (Position.after cs).down (1 + pre.count '\n') := by
  have hlines : (pre ++ '\n' :: cs).count '\n' = pre.count '\n' + (cs.count '\n' + 1) := by
    rw [List.count_append, List.count_cons_self]
  rw [after, after, down, hlines, lastLine_after_newline, Position.mk.injEq]
  exact ⟨by dsimp only; omega, rfl⟩

/-! ## A line feed after a text -/

theorem takeWhile_before {f : Char → Bool} {d : Char} (hd : f d = false) (cs rest : List Char) :
    (cs ++ d :: rest).takeWhile f = cs.takeWhile f := by
  induction cs with
  | nil => rw [List.nil_append, List.takeWhile_cons, hd]; rfl
  | cons c cs ih => rw [List.cons_append, List.takeWhile_cons, List.takeWhile_cons, ih]

/-- A string that its line does not close is not closed on the next. -/
theorem closingQuote?_before_newline (rest : List Char) (cs : List Char) :
    closingQuote? (cs ++ '\n' :: rest) = closingQuote? cs := by
  fun_induction closingQuote? cs
  case case1 => exact closingQuote?_cons (by decide) (by decide) rest
  case case2 => rfl
  case case3 => rw [List.cons_append, List.nil_append, closingQuote?, if_pos rfl]
  case case4 => rw [List.cons_append, List.cons_append, closingQuote?, if_pos rfl]
  case case5 c cs hc ih => rw [List.cons_append, List.cons_append, closingQuote?, if_neg hc, ih]
  case case6 cs _ _ _ => exact closingQuote?_cons (by decide) (by decide) _
  case case7 c cs hq hend hesc hc ih =>
    have hb := ne_backslash hend hesc
    rw [List.cons_append, closingQuote?_cons hq hb, if_neg hc, ih]

namespace Pattern
variable {p : Pattern}

theorem isPrefixOf_before_newline {text : List Char} (h : '\n' ∉ text) (cs rest : List Char) :
    text.isPrefixOf (cs ++ '\n' :: rest) = text.isPrefixOf cs := by
  induction text generalizing cs with
  | nil => rfl
  | cons c text ih =>
    rw [List.mem_cons, not_or] at h
    cases cs with
    | nil =>
      have hc : (c == '\n') = false := beq_eq_false_iff_ne.2 (Ne.symm h.1)
      show ((c == '\n') && text.isPrefixOf rest) = false
      rw [hc, Bool.false_and]
    | cons d cs => rw [List.cons_append, List.isPrefixOf, List.isPrefixOf, ih h.2]

/-- No form but blanks goes beyond the end of a line. -/
theorem matchLength_before_newline (hp : p ∈ table) (hblanks : p ≠ .blanks) (cs rest : List Char) :
    p.matchLength (cs ++ '\n' :: rest) = p.matchLength cs := by
  cases p with
  | blanks => exact absurd rfl hblanks
  | numeral => rw [matchLength, matchLength, takeWhile_before (by decide)]
  | mark k t =>
    have ht : '\n' ∉ t.toList := by
      simpa using of_mark_mem (fun _ t => !t.toList.contains '\n') (by decide) hp
    rw [matchLength, matchLength, isPrefixOf_before_newline ht]
  | word =>
    cases cs with
    | nil => rfl
    | cons c cs => rw [List.cons_append, matchLength, matchLength, takeWhile_before (by decide)]
  | comment =>
    cases cs with
    | nil => rfl
    | cons c cs =>
      by_cases hc : c = '$'
      · rw [hc, List.cons_append, matchLength, matchLength, takeWhile_before (by decide)]
      · simp [matchLength, hc]
  | quoted =>
    cases cs with
    | nil => rfl
    | cons c cs =>
      by_cases hc : c = '"'
      · rw [hc, List.cons_append, matchLength, matchLength, closingQuote?_before_newline]
      · simp [matchLength, hc]

/-- A text that does not end begins as it does with a line feed and more after it. -/
theorem first?_before_newline {cs : List Char} (hne : cs ≠ []) (rest : List Char) :
    first? (cs ++ '\n' :: rest) = first? cs := by
  have hsame : ∀ p ∈ table, (0 < p.matchLength (cs ++ '\n' :: rest) ↔ 0 < p.matchLength cs) := by
    intro p hp
    by_cases hblanks : p = .blanks
    · -- blanks may go on after the line feed, but they begin in both texts or in none
      obtain ⟨c, cs, rfl⟩ := List.exists_cons_of_ne_nil hne
      by_cases hc : isBlank c = true <;> simp [hblanks, matchLength, hc]
    · rw [matchLength_before_newline hp hblanks]
  rw [first?, first?]
  exact List.find?_congr fun p hp => decide_eq_decide.2 (hsame p hp)

end Pattern

/-! ## The two halves of a text -/

namespace Stretch
variable {p : Pattern} {text rest : List Char}

/-- A stretch of blanks is all the blanks that there are. -/
theorem blanks_iff : Stretch .blanks text rest ↔
    text ≠ [] ∧ text.all isBlank = true ∧ ∀ d ∈ rest.head?, isBlank d = false := by
  constructor
  · intro h
    exact ⟨h.ne_nil, all_of_takeWhile_append h.matchLength⟩
  · rintro ⟨hne, hall, hend⟩
    obtain ⟨c, text, rfl⟩ := List.exists_cons_of_ne_nil hne
    refine ⟨Pattern.longest_iff.2 ⟨Pattern.first?_blank ?_ _, ?_⟩, nofun⟩
    · exact List.all_eq_true.1 hall c List.mem_cons_self
    · rw [Pattern.matchLength, takeWhile_append rest hall hend]

/-- Any other stretch ends on its line, whatever follows that. -/
theorem before_newline (h : Stretch p text rest) (hblanks : p ≠ .blanks) (others : List Char) :
    Stretch p text (rest ++ '\n' :: others) := by
  obtain ⟨hfirst, hlen⟩ := Pattern.longest_iff.1 h.longest
  have hne : text ++ rest ≠ [] := fun hnil => h.ne_nil (List.append_eq_nil_iff.1 hnil).1
  refine ⟨?_, h.fits⟩
  rw [← List.append_assoc, Pattern.longest_iff, Pattern.first?_before_newline hne,
    Pattern.matchLength_before_newline h.longest.mem hblanks]
  exact ⟨hfirst, hlen⟩

end Stretch

/-- Where the scanner is stuck it is stuck with more lines to come. -/
theorem Stuck.before_newline {before cs : List Char} {e : SyntaxError} (h : Stuck before cs e)
    (others : List Char) : Stuck before (cs ++ '\n' :: others) e := by
  cases h with
  | @unrecognised c rest h =>
    have hfirst := Pattern.first?_before_newline (List.cons_ne_nil c rest) others
    exact .unrecognised (Pattern.first?_eq_none_iff.1 (hfirst.trans (Pattern.first?_eq_none_iff.2 h)))
  | @tooLarge digits rest hne hdigits hend h =>
    rw [List.append_assoc]
    refine .tooLarge hne hdigits ?_ h
    cases rest with
    | nil =>
      rintro d ⟨⟩
      decide
    | cons c rest => exact hend

/-- Where the scanner is stuck, it is stuck with more lines before. -/
theorem Stuck.movedDown (pre : List Char) {before cs : List Char} {e : SyntaxError} (h : Stuck before cs e) :
    Stuck (pre ++ '\n' :: before) cs (e.move (.down (1 + pre.count '\n'))) := by
  cases h with
  | unrecognised h =>
    rw [SyntaxError.move, ← Position.after_newline]
    exact .unrecognised h
  | tooLarge hne hdigits hend h =>
    rw [SyntaxError.move, ← Position.after_newline]
    exact .tooLarge hne hdigits hend h

/-- The scanner is not stuck at a blank. -/
theorem Stuck.not_blanks {before cs : List Char} {e : SyntaxError} (h : Stuck before cs e) :
    Pattern.first? cs ≠ some .blanks := by
  intro hblanks
  cases h with
  | unrecognised h =>
    rw [Pattern.first?_eq_none_iff.2 h] at hblanks
    cases hblanks
  | tooLarge hne hdigits hend h =>
    obtain ⟨d, ds, rfl⟩ := List.exists_cons_of_ne_nil hne
    have hd := List.all_eq_true.1 hdigits d List.mem_cons_self
    rw [List.cons_append, Pattern.first?_numeral hd] at hblanks
    cases hblanks

namespace LongestScan
variable {before cs : List Char} {result : Except SyntaxError (List Token)}

/-- What is made of a text after more lines is the same, further down. -/
theorem movedDown (pre : List Char) (h : LongestScan before cs result) :
    LongestScan (pre ++ '\n' :: before) cs (BaseLang.movedDown (1 + pre.count '\n') result) := by
  induction h with
  | finish before =>
    have hend := LongestScan.finish (pre ++ '\n' :: before)
    rwa [Position.after_newline] at hend
  | stuck h => exact .stuck (h.movedDown pre)
  | @stretch p before text rest kind? result hp hkind _ ih =>
    rw [← List.cons_append, ← List.append_assoc] at ih
    have hstretch := LongestScan.stretch hp hkind ih
    have htoken : tokenAfter (pre ++ '\n' :: before) text =
        Token.move (.down (1 + pre.count '\n')) ∘ tokenAfter before text := by
      funext k
      rw [tokenAfter, Position.after_newline]
      rfl
    rwa [htoken, ← Option.map_map, BaseLang.movedDown, ← moved_stretch] at hstretch

/-- A blank before a text adds nothing: it is a stretch of its own or lengthens the one with which
the text begins. -/
theorem blank {b : Char} (hb : isBlank b = true) (h : LongestScan (before ++ [b]) cs result) :
    LongestScan before (b :: cs) result := by
  by_cases hcs : ∃ c rest, cs = c :: rest ∧ isBlank c = true
  · obtain ⟨c, rest, rfl, hc⟩ := hcs
    have hfirst := Pattern.first?_blank hc rest
    generalize hcs : c :: rest = cs at h hfirst
    generalize hbefore : before ++ [b] = before' at h
    cases h with
    | finish => cases hcs
    | stuck h => exact absurd hfirst h.not_blanks
    | @stretch p _ text rest kind? result hp hkind h =>
      have hp' := (Pattern.longest_iff.1 hp.longest).1
      rw [hfirst] at hp'
      cases hp'
      cases hkind
      obtain ⟨-, hall, hend⟩ := Stretch.blanks_iff.1 hp
      have hlonger : Stretch .blanks (b :: text) rest :=
        Stretch.blanks_iff.2 ⟨List.cons_ne_nil b text, by rw [List.all_cons, hb, hall]; rfl, hend⟩
      rw [← hbefore, List.append_assoc] at h
      exact .stretch hlonger (.blanks _) h
  · have hend : ∀ d ∈ cs.head?, isBlank d = false := by
      intro d hd
      obtain ⟨cs, rfl⟩ := List.head?_eq_some_iff.1 hd
      exact Bool.eq_false_iff.2 fun hc => hcs ⟨d, cs, rfl, hc⟩
    have halone : Stretch .blanks [b] cs :=
      Stretch.blanks_iff.2 ⟨List.cons_ne_nil b [], by rw [List.all_cons, hb]; rfl, hend⟩
    have hstretch := LongestScan.stretch halone (.blanks _) h
    cases result <;> exact hstretch

theorem blanks {text : List Char} (htext : text.all isBlank = true)
    (h : LongestScan (before ++ text) cs result) : LongestScan before (text ++ cs) result := by
  induction text generalizing before with
  | nil => rwa [List.append_nil] at h
  | cons b text ih =>
    rw [List.all_cons, Bool.and_eq_true] at htext
    rw [← List.singleton_append, ← List.append_assoc] at h
    exact blank htext.1 (ih htext.2 h)

/-- The tokens of a text, then those of the lines after it. -/
theorem before_line {others : List Char} {result' : Except SyntaxError (List Token)}
    (h : LongestScan before cs result) (hothers : LongestScan (before ++ (cs ++ ['\n'])) others result') :
    LongestScan before (cs ++ '\n' :: others) (result.bind fun ts => result'.map (ts.dropLast ++ ·)) := by
  induction h with
  | finish before =>
    have hblank := blank (b := '\n') (by decide) hothers
    cases result' <;> exact hblank
  | stuck h => exact .stuck (h.before_newline others)
  | @stretch p before text rest kind? result hp hkind h ih =>
    rw [List.append_assoc, ← List.append_assoc before] at hothers
    have hrest := ih hothers
    rw [List.append_assoc]
    by_cases hblanks : p = .blanks
    · subst hblanks
      cases hkind
      have hall := (Stretch.blanks_iff.1 hp).2.1
      have htext := blanks hall hrest
      cases result <;> exact htext
    · have hstretch := LongestScan.stretch (hp.before_newline hblanks others) hkind hrest
      cases result with
      | error e => exact hstretch
      | ok ts =>
        obtain ⟨tiles, last, -, hts, -⟩ := h.tiled ts rfl
        have hne : ts ≠ [] := by
          rw [hts]
          exact List.append_ne_nil_of_right_ne_nil _ (List.cons_ne_nil _ _)
        cases result' with
        | error e => exact hstretch
        | ok us =>
          dsimp only [Except.bind, Except.map] at hstretch ⊢
          rwa [List.dropLast_append_of_ne_nil hne, List.append_assoc]

end LongestScan

/-- Scanning goes line by line. If a text does not scan, then neither does it with more lines after it,
and the error is the same. If it does, then what the lines after it scan to comes after its tokens, as many
lines further down as the text has, in place of its end of input. All of this has fewer than `2 ^ 32 - 1`
bytes, so that 32 bits are enough for the lines. -/
theorem scan_line_by_line {a b : String} (hsize : utf8Length (a ++ "\n" ++ b).toList < 2 ^ 32 - 1) :
    match scan a with
    | .error e => scan (a ++ "\n" ++ b) = .error e
    | .ok ts => ∃ us stop, ts = us ++ [.endOfInput stop] ∧ (∀ u ∈ us, u.kind ≠ .endOfInput) ∧
        scan (a ++ "\n" ++ b) = (movedDown (1 + a.toList.count '\n') (scan b)).map (us ++ ·) := by
  have hchars : (a ++ "\n" ++ b).toList = a.toList ++ '\n' :: b.toList := by
    rw [String.toList_append, String.toList_append, List.append_assoc]
    rfl
  have hparts := hsize
  rw [hchars, utf8Length_append, utf8Length] at hparts
  have ha : LongestScan [] a.toList (scan a) := scan_longestScan (by omega)
  have hb : LongestScan [] b.toList (scan b) := scan_longestScan (by omega)
  have hlines := ha.before_line (hb.movedDown a.toList)
  rw [← hchars] at hlines
  have hboth := (hlines.tokens_eq _ (Cursor.stands_start _) rfl).trans (hlines.moved_narrow hsize)
  change scan (a ++ "\n" ++ b) = _ at hboth
  cases hscan : scan a with
  | error e => rw [hboth, hscan]; rfl
  | ok ts =>
    obtain ⟨tiles, last, -, hts, htiled⟩ := ha.tiled ts hscan
    refine ⟨tiles.map Tile.token, _, hts, fun u hu => htiled.kind_of_mem hu, ?_⟩
    rw [hboth, hscan, Except.bind, hts, List.dropLast_concat]

/-- A line that ends in a comment, before one with a numeral that is too large. -/
theorem scan_line_by_line_commented :
    utf8Length ("x $" ++ "\n" ++ "y 2147483648").toList < 2 ^ 32 - 1 ∧
      scan ("x $" ++ "\n" ++ "y 2147483648") = .error ⟨.badNumber "2147483648", ⟨2, 3⟩⟩ := by
  have hsize : utf8Length ("x $" ++ "\n" ++ "y 2147483648").toList < 2 ^ 32 - 1 := by decide +kernel
  have hfirst : scan "x $" = .ok [⟨.identifier, "x", ⟨⟨1, 1⟩, ⟨1, 2⟩⟩⟩, .endOfInput ⟨1, 4⟩] := by decide +kernel
  have hsecond : scan "y 2147483648" = .error ⟨.badNumber "2147483648", ⟨1, 3⟩⟩ := by decide +kernel
  have hlines := scan_line_by_line hsize
  rw [hfirst] at hlines
  obtain ⟨us, stop, -, -, hscan⟩ := hlines
  rw [hsecond] at hscan
  exact ⟨hsize, hscan⟩

end BaseLang
