import BaseLang.Proofs.Scanning.LineByLine

/-
  Tokens start one after the other.

  A token starts just after the characters before it, so the position of each token
  comes after those of the tokens before it:

    1. `Position.before_after_append` — more characters lead to a later position;
    2. `LongestScan.starts` — the starts of what is made of a text, in strict order;
    3. `scan_starts` — so are those of the tokens of a source that is not too long, and all
       of them lie in it;
    4. `scan_spaced` — in a longer source different tokens can start at one position, since
       the counters start again.
-/

namespace BaseLang

namespace Position

theorem not_before_self (p : Position) : ¬ p.before p := by
  unfold before
  omega

/-- More characters lead to a later position: on a later line if there is a line feed
among them, and else to a later column. -/
theorem before_after_append (cs : List Char) {text : List Char} (hne : text ≠ []) :
    (Position.after cs).before (.after (cs ++ text)) := by
  by_cases hline : '\n' ∈ text
  · have hcount : 0 < text.count '\n' := List.count_pos_iff.2 hline
    refine .inl ?_
    simp only [after, List.count_append]
    omega
  · have hbytes : 0 < utf8Length text :=
      Nat.lt_of_lt_of_le (List.length_pos_of_ne_nil hne) (length_le_utf8Length text)
    rw [after_append cs hline]
    exact .inr ⟨rfl, Nat.lt_add_of_pos_right hbytes⟩

/-- The position after some characters lies in the text. -/
theorem after_ne_nowhere (cs : List Char) : Position.after cs ≠ .nowhere := by
  intro h
  have hline := congrArg Position.line h
  simp only [after, nowhere] at hline
  omega

end Position

/-- The tokens that are made of a text start after what stands before it, each before the
next. -/
theorem LongestScan.starts {before cs : List Char} {result : Except SyntaxError (List Token)}
    (h : LongestScan before cs result) : ∀ ts, result = .ok ts →
      (∀ t ∈ ts, ∃ read, t.start = .after (before ++ read)) ∧
        ts.Pairwise fun t u => t.start.before u.start := by
  induction h with
  | finish before =>
    intro ts hts
    cases hts
    refine ⟨fun t ht => ⟨[], ?_⟩, List.pairwise_singleton _ _⟩
    rw [List.mem_singleton.1 ht, List.append_nil]
    rfl
  | stuck => nofun
  | @stretch p before text rest kind? result hp hk _ ih =>
    intro ts hts
    cases result with
    | error e => cases hts
    | ok others =>
      cases hts
      obtain ⟨hstarts, hpairs⟩ := ih _ rfl
      have hfirst : ∀ t ∈ (kind?.map (tokenAfter before text)).toList, t.start = .after before := by
        intro t ht
        obtain ⟨k, -, rfl⟩ := Option.map_eq_some_iff.1 (Option.mem_toList.1 ht)
        rfl
      have hlater : ∀ t ∈ others, ∃ read, read ≠ [] ∧ t.start = .after (before ++ read) := by
        intro t ht
        obtain ⟨read, hread⟩ := hstarts t ht
        exact ⟨text ++ read, List.append_ne_nil_of_left_ne_nil hp.ne_nil _, by rw [hread, List.append_assoc]⟩
      constructor
      · intro t ht
        rcases List.mem_append.1 ht with ht | ht
        · exact ⟨[], by rw [hfirst t ht, List.append_nil]⟩
        · obtain ⟨read, -, hread⟩ := hlater t ht
          exact ⟨read, hread⟩
      · refine List.pairwise_append.2 ⟨?_, hpairs, fun t ht u hu => ?_⟩
        · cases kind? with
          | none => exact .nil
          | some k => exact List.pairwise_singleton _ _
        · -- the stretch has at least one character, so that what follows starts later
          obtain ⟨read, hne, hread⟩ := hlater u hu
          rw [hfirst t ht, hread]
          exact Position.before_after_append before hne

/-- The tokens of a source that is not too long start one after the other, all of them in the text. -/
theorem scan_starts {source : String} {ts : List Token} (hsize : utf8Length source.toList < 2 ^ 32 - 1)
    (h : scan source = .ok ts) :
    (ts.Pairwise fun t u => t.start.before u.start) ∧ ∀ t ∈ ts, t.start ≠ .nowhere := by
  obtain ⟨hstarts, hpairs⟩ := (scan_longestScan hsize).starts ts h
  refine ⟨hpairs, fun t ht => ?_⟩
  obtain ⟨read, hread⟩ := hstarts t ht
  rw [hread]
  exact Position.after_ne_nowhere _

/-! ## Sources that are too long -/

namespace LongestScan
variable {before rest : List Char} {result : Except SyntaxError (List Token)}

/-- A word is followed by what comes after it. -/
theorem word {c : Char} {cs : List Char} (hc : isWordStart c = true) (hcs : cs.all isWordPart = true)
    (hend : ∀ d ∈ rest.head?, isWordPart d = false) (h : LongestScan (before ++ (c :: cs)) rest result) :
    LongestScan before (c :: cs ++ rest)
      (result.map (tokenAfter before (c :: cs) (.ofWord (String.ofList (c :: cs))) :: ·)) := by
  have hlength : Pattern.word.matchLength (c :: (cs ++ rest)) = (c :: cs).length := by
    rw [Pattern.matchLength, if_pos hc, takeWhile_append rest hcs hend, List.length_cons]
  have hp : Stretch .word (c :: cs) rest := ⟨Pattern.longest_iff.2 ⟨Pattern.first?_word hc _, hlength⟩,
    fun h => by cases h⟩
  exact .stretch hp (makes_kind? hp) h

/-- So is a dot. -/
theorem dot (h : LongestScan (before ++ ['.']) rest result) :
    LongestScan before ('.' :: rest) (result.map (tokenAfter before ['.'] .dot :: ·)) := by
  have hfirst : Pattern.first? ('.' :: rest) = some (.mark .dot ".") :=
    Pattern.first?_mark (k := .dot) (t := ".") (by decide) rest (fun d _ => rfl)
  have hp : Stretch (.mark .dot ".") ['.'] rest := ⟨Pattern.longest_iff.2 ⟨hfirst, rfl⟩, fun h => by cases h⟩
  exact .stretch hp (.mark .dot ".") h

end LongestScan

def voidVar : List Char := ['v', 'o', 'i', 'd', ' ', 'x', '.']

def voidTokens (column : Nat) : List Token :=
  [⟨.voidWord, "void", ⟨1, column⟩, ⟨1, column + 4⟩⟩, ⟨.identifier, "x", ⟨1, column + 5⟩, ⟨1, column + 6⟩⟩,
    ⟨.dot, ".", ⟨1, column + 6⟩, ⟨1, column + 7⟩⟩]

theorem LongestScan.voidVar {before rest : List Char} {ts : List Token} (hline : '\n' ∉ before)
    (h : LongestScan (before ++ voidVar) rest (.ok ts)) :
    LongestScan before (BaseLang.voidVar ++ rest) (.ok (voidTokens (1 + utf8Length before) ++ ts)) := by
  have hplace (text : List Char) (htext : '\n' ∉ text) :
      Position.after (before ++ text) = ⟨1, 1 + utf8Length before + utf8Length text⟩ := by
    rw [Position.after_append before htext, ← List.nil_append before, Position.after_append [] hline]
    rfl
  have hdot : LongestScan (before ++ ['v', 'o', 'i', 'd', ' ', 'x']) ('.' :: rest) _ :=
    .dot (by rw [List.append_assoc]; exact h)
  have hname : LongestScan (before ++ ['v', 'o', 'i', 'd', ' ']) ('x' :: '.' :: rest) _ :=
    .word (by decide) (List.all_nil : ([] : List Char).all isWordPart = true)
      (by simp [isWordPart, isWordStart]) (by rw [List.append_assoc]; exact hdot)
  have hblank : LongestScan (before ++ ['v', 'o', 'i', 'd']) (' ' :: 'x' :: '.' :: rest) _ :=
    .blank (by decide) (by rw [List.append_assoc]; exact hname)
  have hvoid : LongestScan before ('v' :: ['o', 'i', 'd'] ++ ' ' :: 'x' :: '.' :: rest) _ :=
    .word (by decide) (by decide) (by simp [isWordPart, isWordStart]) hblank
  have hstart : Position.after before = ⟨1, 1 + utf8Length before⟩ := by
    simpa [utf8Length] using hplace [] List.not_mem_nil
  simp only [Except.map, tokenAfter, hstart, hplace _ (by decide : '\n' ∉ ['v', 'o', 'i', 'd', ' ']),
    hplace _ (by decide : '\n' ∉ ['v', 'o', 'i', 'd', ' ', 'x'])] at hvoid
  exact hvoid

/-- The declaration twice, with so many blanks in between. -/
def spacedSource (blanks : Nat) : String := String.ofList (voidVar ++ (List.replicate blanks ' ' ++ voidVar))

theorem utf8Length_replicate {c : Char} (hc : c.utf8Size = 1) (n : Nat) :
    utf8Length (List.replicate n c) = n := by
  induction n with
  | zero => rfl
  | succ n ih => rw [List.replicate_succ, utf8Length, ih, hc, Nat.add_comm]

theorem newline_not_mem_replicate {c : Char} (hc : '\n' ≠ c) (n : Nat) : '\n' ∉ List.replicate n c :=
  fun h => hc (List.eq_of_mem_replicate h)

/-- Each declaration has the same tokens, at the positions that 32 bits show. -/
theorem scan_spaced (blanks : Nat) :
    scan (spacedSource blanks) = .ok ((voidTokens 1 ++ (voidTokens (8 + blanks) ++
      [Token.endOfInput ⟨1, 15 + blanks⟩])).map (Token.move .narrow)) := by
  have hbefore : '\n' ∉ voidVar ++ List.replicate blanks ' ' := by
    rw [List.mem_append, not_or]
    exact ⟨by decide, newline_not_mem_replicate (by decide) blanks⟩
  have hbytes : utf8Length (voidVar ++ List.replicate blanks ' ') = 7 + blanks := by
    rw [utf8Length_append, utf8Length_replicate (by decide)]
    rfl
  have hplace : Position.after (voidVar ++ List.replicate blanks ' ' ++ voidVar) = ⟨1, 15 + blanks⟩ := by
    rw [Position.after_append _ (by decide), ← List.nil_append (voidVar ++ List.replicate blanks ' '),
      Position.after_append [] hbefore, hbytes, Position.mk.injEq]
    exact ⟨rfl, by change 1 + (7 + blanks) + 7 = 15 + blanks; omega⟩
  have hsecond := LongestScan.voidVar hbefore (.finish _)
  rw [List.append_nil, hplace, hbytes] at hsecond
  have hblanks : LongestScan voidVar (List.replicate blanks ' ' ++ voidVar) _ :=
    .blanks (List.all_eq_true.2 fun c hc => by rw [List.eq_of_mem_replicate hc]; rfl) hsecond
  have hscan : LongestScan [] (voidVar ++ (List.replicate blanks ' ' ++ voidVar)) _ :=
    .voidVar List.not_mem_nil hblanks
  have hfirst := hscan.tokens_eq (.start (spacedSource blanks)) (Cursor.stands_start _) String.toList_ofList
  have hcolumn : 1 + (7 + blanks) = 8 + blanks := by omega
  rw [hcolumn] at hfirst
  exact hfirst

end BaseLang
