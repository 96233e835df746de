import BaseLang.Proofs.Scanning.LineByLine
import BaseLang.Text.Lines

/-
  The line on which a token stands.

  The scanner counts lines as it moves, and a line is looked up by splitting the source.
  Both mean the same lines: whatever the scanner finds at a position stands in the line of
  that number, behind as many bytes as the column asks.

    1. `Lines.getElem?_split` — the line in which given characters of a text end;
    2. `Solid` — a text that neither begins nor ends with a blank, as the texts of tokens
       (`Stretch.solid`) and what errors quote (`Stuck.exists_solid`) do;
    3. `Spotted` — what the scanner finds at a position of the source, a token or what it
       cannot read;
    4. `TextAt` — a text in its line, and `textAt_after`: a solid text stands where the
       characters before it end;
    5. `scan_textAt` — so do all tokens of a source, and what the error quotes if it does
       not scan.
-/

namespace BaseLang

/-! ## Lines -/

namespace Lines

theorem split_cons_newline (cs : List Char) : split ('\n' :: cs) = [] :: split cs := by
  rw [split, if_pos rfl]

/-- A character that is no line feed comes first on the first line. -/
theorem split_cons {c : Char} (hc : c ≠ '\n') (cs : List Char) :
    split (c :: cs) = (split cs).modifyHead (c :: ·) := by
  rw [split, if_neg hc]
  cases hlines : split cs with
  | nil => exact absurd hlines (split_ne_nil cs)
  | cons line lines => rfl

theorem split_append_newline (as bs : List Char) :
    split (as ++ '\n' :: bs) = split as ++ split bs := by
  induction as with
  | nil => exact split_cons_newline bs
  | cons c as ih =>
    by_cases hc : c = '\n'
    · rw [hc, List.cons_append, split_cons_newline, split_cons_newline, ih, List.cons_append]
    · rw [List.cons_append, split_cons hc, split_cons hc, ih]
      cases hlines : split as with
      | nil => exact absurd hlines (split_ne_nil as)
      | cons line lines => rfl

/-- Every line feed ends a line, and one more line comes after the last of them. -/
theorem length_split (cs : List Char) : (split cs).length = cs.count '\n' + 1 := by
  induction cs with
  | nil => rfl
  | cons c cs ih =>
    by_cases hc : c = '\n'
    · rw [hc, split_cons_newline, List.length_cons, ih, List.count_cons_self]
    · rw [split_cons hc, List.length_modifyHead, ih, List.count_cons_of_ne hc]

theorem head?_split (cs : List Char) : (split cs).head? = some (cs.takeWhile (· != '\n')) := by
  induction cs with
  | nil => rfl
  | cons c cs ih =>
    by_cases hc : c = '\n'
    · rw [hc, split_cons_newline]
      rfl
    · rw [split_cons hc, List.head?_modifyHead, ih,
        List.takeWhile_cons_of_pos (p := (· != '\n')) (bne_iff_ne.2 hc)]
      rfl

/-- As many lines come before the end of the first characters as they hold line feeds. The
line there goes on to the next line feed. -/
theorem getElem?_split (before rest : List Char) :
    (split (before ++ rest))[before.count '\n']? =
      some (lastLine before ++ rest.takeWhile (· != '\n')) := by
  induction before using List.reverseRecOn generalizing rest with
  | nil => exact List.head?_eq_getElem?.symm.trans (head?_split rest)
  | append_singleton before c ih =>
    rw [List.append_assoc, List.singleton_append]
    by_cases hc : c = '\n'
    · rw [hc, split_append_newline, lastLine_newline, List.count_append, List.count_singleton_self,
        ← length_split, List.getElem?_append_right (Nat.le_refl _), Nat.sub_self,
        ← List.head?_eq_getElem?, head?_split, List.nil_append]
    · have hcount : [c].count '\n' = 0 := List.count_eq_zero.2 (by simpa using Ne.symm hc)
      rw [List.count_append, hcount, Nat.add_zero, ih, lastLine_concat before hc,
        List.takeWhile_cons_of_pos (p := (· != '\n')) (bne_iff_ne.2 hc), List.append_assoc,
        List.singleton_append]

/-! ## The ends of lines -/

variable {p : Char → Bool}

theorem dropEndWhile_cons {c : Char} (hc : p c = false) (cs : List Char) :
    dropEndWhile p (c :: cs) = c :: dropEndWhile p cs := by
  rw [dropEndWhile]
  cases dropEndWhile p cs with
  | nil => simp only [hc, Bool.false_eq_true, if_false]
  | cons _ _ => rfl

theorem dropEndWhile_append (cs : List Char) {ds : List Char} (hds : dropEndWhile p ds ≠ []) :
    dropEndWhile p (cs ++ ds) = cs ++ dropEndWhile p ds := by
  induction cs with
  | nil => rfl
  | cons c cs ih =>
    rw [List.cons_append, dropEndWhile, ih, List.cons_append]
    cases hkept : cs ++ dropEndWhile p ds with
    | nil => exact absurd (List.append_eq_nil_iff.1 hkept).2 hds
    | cons _ _ => rfl

/-- Nothing is dropped up to a character that is kept. -/
theorem dropEndWhile_concat (cs : List Char) {c : Char} (hc : p c = false) (rest : List Char) :
    dropEndWhile p (cs ++ c :: rest) = cs ++ c :: dropEndWhile p rest := by
  rw [dropEndWhile_append cs (by rw [dropEndWhile_cons hc]; exact List.cons_ne_nil _ _), dropEndWhile_cons hc]

end Lines

/-! ## Texts without blanks at their ends -/

/-- The text has a first and a last character, and neither is blank. -/
structure Solid (text : List Char) : Prop where
  first : ∃ c cs, text = c :: cs ∧ isBlank c = false
  last : ∃ cs c, text = cs ++ [c] ∧ isBlank c = false

theorem Solid.singleton {c : Char} (hc : isBlank c = false) : Solid [c] :=
  ⟨⟨c, [], rfl, hc⟩, ⟨[], c, rfl, hc⟩⟩

theorem Solid.of_all {text : List Char} (hne : text ≠ []) (h : ∀ c ∈ text, isBlank c = false) : Solid text := by
  constructor
  · obtain ⟨c, cs, rfl⟩ := List.exists_cons_of_ne_nil hne
    exact ⟨c, cs, rfl, h c List.mem_cons_self⟩
  · obtain ⟨cs, c, rfl⟩ := (List.eq_nil_or_concat' text).resolve_left hne
    exact ⟨cs, c, rfl, h c (List.mem_append_right _ List.mem_cons_self)⟩

/-- Nothing of a solid text is dropped from the end of a line. -/
theorem Solid.dropEndWhile {p : Char → Bool} {text : List Char} (h : Solid text)
    (hp : ∀ c, isBlank c = false → p c = false) (cs rest : List Char) :
    Lines.dropEndWhile p (cs ++ (text ++ rest)) = cs ++ (text ++ Lines.dropEndWhile p rest) := by
  obtain ⟨text, c, rfl, hc⟩ := h.last
  have hkept := Lines.dropEndWhile_concat (cs ++ text) (hp c hc) rest
  simpa only [List.append_assoc, List.singleton_append] using hkept

theorem not_blank_of_isDigit {c : Char} (h : c.isDigit = true) : isBlank c = false :=
  Pattern.not_blank (by have := Pattern.isDigit_range h; omega)

theorem not_blank_of_isWordPart {c : Char} (h : isWordPart c = true) : isBlank c = false := by
  rw [isWordPart, Bool.or_eq_true] at h
  rcases h with h | h
  · exact Pattern.not_blank (by have := Pattern.isWordStart_range h; omega)
  · exact not_blank_of_isDigit h

/-- What closes a string is a quote. -/
theorem closingQuote_last {cs : List Char} {n : Nat} (h : closingQuote? cs = some n) :
    ∃ ds, cs.take n = ds ++ ['"'] := by
  fun_induction closingQuote? cs generalizing n
  case case1 => cases h
  case case2 =>
    cases h
    exact ⟨[], rfl⟩
  case case3 => cases h
  case case4 => cases h
  case case5 c cs hc ih =>
    obtain ⟨k, hk, rfl⟩ := Option.map_eq_some_iff.1 h
    obtain ⟨ds, hds⟩ := ih hk
    exact ⟨'\\' :: c :: ds, by rw [List.take_succ_cons, List.take_succ_cons, hds]; rfl⟩
  case case6 => cases h
  case case7 c cs _ _ _ hc ih =>
    obtain ⟨k, hk, rfl⟩ := Option.map_eq_some_iff.1 h
    obtain ⟨ds, hds⟩ := ih hk
    exact ⟨c :: ds, by rw [List.take_succ_cons, hds]; rfl⟩

namespace Stretch
variable {p : Pattern} {text rest : List Char}

theorem word_solid (hp : Stretch .word text rest) : Solid text := by
  obtain ⟨c, cs, rfl, hc, hcs⟩ := hp.word_parts
  refine .of_all (List.cons_ne_nil _ _) fun d hd => not_blank_of_isWordPart ?_
  rcases List.mem_cons.1 hd with rfl | hd
  · rw [isWordPart, hc, Bool.true_or]
  · exact List.all_eq_true.1 hcs d hd

theorem quoted_solid (hp : Stretch .quoted text rest) : Solid text := by
  obtain ⟨cs, rfl, hclose⟩ := hp.quoted_parts
  obtain ⟨inner, hinner⟩ := closingQuote_last hclose
  rw [List.take_left] at hinner
  exact ⟨⟨'"', cs, rfl, by decide⟩, ⟨'"' :: inner, '"', by rw [hinner]; rfl, by decide⟩⟩

/-- The text of a token neither begins nor ends with a blank. -/
theorem solid {k : TokenKind} (hp : Stretch p text rest) (hk : Makes p text (some k)) : Solid text := by
  cases hk with
  | reserved _ => exact hp.word_solid
  | identifier _ => exact hp.word_solid
  | numeral =>
    have hall := (all_of_takeWhile_append hp.matchLength).1
    exact .of_all hp.ne_nil fun c hc => not_blank_of_isDigit (List.all_eq_true.1 hall c hc)
  | quoted => exact hp.quoted_solid
  | mark _ t =>
    have hblank := Pattern.of_mark_mem (fun _ t => t.toList.all fun c => !isBlank c) (by decide) hp.longest.mem
    exact .of_all hp.ne_nil fun c hc => by simpa using List.all_eq_true.1 hblank c hc

end Stretch

/-- Every token of a text is a stretch of it, but for the end of the input. -/
theorem LongestScan.exists_stretch {before cs : List Char} {result : Except SyntaxError (List Token)}
    (h : LongestScan before cs result) : ∀ ts, result = .ok ts → ∀ t ∈ ts, t.kind ≠ .endOfInput →
      ∃ p pre text rest k, before ++ cs = pre ++ (text ++ rest) ∧ Stretch p text rest ∧
        Makes p text (some k) ∧ t = tokenAfter pre text k := by
  induction h with
  | finish before =>
    rintro _ ⟨⟩ t ht hkind
    rw [List.mem_singleton.1 ht] at hkind
    exact absurd rfl hkind
  | stuck => nofun
  | @stretch p before text rest kind? result hp hk _ ih =>
    intro ts hts t ht hkind
    cases result with
    | error e => cases hts
    | ok others =>
      cases hts
      rcases List.mem_append.1 ht with ht | ht
      · obtain ⟨k, rfl, rfl⟩ := Option.map_eq_some_iff.1 (Option.mem_toList.1 ht)
        exact ⟨p, before, text, rest, k, rfl, hp, hk, rfl⟩
      · obtain ⟨q, pre, text', rest', k, hsplit, hstretch⟩ := ih _ rfl t ht hkind
        exact ⟨q, pre, text', rest', k, by rw [← hsplit, List.append_assoc], hstretch⟩

/-- What an error quotes: a character, or the digits of a numeral. -/
def SyntaxError.Cause.Quotes (text : List Char) : SyntaxError.Cause → Prop
  | .unrecognised token => ∃ c, text = [c] ∧ token = String.singleton c
  | .badNumber token => text ≠ [] ∧ text.all Char.isDigit = true ∧ token = String.ofList text
  | _ => False

theorem SyntaxError.Cause.Quotes.eq {cause : SyntaxError.Cause} {text text' : List Char}
    (h : cause.Quotes text) (h' : cause.Quotes text') : text = text' := by
  cases cause with
  | unrecognised token =>
    obtain ⟨c, rfl, rfl⟩ := h
    obtain ⟨d, rfl, hd⟩ := h'
    rw [String.singleton_eq_ofList, String.singleton_eq_ofList] at hd
    exact String.ofList_injective hd
  | badNumber token =>
    obtain ⟨-, -, rfl⟩ := h
    obtain ⟨-, -, hdigits⟩ := h'
    exact String.ofList_injective hdigits
  | unexpected _ | unexpectedWith _ _ | invalidTarget | invalidStatement => exact h.elim

/-- Where the scanner is stuck, what the error quotes comes next. -/
theorem Stuck.exists_solid {before cs : List Char} {e : SyntaxError} (h : Stuck before cs e) :
    ∃ text rest, cs = text ++ rest ∧ e.position = .after before ∧ e.cause.Quotes text ∧ Solid text ∧
      '\n' ∉ text := by
  cases h with
  | @unrecognised c rest hnone =>
    have hblank : isBlank c = false := by
      rw [← Bool.not_eq_true]
      intro hc
      have hfirst := Pattern.first?_blank hc rest
      rw [Pattern.first?_eq_none_iff.2 hnone] at hfirst
      cases hfirst
    refine ⟨[c], rest, rfl, rfl, ⟨c, rfl, rfl⟩, .singleton hblank, ?_⟩
    rw [List.mem_singleton]
    rintro rfl
    cases hblank
  | @tooLarge digits rest hne hdigits _ _ =>
    refine ⟨digits, rest, rfl, rfl, ⟨hne, hdigits, rfl⟩, ?_, newline_not_mem_of_all (by decide) hdigits⟩
    exact .of_all hne fun c hc => not_blank_of_isDigit (List.all_eq_true.1 hdigits c hc)

/-! ## What the scanner finds -/

/-- At the position the scanner finds this text: that of a token, or what the error quotes
if it stops there. -/
inductive Spotted (source : String) : Position → List Char → Prop
  | token {ts t} (h : scan source = .ok ts) (ht : t ∈ ts) (hkind : t.kind ≠ .endOfInput) :
    Spotted source t.start t.text.toList
  | stopped {e text} (h : scan source = .error e) (hquotes : e.cause.Quotes text) :
    Spotted source e.position text

/-- It is solid, does not cross the end of a line, and comes where the position says. -/
theorem Spotted.exists_split {source : String} {p : Position} {text : List Char}
    (hsize : utf8Length source.toList < 2 ^ 32 - 1) (h : Spotted source p text) :
    ∃ before rest, source.toList = before ++ (text ++ rest) ∧ p = .after before ∧ Solid text ∧ '\n' ∉ text := by
  have hscan : LongestScan [] source.toList (scan source) := scan_longestScan hsize
  cases h with
  | token h ht hkind =>
    obtain ⟨p, before, text, rest, k, hsplit, hp, hk, rfl⟩ := hscan.exists_stretch _ h _ ht hkind
    have htext : (tokenAfter before text k).text.toList = text := String.toList_ofList
    rw [htext]
    exact ⟨before, rest, hsplit, rfl, hp.solid hk, hp.on_line hk⟩
  | stopped h hquotes =>
    obtain ⟨before, cs, hreached, hstuck⟩ := hscan.exists_stuck _ h .start
    obtain ⟨text', rest, rfl, hposition, hquotes', hsolid, hline⟩ := hstuck.exists_solid
    rw [hquotes.eq hquotes']
    exact ⟨before, rest, hreached.cursor.1, hposition, hsolid, hline⟩

/-! ## Texts in their lines -/

/-- The text stands in the source at the position: in the line of that number, behind as
many bytes as the column asks, which counts from one. -/
def TextAt (source : String) (p : Position) (text : List Char) : Prop :=
  ∃ line before rest, Lines.line? source p.line = some line ∧ line.toList = before ++ (text ++ rest) ∧
    p.column = utf8Length before + 1

theorem takeWhile_append_of_not_mem {cs : List Char} (h : '\n' ∉ cs) (rest : List Char) :
    (cs ++ rest).takeWhile (· != '\n') = cs ++ rest.takeWhile (· != '\n') :=
  List.takeWhile_append_of_pos fun _ hc => bne_iff_ne.2 fun heq => h (heq ▸ hc)

/-- A solid text stands where the characters before it end. -/
theorem textAt_after {source : String} {before text rest : List Char}
    (hsource : source.toList = before ++ (text ++ rest)) (hline : '\n' ∉ text) (hsolid : Solid text) :
    TextAt source (.after before) text := by
  have hreturn : ∀ c, isBlank c = false → (c == '\r') = false := by
    intro c hc
    rw [beq_eq_false_iff_ne]
    rintro rfl
    cases hc
  have hshown : Lines.line? source (Position.after before).line =
      some (String.ofList (lastLine before ++
        (text ++ Lines.dropEndWhile (· == '\r') (rest.takeWhile (· != '\n'))))) := by
    rw [Position.after, Nat.add_comm, Lines.line?, hsource, Lines.getElem?_split,
      takeWhile_append_of_not_mem hline, Option.map_some, hsolid.dropEndWhile hreturn]
  exact ⟨_, lastLine before, _, hshown, String.toList_ofList, Nat.add_comm _ _⟩

theorem Spotted.textAt {source : String} {p : Position} {text : List Char}
    (hsize : utf8Length source.toList < 2 ^ 32 - 1) (h : Spotted source p text) : TextAt source p text := by
  obtain ⟨before, rest, hsource, rfl, hsolid, hline⟩ := h.exists_split hsize
  exact textAt_after hsource hline hsolid

/-- The lines of the scanner are those of the source. Every token stands in the line that
its position names, behind as many bytes as the column asks; if the source does not scan,
so does the character or the run of digits that the error quotes. The source has fewer than
`2 ^ 32 - 1` bytes, so that 32 bits are enough for the positions. -/
theorem scan_textAt {source : String} (hsize : utf8Length source.toList < 2 ^ 32 - 1) :
    match scan source with
    | .ok ts => ∀ t ∈ ts, t.kind ≠ .endOfInput → TextAt source t.start t.text.toList
    | .error e => ∃ text, e.cause.Quotes text ∧ TextAt source e.position text := by
  cases hscan : scan source with
  | ok ts => exact fun t ht hkind => (Spotted.token hscan ht hkind).textAt hsize
  | error e =>
    obtain ⟨before, cs, -, hstuck⟩ := (scan_longestScan hsize).exists_stuck e hscan .start
    obtain ⟨text, -, -, -, hquotes, -⟩ := hstuck.exists_solid
    exact ⟨text, hquotes, (Spotted.stopped hscan hquotes).textAt hsize⟩

/-- Carriage returns at the end of a line, before a line separator that ends none, in a string
and at the end of the source, and characters of two and of three bytes. -/
def returnsSource : String := "$é\r\r\n\u2028\"a\rü\" 7\r"

theorem scan_textAt_returns :
    utf8Length returnsSource.toList < 2 ^ 32 - 1 ∧
      scan returnsSource = .ok [⟨.stringLiteral, "\"a\rü\"", ⟨⟨2, 4⟩, ⟨2, 10⟩⟩⟩,
        ⟨.intLiteral, "7", ⟨⟨2, 11⟩, ⟨2, 12⟩⟩⟩, .endOfInput ⟨2, 13⟩] ∧
      TextAt returnsSource ⟨2, 4⟩ "\"a\rü\"".toList ∧ TextAt returnsSource ⟨2, 11⟩ "7".toList := by
  have hscan : scan returnsSource = .ok [⟨.stringLiteral, "\"a\rü\"", ⟨⟨2, 4⟩, ⟨2, 10⟩⟩⟩,
      ⟨.intLiteral, "7", ⟨⟨2, 11⟩, ⟨2, 12⟩⟩⟩, .endOfInput ⟨2, 13⟩] := by decide +kernel
  have hsize : utf8Length returnsSource.toList < 2 ^ 32 - 1 := by decide +kernel
  have htexts := scan_textAt hsize
  rw [hscan] at htexts
  exact ⟨hsize, hscan, htexts _ List.mem_cons_self nofun, htexts _ (List.mem_cons_of_mem _ List.mem_cons_self) nofun⟩

end BaseLang
