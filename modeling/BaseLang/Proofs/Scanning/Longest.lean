import BaseLang.Proofs.Scanning.Numerals
import BaseLang.Proofs.Scanning.Places
import BaseLang.Proofs.Scanning.Regex

/-
  The scanner takes the longest match.

  The table is searched in its order, but the order decides nothing: the pattern that is
  found has the longest match of all, and no other pattern has one as long.

    1. `Pattern.Longest`, `Pattern.longest_iff` — the pattern with the longest match, which
       is the one that `Pattern.first?` finds;
    2. `Stuck`, `Stretch`, `Makes` — where the scanner stops, and what it makes of a
       stretch of text, in terms of longest matches alone;
    3. `LongestScan` — the scanner that these describe, with counters that never start again,
       and `Reached` — the places to which it comes, a text split in two;
    4. `moved` — what is made of a text, with other positions: the scanner of the language gives
       what `LongestScan` does with every position as 32 bits show it (`Cursor.longestScan_tokens`);
    5. `scan_longestScan` — in a source that is not too long both are the same;
    6. `scan_eq_iff`, `scan_eq_error_iff` — what the scanner gives, and where it fails;
    7. `scan_longest` — the main theorem.
-/

namespace BaseLang

/-! ## The longest match -/

namespace Pattern

/-- Of all patterns of the table this one has the longest match at the start of the text:
what is found has that length, it has no longer match, and every match of another pattern
is shorter. -/
structure Longest (p : Pattern) (n : Nat) (cs : List Char) : Prop where
  mem : p ∈ table
  found : p.regex.find? cs = some n
  longest : ∀ m ∈ p.regex.lengths cs, m ≤ n
  alone : ∀ q ∈ table, q ≠ p → ∀ m ∈ q.regex.lengths cs, m < n

variable {p q : Pattern} {cs : List Char} {n : Nat}

theorem first?_comment (cs : List Char) : first? ('$' :: cs) = some comment := by
  rw [first?, table, List.find?_cons_of_neg (by simp [matchLength, isBlank, blankRanges]),
    List.find?_cons_of_pos (by simp [matchLength])]

/-- A form other than a mark is found wherever it matches. -/
theorem first?_of_matchLength (hq : 0 < q.matchLength cs) (hmark : ∀ k t, q ≠ mark k t) :
    first? cs = some q := by
  cases q with
  | blanks =>
    cases cs with
    | nil => cases hq
    | cons c cs =>
      by_cases hc : isBlank c = true
      · exact first?_blank hc cs
      · simp [matchLength, hc] at hq
  | comment =>
    cases cs with
    | nil => cases hq
    | cons c cs =>
      by_cases hc : c = '$'
      · exact hc ▸ first?_comment cs
      · simp [matchLength, hc] at hq
  | word =>
    cases cs with
    | nil => cases hq
    | cons c cs =>
      by_cases hc : isWordStart c = true
      · exact first?_word hc cs
      · simp [matchLength, hc] at hq
  | numeral =>
    cases cs with
    | nil => cases hq
    | cons c cs =>
      by_cases hc : c.isDigit = true
      · exact first?_numeral hc cs
      · simp [matchLength, hc] at hq
  | quoted =>
    obtain ⟨ds, n, rfl, hclose⟩ := exists_closingQuote hq
    exact first?_quoted hclose
  | mark k t => exact absurd rfl (hmark k t)

theorem matchLength_mark {k : TokenKind} {t : String} (h : 0 < (mark k t).matchLength cs) :
    t.toList <+: cs ∧ (mark k t).matchLength cs = t.toList.length := by
  rw [matchLength] at h ⊢
  split at h
  · next hpre => exact ⟨List.isPrefixOf_iff_prefix.1 hpre, if_pos hpre⟩
  · cases h

/-- A character with which no other form than a mark can begin. -/
def opensMark (c : Char) : Bool :=
  !isBlank c && c != '$' && !isWordStart c && !c.isDigit && c != '"'

theorem matchLength_of_opensMark {c : Char} (hc : opensMark c = true) (hq : ∀ k t, q ≠ mark k t)
    (cs : List Char) : q.matchLength (c :: cs) = 0 := by
  simp only [opensMark, Bool.and_eq_true, Bool.not_eq_true', bne_iff_ne, ne_eq] at hc
  cases q with
  | mark k t => exact absurd rfl (hq k t)
  | _ => simp [matchLength, hc]

/-- No other form matches where a mark does. -/
theorem exists_mark {k : TokenKind} {t : String} (ht : mark k t ∈ table)
    (hmark : 0 < (mark k t).matchLength cs) (hq : 0 < q.matchLength cs) : ∃ k' t', q = mark k' t' := by
  have hopens : t.toList.head?.any opensMark = true :=
    of_mark_mem (fun _ t => t.toList.head?.any opensMark) (by decide) ht
  obtain ⟨rest, hrest⟩ := (matchLength_mark hmark).1
  cases hchars : t.toList with
  | nil => rw [hchars] at hopens; cases hopens
  | cons c text =>
    rw [hchars] at hopens hrest
    by_contra hother
    have hzero := matchLength_of_opensMark hopens (fun k' t' h => hother ⟨k', t', h⟩) (text ++ rest)
    rw [← List.cons_append, hrest] at hzero
    omega

/-- No mark of the table comes before one that it begins. -/
theorem pairwise_marks : table.Pairwise fun
    | .mark _ t, .mark _ t' => ¬ t.toList <+: t'.toList
    | _, _ => True := by
  have hcheck : table.Pairwise (fun p q => (match p, q with
      | .mark _ t, .mark _ t' => !t.toList.isPrefixOf t'.toList
      | _, _ => true) = true) := by decide +kernel
  refine hcheck.imp fun {p q} h => ?_
  cases p <;> cases q <;> first | trivial | skip
  exact fun hpre => by simp [List.isPrefixOf_iff_prefix.2 hpre] at h

/-- The pattern that is found has a longer match than all others. -/
theorem matchLength_lt (hp : first? cs = some p) (hq : q ∈ table) (hne : q ≠ p) :
    q.matchLength cs < p.matchLength cs := by
  have hppos := matchLength_pos hp
  by_cases hqpos : 0 < q.matchLength cs
  · by_cases hmark : ∀ k t, q ≠ mark k t
    · rw [first?_of_matchLength hqpos hmark] at hp
      exact absurd (Option.some.inj hp) hne
    · obtain ⟨k, t, rfl⟩ : ∃ k t, q = mark k t := by simpa using hmark
      obtain ⟨k', t', rfl⟩ := exists_mark hq hqpos hppos
      obtain ⟨hpre, hlen⟩ := matchLength_mark hqpos
      obtain ⟨hpre', hlen'⟩ := matchLength_mark hppos
      by_contra hless
      -- the mark found begins the other one, which must come later in the table
      have hbegins : t'.toList <+: t.toList := List.prefix_of_prefix_length_le hpre' hpre (by omega)
      obtain ⟨_, before, after, htable, hbefore⟩ := List.find?_eq_some_iff_append.1 hp
      have hpair := pairwise_marks
      rw [htable] at hq hpair
      have hlater := (List.pairwise_cons.1 (List.pairwise_append.1 hpair).2.1).1
      rcases List.mem_append.1 hq with hq | hq
      · simpa [hqpos] using hbefore _ hq
      · rcases List.mem_cons.1 hq with hq | hq
        · exact hne hq
        · exact hlater _ hq hbegins
  · omega

/-- To search in the order of the table is to look for the longest match. -/
theorem longest_iff : p.Longest n cs ↔ first? cs = some p ∧ p.matchLength cs = n := by
  constructor
  · intro h
    have hfound := h.found
    rw [find?_regex h.mem] at hfound
    split at hfound
    · next hpos =>
      cases hfound
      refine ⟨?_, rfl⟩
      cases hq : first? cs with
      | none => simpa [hpos] using List.find?_eq_none.1 hq p h.mem
      | some q =>
        by_contra hne
        have hqne : q ≠ p := fun heq => hne (heq ▸ rfl)
        have hqpos := matchLength_pos hq
        have hqfound := find?_regex (List.mem_of_find?_eq_some hq) cs
        rw [if_pos hqpos] at hqfound
        have hqless := h.alone q (List.mem_of_find?_eq_some hq) hqne _ (List.mem_of_head? hqfound)
        have hpless := matchLength_lt hq h.mem hqne.symm
        omega
    · cases hfound
  · rintro ⟨hp, rfl⟩
    have hmem := List.mem_of_find?_eq_some hp
    refine ⟨hmem, ?_, fun m hm => le_of_mem_lengths hmem hm, fun q hq hne m hm => ?_⟩
    · rw [find?_regex hmem, if_pos (matchLength_pos hp)]
    · exact Nat.lt_of_le_of_lt (le_of_mem_lengths hq hm) (matchLength_lt hp hq hne)

/-- The search fails where no pattern has a match. -/
theorem first?_eq_none_iff : first? cs = none ↔ ∀ p ∈ table, p.regex.lengths cs = [] := by
  have hlengths : ∀ p ∈ table, (p.regex.lengths cs = [] ↔ ¬ 0 < p.matchLength cs) := by
    intro p hp
    rw [← List.head?_eq_none_iff, ← Regex.find?, find?_regex hp]
    split <;> simp [*]
  rw [first?, List.find?_eq_none]
  exact forall₂_congr fun p hp => by rw [hlengths p hp, decide_eq_true_eq]

end Pattern

/-! ## What is made of a text -/

/-- The kind of the token that a match makes, if it makes one: a word has its own kind
exactly if it is reserved, and a mark is matched by its own text. -/
inductive Makes : Pattern → List Char → Option TokenKind → Prop
  | blanks (text) : Makes .blanks text none
  | comment (text) : Makes .comment text none
  | reserved {text kind} (h : (String.ofList text, kind) ∈ TokenKind.reserved) : Makes .word text (some kind)
  | identifier {text} (h : ∀ kind, (String.ofList text, kind) ∉ TokenKind.reserved) :
    Makes .word text (some .identifier)
  | numeral (text) : Makes .numeral text (some .intLiteral)
  | quoted (text) : Makes .quoted text (some .stringLiteral)
  | mark (kind) (text : String) : Makes (.mark kind text) text.toList (some kind)

/-- The longest match before the rest of a text; the value of a numeral has 32 bits. -/
structure Stretch (p : Pattern) (text rest : List Char) : Prop where
  longest : p.Longest text.length (text ++ rest)
  fits : p = .numeral → Nat.ofDigitChars 10 text 0 ≤ 2147483647

/-- After the characters `before` the scanner cannot go on: no pattern has a match, or the
digits up to the next character that is none have too large a value. -/
inductive Stuck (before : List Char) : List Char → SyntaxError → Prop
  | unrecognised {c rest} (h : ∀ p ∈ Pattern.table, p.regex.lengths (c :: rest) = []) :
    Stuck before (c :: rest) ⟨.unrecognised (String.singleton c), .after before⟩
  | tooLarge {digits rest} (hne : digits ≠ []) (hdigits : digits.all Char.isDigit = true)
      (hend : ∀ d ∈ rest.head?, d.isDigit = false) (h : 2147483647 < Nat.ofDigitChars 10 digits 0) :
    Stuck before (digits ++ rest) ⟨.badNumber (String.ofList digits), .after before⟩

/-- The token of that text after the characters `before`. -/
def tokenAfter (before text : List Char) (kind : TokenKind) : Token :=
  let start := Position.after before
  ⟨kind, String.ofList text, start, start.line, start.column + utf8Length text⟩

/-- The scanner that takes the longest match after the characters `before`. -/
inductive LongestScan : List Char → List Char → Except SyntaxError (List Token) → Prop
  | finish (before) : LongestScan before [] (.ok [.endOfInput (.after before)])
  | stuck {before cs e} (h : Stuck before cs e) : LongestScan before cs (.error e)
  | stretch {p before text rest kind? result} (hp : Stretch p text rest) (hkind : Makes p text kind?)
      (h : LongestScan (before ++ text) rest result) :
    LongestScan before (text ++ rest)
      (result.map fun ts => (kind?.map (tokenAfter before text)).toList ++ ts)

def Token.move (f : Position → Position) (t : Token) : Token :=
  { t with span := ⟨f t.span.start, f t.span.stop⟩ }

def SyntaxError.move (f : Position → Position) (e : SyntaxError) : SyntaxError :=
  { e with position := f e.position }

/-- What is made of a text, at other positions. -/
def moved (f : Position → Position) : Except SyntaxError (List Token) → Except SyntaxError (List Token)
  | .ok ts => .ok (ts.map (Token.move f))
  | .error e => .error (e.move f)

/-- The scanner comes to the place between these characters and those. -/
inductive Reached (source : String) : List Char → List Char → Prop
  | start : Reached source [] source.toList
  | stretch {p before text rest} (h : Reached source before (text ++ rest)) (hp : Stretch p text rest) :
    Reached source (before ++ text) rest

/-! ## The scanner -/

theorem TokenKind.ofWord_of_mem {w : String} {k : TokenKind} (h : (w, k) ∈ reserved) : ofWord w = k := by
  have hlookup : ∀ e ∈ reserved, reserved.lookup e.1 = some e.2 := by decide
  rw [ofWord, hlookup _ h]
  rfl

theorem Makes.kind?_eq {p : Pattern} {text : List Char} {kind? : Option TokenKind}
    (h : Makes p text kind?) : p.kind? text = kind? := by
  cases h with
  | reserved h => rw [Pattern.kind?, TokenKind.ofWord_of_mem h]
  | identifier h =>
    have hnone : TokenKind.reserved.lookup (String.ofList text) = none := by
      rw [List.lookup_eq_none_iff]
      rintro ⟨w, k⟩ hmem
      rw [bne_iff_ne]
      rintro rfl
      exact h k hmem
    rw [Pattern.kind?, TokenKind.ofWord, hnone]
    rfl
  | _ => rfl

theorem makes_kind? {p : Pattern} {text rest : List Char} (hp : Stretch p text rest) :
    Makes p text (p.kind? text) := by
  obtain ⟨hfirst, hlen⟩ := Pattern.longest_iff.1 hp.longest
  cases p with
  | blanks => exact .blanks text
  | comment => exact .comment text
  | numeral => exact .numeral text
  | quoted => exact .quoted text
  | word =>
    rw [Pattern.kind?, TokenKind.ofWord]
    cases hlookup : TokenKind.reserved.lookup (String.ofList text) with
    | none =>
      refine .identifier fun kind hmem => ?_
      simpa using List.lookup_eq_none_iff.1 hlookup _ hmem
    | some kind =>
      obtain ⟨before, after, hreserved, _⟩ := List.lookup_eq_some_iff.1 hlookup
      exact .reserved (by rw [hreserved]; exact List.mem_append_right _ List.mem_cons_self)
  | mark kind t =>
    obtain ⟨hpre, hmark⟩ := Pattern.matchLength_mark (Pattern.matchLength_pos hfirst)
    have htext : t.toList = text :=
      (List.prefix_of_prefix_length_le hpre (List.prefix_append text rest) (by omega)).eq_of_length (by omega)
    rw [← htext]
    exact .mark kind t

theorem Stretch.ne_nil {p : Pattern} {text rest : List Char} (hp : Stretch p text rest) : text ≠ [] := by
  obtain ⟨hfirst, hlen⟩ := Pattern.longest_iff.1 hp.longest
  have hpos := Pattern.matchLength_pos hfirst
  exact List.ne_nil_of_length_pos (hlen ▸ hpos)

/-- The digits of a numeral are all that there are. -/
theorem Pattern.Longest.digits {text rest : List Char}
    (hp : Pattern.numeral.Longest text.length (text ++ rest)) :
    text ≠ [] ∧ text.all Char.isDigit = true ∧ ∀ d ∈ rest.head?, d.isDigit = false := by
  obtain ⟨hfirst, hlen⟩ := Pattern.longest_iff.1 hp
  have hpos := Pattern.matchLength_pos hfirst
  exact ⟨List.ne_nil_of_length_pos (hlen ▸ hpos), all_of_takeWhile_append hlen⟩

/-- A text that does not end is one where the scanner is stuck, or begins with a longest
match. -/
theorem stuck_or_stretch (before : List Char) {cs : List Char} (hne : cs ≠ []) :
    (∃ e, Stuck before cs e) ∨ ∃ p text rest, cs = text ++ rest ∧ Stretch p text rest := by
  cases hp : Pattern.first? cs with
  | none =>
    cases cs with
    | nil => exact absurd rfl hne
    | cons c cs => exact .inl ⟨_, .unrecognised (Pattern.first?_eq_none_iff.1 hp)⟩
  | some p =>
    have hsplit := (cs.take_append_drop (p.matchLength cs)).symm
    have hlen : (cs.take (p.matchLength cs)).length = p.matchLength cs := by
      rw [List.length_take, Nat.min_eq_left (p.matchLength_le cs)]
    have hlongest : p.Longest (cs.take (p.matchLength cs)).length cs :=
      Pattern.longest_iff.2 ⟨hp, hlen.symm⟩
    generalize cs.take (p.matchLength cs) = text at hsplit hlongest
    generalize cs.drop (p.matchLength cs) = rest at hsplit
    subst hsplit
    by_cases hfits : p = .numeral → Nat.ofDigitChars 10 text 0 ≤ 2147483647
    · exact .inr ⟨p, text, rest, rfl, hlongest, hfits⟩
    · rw [Classical.not_imp, Nat.not_le] at hfits
      obtain ⟨rfl, hlarge⟩ := hfits
      obtain ⟨hne, hdigits, hend⟩ := hlongest.digits
      exact .inl ⟨_, .tooLarge hne hdigits hend hlarge⟩

namespace Cursor
variable {c : Cursor} {before text rest : List Char}

theorem tokens_unrecognised {ch : Char} (hrest : c.rest = ch :: rest) (hp : Pattern.first? c.rest = none) :
    c.tokens = .error ⟨.unrecognised (String.singleton ch), c.position⟩ := by
  rw [tokens]
  split
  · next hc => rw [hrest] at hc; cases hc
  · next d ds hc =>
    rw [hrest] at hc
    cases hc
    split
    · rfl
    · next hq => rw [← hrest, hp] at hq; cases hq

/-- Where the scanner is stuck it fails. -/
theorem tokens_of_stuck {e : SyntaxError} (hc : c.Stands before) (h : Stuck before c.rest e) :
    c.tokens = .error (e.move .narrow) := by
  generalize hcs : c.rest = cs at h
  cases h with
  | unrecognised h =>
    rw [tokens_unrecognised hcs (hcs ▸ Pattern.first?_eq_none_iff.2 h), hc.position]
    rfl
  | @tooLarge digits rest hne hdigits hend h =>
    have htake := takeWhile_append rest hdigits hend
    have hfirst : Pattern.first? c.rest = some .numeral := by
      cases digits with
      | nil => exact absurd rfl hne
      | cons d ds => exact hcs ▸ Pattern.first?_numeral (List.all_eq_true.1 hdigits d List.mem_cons_self) _
    have htext : c.rest.take (Pattern.numeral.matchLength c.rest) = digits := by
      rw [hcs, Pattern.matchLength, htake, List.take_left]
    have hlarge : ¬ (Decimal.int32? digits).isSome := by
      rw [Decimal.int32?_isSome_iff hne hdigits]
      omega
    rw [tokens_of_first? hfirst, htext, Pattern.token?, if_neg hlarge, hc.position]
    rfl

/-- A stretch of text is followed by what comes after it. -/
theorem tokens_of_stretch {p : Pattern} {kind? : Option TokenKind} (hc : c.Stands before)
    (hrest : c.rest = text ++ rest) (hp : Stretch p text rest) (hkind : Makes p text kind?) :
    c.tokens = (c.advance (utf8Length text)).tokens.map fun ts =>
      (kind?.map fun k => (tokenAfter before text k).move .narrow).toList ++ ts := by
  obtain ⟨hfirst, hlen⟩ := Pattern.longest_iff.1 hp.longest
  have htext : c.rest.take (p.matchLength c.rest) = text := by
    rw [hrest, hlen, List.take_left]
  have hfits : p.Fits text := by
    rintro rfl
    obtain ⟨hne, hdigits, _⟩ := hp.longest.digits
    exact (Decimal.int32?_isSome_iff hne hdigits).2 (hp.fits rfl)
  have htoken : (fun k => (tokenAfter before text k).move .narrow) =
      fun k => ⟨k, String.ofList text, c.span (utf8Length text)⟩ := by
    funext k
    rw [Cursor.span, hc.position, Position.narrow_add]
    rfl
  rw [tokens_of_first? (hrest ▸ hfirst), htext, Pattern.token?_of_fits hfits, hkind.kind?_eq, htoken]
  cases (c.advance (utf8Length text)).tokens <;> rfl

end Cursor

theorem moved_stretch (f : Position → Position) (found? : Option Token)
    (result : Except SyntaxError (List Token)) :
    moved f (result.map fun ts => found?.toList ++ ts) =
      (moved f result).map fun ts => (found?.map (Token.move f)).toList ++ ts := by
  cases result with
  | error e => rfl
  | ok ts => cases found? <;> rfl

/-- Longest matches determine what the scanner gives. -/
theorem LongestScan.tokens_eq {before cs : List Char} {result : Except SyntaxError (List Token)}
    (h : LongestScan before cs result) :
    ∀ c : Cursor, c.Stands before → c.rest = cs → c.tokens = moved .narrow result := by
  induction h with
  | finish before =>
    intro c hc hrest
    rw [Cursor.tokens_of_rest_nil hrest, hc.position]
    rfl
  | stuck h => exact fun c hc hrest => Cursor.tokens_of_stuck hc (hrest ▸ h)
  | stretch hp hkind _ ih =>
    intro c hc hrest
    rw [Cursor.tokens_of_stretch hc hrest hp hkind, ih _ (hc.advance hrest) (Cursor.rest_advance hrest),
      moved_stretch, Option.map_map]
    rfl

/-- Every text is scanned by longest matches. -/
theorem exists_longestScan (before cs : List Char) : ∃ result, LongestScan before cs result := by
  induction hn : cs.length using Nat.strongRecOn generalizing before cs with
  | ind n ih =>
    by_cases hne : cs = []
    · subst hne
      exact ⟨_, .finish before⟩
    · rcases stuck_or_stretch before hne with ⟨e, hstuck⟩ | ⟨p, text, rest, rfl, hp⟩
      · exact ⟨_, .stuck hstuck⟩
      · have hpos := List.length_pos_of_ne_nil hp.ne_nil
        rw [List.length_append] at hn
        obtain ⟨result, hresult⟩ := ih rest.length (by omega) (before ++ text) rest rfl
        exact ⟨_, .stretch hp (makes_kind? hp) hresult⟩

/-- The scanner takes longest matches from every cursor on, and shows positions in 32 bits. -/
theorem Cursor.longestScan_tokens {c : Cursor} {before : List Char} (hc : c.Stands before) :
    ∃ result, LongestScan before c.rest result ∧ c.tokens = moved .narrow result := by
  obtain ⟨result, hresult⟩ := exists_longestScan before c.rest
  exact ⟨result, hresult, hresult.tokens_eq c hc rfl⟩

/-! ## Texts that are not too long -/

theorem Stuck.position_eq {before cs : List Char} {e : SyntaxError} (h : Stuck before cs e) :
    e.position = .after before := by
  cases h <;> rfl

theorem move_tokenAfter {before text : List Char} (h : utf8Length (before ++ text) < 2 ^ 32 - 1)
    (k : TokenKind) : (tokenAfter before text k).move .narrow = tokenAfter before text k := by
  obtain ⟨hline, hcolumn⟩ := Position.after_le before
  have hcounter : 2 ^ 32 - 1 < UInt32.size := by decide
  rw [utf8Length_append] at h
  have hstop : Position.narrow ⟨(Position.after before).line, (Position.after before).column + utf8Length text⟩ =
      ⟨(Position.after before).line, (Position.after before).column + utf8Length text⟩ :=
    Position.narrow_of_lt (by dsimp only; omega) (by dsimp only; omega)
  rw [tokenAfter, Token.move, Position.narrow_after (by omega), hstop]

/-- In a text that is not too long 32 bits are enough for every position. -/
theorem LongestScan.moved_narrow {before cs : List Char} {result : Except SyntaxError (List Token)}
    (h : LongestScan before cs result) (hsize : utf8Length (before ++ cs) < 2 ^ 32 - 1) :
    moved .narrow result = result := by
  induction h with
  | finish before =>
    rw [List.append_nil] at hsize
    rw [moved, List.map_singleton, Token.endOfInput, Token.move, Span.empty, Position.narrow_after hsize]
  | @stuck before cs e h =>
    rw [utf8Length_append] at hsize
    rw [moved, SyntaxError.move, h.position_eq, Position.narrow_after (by omega), ← h.position_eq]
  | @stretch p before text rest kind? result hp hkind h ih =>
    have htext : utf8Length (before ++ text) < 2 ^ 32 - 1 := by
      rw [← List.append_assoc, utf8Length_append] at hsize
      omega
    rw [← List.append_assoc] at hsize
    have htoken : Token.move .narrow ∘ tokenAfter before text = tokenAfter before text :=
      funext fun k => move_tokenAfter htext k
    rw [moved_stretch, Option.map_map, htoken, ih hsize]

/-- A source that is not too long is scanned by longest matches. -/
theorem scan_longestScan {source : String} (hsize : utf8Length source.toList < 2 ^ 32 - 1) :
    LongestScan [] source.toList (scan source) := by
  obtain ⟨result, hresult, htokens⟩ := Cursor.longestScan_tokens (Cursor.stands_start source)
  rw [scan, htokens, hresult.moved_narrow hsize]
  exact hresult

/-- A scanner that fails has come to the place where it is stuck. -/
theorem LongestScan.exists_stuck {source : String} {before cs : List Char}
    {result : Except SyntaxError (List Token)} (h : LongestScan before cs result) :
    ∀ e, result = .error e → Reached source before cs → ∃ before rest, Reached source before rest ∧
      Stuck before rest e := by
  induction h with
  | finish => nofun
  | @stuck before cs e h =>
    rintro _ ⟨⟩ hreached
    exact ⟨before, cs, hreached, h⟩
  | @stretch p before text rest kind? result hp hkind h ih =>
    intro e he hreached
    cases result with
    | ok ts => cases he
    | error e' =>
      cases he
      exact ih _ rfl (hreached.stretch hp)

/-- A place to which the scanner comes stands in the source; the scanner fails if it fails
from there on. -/
theorem Reached.cursor {source : String} {before rest : List Char} (h : Reached source before rest) :
    source.toList = before ++ rest ∧ ∃ c : Cursor, c.Stands before ∧ c.rest = rest ∧
      ∀ e, c.tokens = .error e → scan source = .error e := by
  induction h with
  | start => exact ⟨rfl, _, Cursor.stands_start source, rfl, fun _ h => h⟩
  | @stretch p before text rest _ hp ih =>
    obtain ⟨hsource, c, hc, hrest, hfails⟩ := ih
    refine ⟨hsource.trans (List.append_assoc ..).symm, _, hc.advance hrest, Cursor.rest_advance hrest, ?_⟩
    intro e he
    refine hfails e ?_
    rw [Cursor.tokens_of_stretch hc hrest hp (makes_kind? hp), he]
    rfl

section Scanning
variable {source : String} {result : Except SyntaxError (List Token)} {e : SyntaxError}

theorem scan_eq_iff :
    scan source = result ↔ ∃ exact, LongestScan [] source.toList exact ∧ result = moved .narrow exact := by
  constructor
  · rintro rfl
    exact Cursor.longestScan_tokens (Cursor.stands_start source)
  · rintro ⟨exact, h, rfl⟩
    exact h.tokens_eq _ (Cursor.stands_start source) rfl

theorem Reached.scan_eq {before rest : List Char} {stuck : SyntaxError} (hreached : Reached source before rest)
    (hstuck : Stuck before rest stuck) : scan source = .error (stuck.move .narrow) := by
  obtain ⟨-, c, hc, rfl, hfails⟩ := hreached.cursor
  exact hfails _ (Cursor.tokens_of_stuck hc hstuck)

theorem scan_eq_error_iff :
    scan source = .error e ↔
      ∃ before rest stuck, Reached source before rest ∧ Stuck before rest stuck ∧ e = stuck.move .narrow := by
  constructor
  · intro he
    obtain ⟨exact, hexact, hmoved⟩ := scan_eq_iff.1 he
    cases exact with
    | ok ts => cases hmoved
    | error stuck =>
      cases hmoved
      obtain ⟨before, rest, hreached, hstuck⟩ := hexact.exists_stuck stuck rfl .start
      exact ⟨before, rest, stuck, hreached, hstuck, rfl⟩
  · rintro ⟨before, rest, stuck, hreached, hstuck, rfl⟩
    exact hreached.scan_eq hstuck

theorem scan_eq_iff_of_short (hsize : utf8Length source.toList < 2 ^ 32 - 1) :
    scan source = result ↔ LongestScan [] source.toList result := by
  constructor
  · rintro rfl
    exact scan_longestScan hsize
  · intro h
    exact scan_eq_iff.2 ⟨result, h, (h.moved_narrow hsize).symm⟩

theorem scan_eq_error_iff_of_short (hsize : utf8Length source.toList < 2 ^ 32 - 1) :
    scan source = .error e ↔ ∃ before rest, Reached source before rest ∧ Stuck before rest e := by
  constructor
  · intro he
    exact (scan_longestScan hsize).exists_stuck e he .start
  · rintro ⟨before, rest, hreached, hstuck⟩
    rw [hreached.cursor.1] at hsize
    have herror := LongestScan.moved_narrow (.stuck hstuck) hsize
    exact (hreached.scan_eq hstuck).trans herror

end Scanning

/-- The scanner takes the longest match, whatever the order of its table. At every place to
which it comes it takes the pattern with the longest match there; all that it gives is what
longest matches make of the source; and it fails exactly where it comes to a place at which
it is stuck, with the error of that place. Every position is the one that 32 bits show, which is
the position itself if the source has fewer than `2 ^ 32 - 1` bytes. -/
theorem scan_longest (source : String) :
    (∀ before rest, Reached source before rest →
      source.toList = before ++ rest ∧
      ∀ p n, Pattern.first? rest = some p ∧ p.matchLength rest = n ↔ p.Longest n rest) ∧
    (∀ result, scan source = result ↔
      ∃ exact, LongestScan [] source.toList exact ∧ result = moved .narrow exact) ∧
    (∀ e, scan source = .error e ↔
      ∃ before rest stuck, Reached source before rest ∧ Stuck before rest stuck ∧ e = stuck.move .narrow) ∧
    (utf8Length source.toList < 2 ^ 32 - 1 →
      (∀ result, scan source = result ↔ LongestScan [] source.toList result) ∧
      ∀ e, scan source = .error e ↔ ∃ before rest, Reached source before rest ∧ Stuck before rest e) := by
  refine ⟨fun before rest hreached => ⟨hreached.cursor.1, fun p n => Pattern.longest_iff.symm⟩, ?_, ?_, ?_⟩
  · exact fun result => scan_eq_iff
  · exact fun e => scan_eq_error_iff
  · exact fun hsize => ⟨fun result => scan_eq_iff_of_short hsize, fun e => scan_eq_error_iff_of_short hsize⟩

/-- Marks that begin each other, a numeral with more digits than values of 32 bits have, and
one that is too large by one. -/
def crowdedSource : String := "x<<=00000000000017~==2147483648;"

theorem scan_longest_crowded :
    scan crowdedSource = .error ⟨.badNumber "2147483648", ⟨1, 22⟩⟩ ∧
      utf8Length crowdedSource.toList < 2 ^ 32 - 1 ∧ ∃ before rest,
        Reached crowdedSource before rest ∧ Stuck before rest ⟨.badNumber "2147483648", ⟨1, 22⟩⟩ ∧
        crowdedSource.toList = before ++ rest := by
  have hscan : scan crowdedSource = .error ⟨.badNumber "2147483648", ⟨1, 22⟩⟩ := by decide +kernel
  have hsize : utf8Length crowdedSource.toList < 2 ^ 32 - 1 := by decide +kernel
  obtain ⟨hplaces, -, -, hexact⟩ := scan_longest crowdedSource
  obtain ⟨before, rest, hreached, hstuck⟩ := ((hexact hsize).2 _).1 hscan
  exact ⟨hscan, hsize, before, rest, hreached, hstuck, (hplaces before rest hreached).1⟩

end BaseLang
