import BaseLang.Proofs.Scanning.Longest
import Mathlib.Algebra.Group.Nat.Defs

/-
  Tokens tile the source.

  A source that scans is the texts of its tokens in their order, with gaps around them
  that hold nothing but blanks and comments, and every token knows its place exactly.

    1. `Gap` — blanks, and comments that run to the end of their line;
    2. `Tile`, `Tile.Fits`, `Tiled` — a gap with the token after it, and such tiles laid
       one after the other;
    3. `Stretch.gap`, `Stretch.on_line` — a stretch of text without a token adds to a gap, and
       one with a token stays on its line;
    4. `LongestScan.tiled` — so what is made of a text tiles it, and `scan_tiles` — the tokens
       of a source do.
-/

namespace BaseLang

/-! ## Gaps -/

/-- Blanks and comments before the text `rest`. A comment runs to the end of its line:
what comes after it is a line feed, if anything is. -/
inductive Gap (rest : List Char) : List Char → Prop
  | nil : Gap rest []
  | blank {c cs} (hc : isBlank c = true) (h : Gap rest cs) : Gap rest (c :: cs)
  | comment {text cs} (htext : '\n' ∉ text) (hend : ∀ d ∈ (cs ++ rest).head?, d = '\n')
      (h : Gap rest cs) : Gap rest ('$' :: (text ++ cs))

namespace Gap
variable {rest cs text : List Char}

theorem blanks (htext : text.all isBlank = true) (h : Gap rest cs) : Gap rest (text ++ cs) := by
  induction text with
  | nil => exact h
  | cons c text ih =>
    rw [List.all_cons, Bool.and_eq_true] at htext
    exact .blank htext.1 (ih htext.2)

end Gap

/-! ## Tiles -/

/-- A gap and the token after it. -/
structure Tile where
  gap : List Char
  token : Token

def Tile.chars (t : Tile) : List Char := t.gap ++ t.token.text.toList

/-- The tile stands between these characters and those. Its token is no end of input, does
not cross the end of a line, and spans exactly its own bytes. -/
structure Tile.Fits (before : List Char) (t : Tile) (rest : List Char) : Prop where
  gap : Gap (t.token.text.toList ++ rest) t.gap
  kind : t.token.kind ≠ .endOfInput
  text : '\n' ∉ t.token.text.toList
  start : t.token.span.start = .after (before ++ t.gap)
  stop : t.token.span.stop =
    ⟨t.token.span.start.line, t.token.span.start.column + utf8Length t.token.text.toList⟩

/-- The tiles fit one after the other, and what is left after them is a gap. -/
def Tiled (before : List Char) : List Tile → List Char → Prop
  | [], last => Gap [] last
  | t :: tiles, last =>
    t.Fits before (tiles.flatMap Tile.chars ++ last) ∧ Tiled (before ++ t.chars) tiles last

/-- What can be put before every gap can be put before the tiles: it lengthens the first
gap, or the last if there are no tiles. -/
theorem Tiled.lengthen {before text last : List Char} {tiles : List Tile}
    (htext : ∀ cs rest, cs ++ rest = tiles.flatMap Tile.chars ++ last → Gap rest cs → Gap rest (text ++ cs))
    (h : Tiled (before ++ text) tiles last) :
    ∃ tiles' last', tiles'.map Tile.token = tiles.map Tile.token ∧
      tiles'.flatMap Tile.chars ++ last' = text ++ (tiles.flatMap Tile.chars ++ last) ∧
      Tiled before tiles' last' := by
  cases tiles with
  | nil => exact ⟨[], text ++ last, rfl, rfl, htext last [] (List.append_nil last) h⟩
  | cons t tiles =>
    obtain ⟨hfits, hrest⟩ := h
    refine ⟨⟨text ++ t.gap, t.token⟩ :: tiles, last, rfl, ?_, ?_, ?_⟩
    · simp only [List.flatMap_cons, Tile.chars, List.append_assoc]
    · refine ⟨?_, hfits.kind, hfits.text, ?_, hfits.stop⟩
      · refine htext t.gap _ ?_ hfits.gap
        simp only [List.flatMap_cons, Tile.chars, List.append_assoc]
      · rw [hfits.start, List.append_assoc]
    · rw [Tile.chars, List.append_assoc, ← List.append_assoc text] at hrest
      exact hrest

/-- Every token of the tiles stands in the text, where it starts and stops. -/
theorem Tiled.places_of_mem {before last : List Char} {tiles : List Tile} (h : Tiled before tiles last)
    {t : Token} (ht : t ∈ tiles.map Tile.token) :
    ∃ pre post, before ++ (tiles.flatMap Tile.chars ++ last) = pre ++ (t.text.toList ++ post) ∧
      t.span.start = .after pre ∧ t.span.stop = .after (pre ++ t.text.toList) := by
  induction tiles generalizing before with
  | nil => cases ht
  | cons tile tiles ih =>
    obtain ⟨hfits, hrest⟩ := h
    rw [List.map_cons, List.mem_cons] at ht
    rcases ht with rfl | ht
    · refine ⟨before ++ tile.gap, tiles.flatMap Tile.chars ++ last, ?_, hfits.start, ?_⟩
      · simp only [List.flatMap_cons, Tile.chars, List.append_assoc]
      · rw [Position.after_append _ hfits.text, ← hfits.start, hfits.stop]
    · obtain ⟨pre, post, hsplit, hplace⟩ := ih hrest ht
      refine ⟨pre, post, ?_, hplace⟩
      rw [← hsplit]
      simp only [List.flatMap_cons, List.append_assoc]

/-- No token of the tiles is an end of input. -/
theorem Tiled.kind_of_mem {before last : List Char} {tiles : List Tile} (h : Tiled before tiles last)
    {t : Token} (ht : t ∈ tiles.map Tile.token) : t.kind ≠ .endOfInput := by
  induction tiles generalizing before with
  | nil => cases ht
  | cons tile tiles ih =>
    rcases List.mem_cons.1 ht with rfl | ht
    · exact h.1.kind
    · exact ih h.2 ht

/-! ## Stretches -/

/-- A string closes on its own line. -/
theorem Pattern.newline_not_mem_closingQuote {cs : List Char} {n : Nat} (h : closingQuote? cs = some n) :
    '\n' ∉ cs.take n := by
  fun_induction closingQuote? cs generalizing n
  case case1 => cases h
  case case2 =>
    cases h
    simp
  case case3 => cases h
  case case4 => cases h
  case case5 c cs hc ih =>
    obtain ⟨k, hk, rfl⟩ := Option.map_eq_some_iff.1 h
    simp only [List.take_succ_cons, List.mem_cons, not_or]
    exact ⟨by decide, Ne.symm hc, ih hk⟩
  case case6 => cases h
  case case7 c cs _ _ _ hc ih =>
    obtain ⟨k, hk, rfl⟩ := Option.map_eq_some_iff.1 h
    rw [List.take_succ_cons, List.mem_cons, not_or]
    exact ⟨Ne.symm hc, ih hk⟩

/-- No pattern makes an end of input. -/
theorem Pattern.kind?_ne_endOfInput {p : Pattern} {k : TokenKind} {text : List Char} (hp : p ∈ table)
    (hk : p.kind? text = some k) : k ≠ .endOfInput := by
  rintro rfl
  cases p with
  | blanks | comment | numeral | quoted => cases hk
  | word =>
    have hword := TokenKind.isWord_ofWord (String.ofList text)
    rw [Option.some.inj hk] at hword
    cases hword
  | mark k t =>
    cases hk
    cases of_mark_mem (fun k _ => k != .endOfInput) (by decide) hp

theorem newline_not_mem_of_all {f : Char → Bool} {cs : List Char} (hf : f '\n' = false)
    (hall : cs.all f = true) : '\n' ∉ cs := by
  intro hmem
  rw [List.all_eq_true.1 hall _ hmem] at hf
  cases hf

namespace Stretch
variable {p : Pattern} {text tail : List Char}

theorem matchLength (hp : Stretch p text tail) : p.matchLength (text ++ tail) = text.length :=
  (Pattern.longest_iff.1 hp.longest).2

/-- A word is a letter with what can go on with it. -/
theorem word_parts (hp : Stretch .word text tail) :
    ∃ c cs, text = c :: cs ∧ isWordStart c = true ∧ cs.all isWordPart = true := by
  have hlen := hp.matchLength
  obtain ⟨c, cs, rfl⟩ := List.exists_cons_of_ne_nil hp.ne_nil
  rw [List.cons_append, Pattern.matchLength] at hlen
  split at hlen
  · next hc => exact ⟨c, cs, rfl, hc, (all_of_takeWhile_append (Nat.succ.inj hlen)).1⟩
  · cases hlen

/-- A string is a quote with what comes up to the one that closes it. -/
theorem quoted_parts (hp : Stretch .quoted text tail) :
    ∃ cs, text = '"' :: cs ∧ closingQuote? (cs ++ tail) = some cs.length := by
  have hlen := hp.matchLength
  have hpos : 0 < Pattern.quoted.matchLength (text ++ tail) := by
    rw [hlen]
    exact List.length_pos_of_ne_nil hp.ne_nil
  obtain ⟨ds, n, hcs, hclose⟩ := exists_closingQuote hpos
  obtain ⟨c, cs, rfl⟩ := List.exists_cons_of_ne_nil hp.ne_nil
  rw [List.cons_append, List.cons.injEq] at hcs
  obtain ⟨rfl, rfl⟩ := hcs
  rw [List.cons_append, Pattern.matchLength, hclose, List.length_cons] at hlen
  cases Nat.succ.inj hlen
  exact ⟨cs, rfl, hclose⟩

/-- A stretch without a token is blank, or it is a comment to the end of its line. -/
theorem gap (hp : Stretch p text tail) (hk : Makes p text none) {cs rest : List Char}
    (hcs : cs ++ rest = tail) (h : Gap rest cs) : Gap rest (text ++ cs) := by
  have hlen := hp.matchLength
  cases hk with
  | blanks => exact h.blanks (all_of_takeWhile_append hlen).1
  | comment =>
    obtain ⟨c, text, rfl⟩ := List.exists_cons_of_ne_nil hp.ne_nil
    by_cases hc : c = '$'
    · subst hc
      rw [List.cons_append, Pattern.matchLength, List.length_cons] at hlen
      obtain ⟨hall, hend⟩ := all_of_takeWhile_append (Nat.succ.inj hlen)
      refine .comment (newline_not_mem_of_all (by decide) hall) (fun d hd => ?_) h
      rw [hcs] at hd
      simpa using hend d hd
    · simp [Pattern.matchLength, hc] at hlen

theorem word_on_line (hp : Stretch .word text tail) : '\n' ∉ text := by
  obtain ⟨c, cs, rfl, hc, hcs⟩ := hp.word_parts
  rw [List.mem_cons, not_or]
  refine ⟨?_, newline_not_mem_of_all (by decide) hcs⟩
  rintro rfl
  cases hc

theorem quoted_on_line (hp : Stretch .quoted text tail) : '\n' ∉ text := by
  obtain ⟨cs, rfl, hclose⟩ := hp.quoted_parts
  have hline := Pattern.newline_not_mem_closingQuote hclose
  rw [List.take_left] at hline
  rw [List.mem_cons, not_or]
  exact ⟨by decide, hline⟩

/-- A stretch with a token stays on its line. -/
theorem on_line {k : TokenKind} (hp : Stretch p text tail) (hk : Makes p text (some k)) : '\n' ∉ text := by
  cases hk with
  | reserved _ => exact hp.word_on_line
  | identifier _ => exact hp.word_on_line
  | numeral => exact newline_not_mem_of_all (by decide) (all_of_takeWhile_append hp.matchLength).1
  | quoted => exact hp.quoted_on_line
  | mark _ t =>
    simpa using Pattern.of_mark_mem (fun _ t => !t.toList.contains '\n') (by decide) hp.longest.mem

/-- The tile of a stretch with a token, without a gap. -/
theorem fits_tile {k : TokenKind} (hp : Stretch p text tail) (hk : Makes p text (some k))
    (before : List Char) : Tile.Fits before ⟨[], tokenAfter before text k⟩ tail := by
  have htext : (tokenAfter before text k).text.toList = text := String.toList_ofList
  refine ⟨.nil, Pattern.kind?_ne_endOfInput hp.longest.mem hk.kind?_eq, ?_, ?_, ?_⟩
  · rw [htext]
    exact hp.on_line hk
  · rw [List.append_nil]
    rfl
  · rw [htext]
    rfl

end Stretch

/-! ## The scanner -/

/-- The tokens that are made of a text tile it, and the last of them is the end of the
input, where the text ends. -/
theorem LongestScan.tiled {before cs : List Char} {result : Except SyntaxError (List Token)}
    (h : LongestScan before cs result) :
    ∀ ts, result = .ok ts → ∃ tiles last, cs = tiles.flatMap Tile.chars ++ last ∧
      ts = tiles.map Tile.token ++ [.endOfInput (.after (before ++ cs))] ∧ Tiled before tiles last := by
  induction h with
  | finish before =>
    intro ts hts
    cases hts
    exact ⟨[], [], rfl, by rw [List.append_nil]; rfl, .nil⟩
  | stuck => nofun
  | @stretch p before text rest kind? result hp hk _ ih =>
    intro ts hts
    cases result with
    | error e => cases hts
    | ok others =>
      cases hts
      obtain ⟨tiles, last, hrest, rfl, htiled⟩ := ih _ rfl
      rw [← List.append_assoc before]
      cases kind? with
      | none =>
        -- blanks or a comment: the gap after them begins earlier
        obtain ⟨tiles', last', htokens, hchars, htiled'⟩ := htiled.lengthen
          fun cs rest' hcs hgap => hp.gap hk (hcs.trans hrest.symm) hgap
        exact ⟨tiles', last', by rw [hchars, hrest], by rw [htokens]; rfl, htiled'⟩
      | some k =>
        have hchars : Tile.chars ⟨[], tokenAfter before text k⟩ = text := String.toList_ofList
        refine ⟨⟨[], tokenAfter before text k⟩ :: tiles, last, ?_, rfl, ?_, ?_⟩
        · rw [List.flatMap_cons, hchars, List.append_assoc, hrest]
        · rw [← hrest]
          exact hp.fits_tile hk before
        · rw [hchars]
          exact htiled

/-- The tokens of a source tile it. The source is the texts of its tokens in their order,
with gaps before them and after the last; one end of input stands last, where the source
ends; each token starts where the characters before it end and spans its own bytes on one
line. The source has fewer than `2 ^ 32 - 1` bytes, so that 32 bits are enough for every line
and column. -/
theorem scan_tiles {source : String} {ts : List Token} (hsize : utf8Length source.toList < 2 ^ 32 - 1)
    (h : scan source = .ok ts) :
    ∃ tiles last, source.toList = tiles.flatMap Tile.chars ++ last ∧
      ts = tiles.map Tile.token ++ [.endOfInput (.after source.toList)] ∧ Tiled [] tiles last ∧
      ∀ t ∈ ts, t.span.start.line < 2 ^ 32 ∧ t.span.start.column < 2 ^ 32 ∧
        t.span.stop.line < 2 ^ 32 ∧ t.span.stop.column < 2 ^ 32 := by
  obtain ⟨tiles, last, hsource, hts, htiled⟩ := (scan_longestScan hsize).tiled ts h
  refine ⟨tiles, last, hsource, hts, htiled, fun t ht => ?_⟩
  have hplace : ∀ {pre post : List Char}, source.toList = pre ++ post →
      (Position.after pre).line < 2 ^ 32 ∧ (Position.after pre).column < 2 ^ 32 := by
    intro pre post hsplit
    obtain ⟨hline, hcolumn⟩ := Position.after_le pre
    rw [hsplit, utf8Length_append] at hsize
    omega
  rw [hts, List.mem_append, List.mem_singleton] at ht
  rcases ht with ht | rfl
  · obtain ⟨pre, post, hsplit, hstart, hstop⟩ := htiled.places_of_mem ht
    have hwhole : source.toList = pre ++ (t.text.toList ++ post) := hsource.trans hsplit
    obtain ⟨hline, hcolumn⟩ := hplace hwhole
    obtain ⟨hline', hcolumn'⟩ := hplace (hwhole.trans (List.append_assoc ..).symm)
    rw [hstart, hstop]
    exact ⟨hline, hcolumn, hline', hcolumn'⟩
  · obtain ⟨hline, hcolumn⟩ := hplace (List.append_nil source.toList).symm
    exact ⟨hline, hcolumn, hline, hcolumn⟩

/-- A comment that ends with a carriage return, characters of two bytes in it, in a string
and among the blanks, and an empty line. -/
def wideSource : String := "x$é\r\n\n \"ü\".\u00a07"

def wideTokens : List Token :=
  [⟨.identifier, "x", ⟨⟨1, 1⟩, ⟨1, 2⟩⟩⟩, ⟨.stringLiteral, "\"ü\"", ⟨⟨3, 2⟩, ⟨3, 6⟩⟩⟩,
   ⟨.dot, ".", ⟨⟨3, 6⟩, ⟨3, 7⟩⟩⟩, ⟨.intLiteral, "7", ⟨⟨3, 9⟩, ⟨3, 10⟩⟩⟩, .endOfInput ⟨3, 10⟩]

theorem scan_tiles_wide :
    utf8Length wideSource.toList < 2 ^ 32 - 1 ∧ scan wideSource = .ok wideTokens ∧ ∃ tiles last,
      wideSource.toList = tiles.flatMap Tile.chars ++ last ∧
      wideTokens = tiles.map Tile.token ++ [.endOfInput (.after wideSource.toList)] ∧
      Tiled [] tiles last ∧ ∀ t ∈ wideTokens,
        t.span.start.line < 2 ^ 32 ∧ t.span.start.column < 2 ^ 32 ∧
        t.span.stop.line < 2 ^ 32 ∧ t.span.stop.column < 2 ^ 32 := by
  have hscan : scan wideSource = .ok wideTokens := by decide +kernel
  have hsize : utf8Length wideSource.toList < 2 ^ 32 - 1 := by decide +kernel
  exact ⟨hsize, hscan, scan_tiles hsize hscan⟩

end BaseLang
