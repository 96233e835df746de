import BaseLang.Proofs.Printing.Parsed
import BaseLang.Proofs.Scanning.Longest

/-
  Layout does not matter between tokens.

  Whatever the tokens, spacing between each two of them keeps them apart, and makes no token
  of its own.

    1. `Spacing` — blanks, and comments with the line feed at their end; `Spacing.scans` — it
       adds nothing to a text, and `Spacing.apart` — a token before it ends there;
    2. `Lexeme.Scanned` — what the scanner makes of any source;
    3. `spelled` — lexemes with spacing before each, and `scans_spelled` — what that scans to;
    4. `scan_spelled` — the tokens of such a source.
-/

namespace BaseLang

/-! ## Spacing -/

/-- Blanks and comments. Every comment has its line feed. -/
inductive Spacing : List Char → Prop
  | nil : Spacing []
  | blank {c cs} (hc : isBlank c = true) (h : Spacing cs) : Spacing (c :: cs)
  | comment {text cs} (htext : '\n' ∉ text) (h : Spacing cs) : Spacing ('$' :: (text ++ '\n' :: cs))

/-- No token goes on with a blank or with the dollar sign of a comment. -/
theorem TokenKind.joins_eq_false (k : TokenKind) {d : Char} (hd : isBlank d = true ∨ d = '$') :
    k.joins d = false := by
  -- all characters with which tokens go on can be seen, and none of them is a dollar sign
  have hcode : ¬ (33 ≤ d.toNat ∧ d.toNat ≤ 126) ∨ d = '$' :=
    hd.imp_left fun hblank hcode => by rw [Pattern.not_blank hcode] at hblank; cases hblank
  have hseen : ∀ c : Char, 33 ≤ c.toNat ∧ c.toNat ≤ 126 → c ≠ '$' → (d == c) = false := by
    rintro c hc hne
    rw [beq_eq_false_iff_ne]
    rintro rfl
    exact hcode.elim (fun h => h hc) hne
  have hdigit : d.isDigit = false := by
    rw [Bool.eq_false_iff]
    intro h
    have hrange := Pattern.isDigit_range h
    rcases hcode with hcode | rfl
    · omega
    · cases h
  have hstart : isWordStart d = false := by
    rw [Bool.eq_false_iff]
    intro h
    have hrange := Pattern.isWordStart_range h
    rcases hcode with hcode | rfl
    · omega
    · cases h
  have hpart : isWordPart d = false := by rw [isWordPart, hstart, hdigit, Bool.or_false]
  cases k <;> simp [joins, isWord, hdigit, hpart, hseen]

namespace Spacing
variable {cs rest : List Char} {ls : List Lexeme}

/-- A token before spacing ends there. -/
theorem apart (h : Spacing cs) (hne : cs ≠ []) (k : TokenKind) (rest : List Char) :
    Apart k (cs ++ rest) := by
  cases h with
  | nil => exact absurd rfl hne
  | blank hc h =>
    rintro d ⟨⟩
    exact k.joins_eq_false (.inl hc)
  | comment htext h =>
    rintro d ⟨⟩
    exact k.joins_eq_false (.inr rfl)

/-- Spacing before a text that scans adds nothing to it. -/
theorem scans (h : Spacing cs) (hrest : Scans rest ls) : Scans (cs ++ rest) ls := by
  induction h with
  | nil => exact hrest
  | blank hc h ih => exact ih.blank hc
  | @comment text cs htext h ih =>
    have hline : Scans ('\n' :: (cs ++ rest)) ls := ih.blank (by decide)
    have hall : text.all (· != '\n') = true :=
      List.all_eq_true.2 fun c hc => bne_iff_ne.2 fun heq => htext (heq ▸ hc)
    have hlen : Pattern.comment.matchLength (('$' :: text) ++ '\n' :: (cs ++ rest)) =
        ('$' :: text).length := by
      rw [List.cons_append, Pattern.matchLength, takeWhile_append _ hall (by rintro d ⟨⟩; rfl),
        List.length_cons]
    have hfits : Pattern.comment.Fits ('$' :: text) := fun h => by cases h
    have hcomment := Scans.stretch ('$' :: text) _ (Pattern.first?_comment _) hlen hfits hline
    rw [List.cons_append, List.append_assoc]
    exact hcomment

end Spacing

/-! ## Lexemes with spacing -/

/-- The scanner makes a token of this kind and text of some source. -/
def Lexeme.Scanned (l : Lexeme) : Prop :=
  l.kind ≠ .endOfInput ∧ ∃ source ts, scan source = .ok ts ∧ l ∈ ts.map Token.lexeme

/-- What is made of a source is a token by itself. -/
theorem Lexeme.Scanned.isToken {l : Lexeme} (h : l.Scanned) : IsToken l.kind l.text := by
  obtain ⟨hkind, source, ts, hscan, hl⟩ := h
  obtain ⟨us, stop, rfl, hs⟩ := scans_of_tokens hscan
  rw [List.map_append, List.mem_append] at hl
  rcases hl with hl | hl
  · exact hs.isToken l hl
  · cases List.mem_singleton.1 hl
    exact absurd rfl hkind

/-- Lexemes with characters before each of them. -/
def spelled (items : List (List Char × Lexeme)) : List Char :=
  items.flatMap fun item => item.1 ++ item.2.text.toList

theorem spelled_cons (gap : List Char) (l : Lexeme) (items : List (List Char × Lexeme)) :
    spelled ((gap, l) :: items) = gap ++ (l.text.toList ++ spelled items) := by
  rw [spelled, List.flatMap_cons, List.append_assoc]
  rfl

/-- Lexemes with spacing between them scan to just these lexemes. -/
theorem scans_spelled {items : List (List Char × Lexeme)} {last : List Char}
    (hscanned : ∀ item ∈ items, item.2.Scanned) (hspacing : ∀ item ∈ items, Spacing item.1)
    (hbetween : ∀ item ∈ items.tail, item.1 ≠ []) (hlast : Spacing last) :
    Scans (spelled items ++ last) (items.map Prod.snd) := by
  induction items with
  | nil =>
    have hend := hlast.scans .nil
    rwa [List.append_nil] at hend
  | cons item items ih =>
    obtain ⟨gap, l⟩ := item
    rw [List.forall_mem_cons] at hscanned hspacing
    have hrest := ih hscanned.2 hspacing.2 fun item h => hbetween item (List.mem_of_mem_tail h)
    have hapart : Apart l.kind (spelled items ++ last) := by
      cases items with
      | nil =>
        by_cases hnil : last = []
        · rw [hnil]
          exact .nil _
        · have hend := hlast.apart hnil l.kind []
          rwa [List.append_nil] at hend
      | cons next items =>
        obtain ⟨gap', l'⟩ := next
        have hgap := (hspacing.2 _ List.mem_cons_self).apart (hbetween _ List.mem_cons_self) l.kind
        rw [spelled_cons, List.append_assoc]
        exact hgap _
    rw [spelled_cons, List.append_assoc, List.append_assoc]
    exact hspacing.1.scans (.token hscanned.1.isToken hapart hrest)

/-- Layout does not matter between tokens. Take any lexemes of which each is made of some source,
and write them one after the other, with blanks and comments before the first and after the last if
one likes, and some between each two. What that scans to is tokens of just these kinds and texts,
and the end of the input. -/
theorem scan_spelled {items : List (List Char × Lexeme)} {last : List Char}
    (hscanned : ∀ item ∈ items, item.2.Scanned) (hspacing : ∀ item ∈ items, Spacing item.1)
    (hbetween : ∀ item ∈ items.tail, item.1 ≠ []) (hlast : Spacing last) :
    ∃ ts stop, scan (String.ofList (spelled items ++ last)) = .ok (ts ++ [.endOfInput stop]) ∧
      ts.map Token.lexeme = items.map Prod.snd := by
  have h := scans_spelled hscanned hspacing hbetween hlast
  rw [← String.toList_ofList (l := spelled items ++ last)] at h
  exact scan_eq_ok_iff.1 h

/-- Tokens some of which would make others with no gap between them. -/
def crammedSource : String := "<.~.=.1.if.x.\"$\\\"\""

/-- Some of those tokens, each but the first with a gap before it. -/
def loosened : List (List Char × Lexeme) :=
  [([], ⟨.less, "<"⟩), ([' '], ⟨.less, "<"⟩), (['$', '"', '\n'], ⟨.tilde, "~"⟩),
   (['\u00a0'], ⟨.assignment, "="⟩), (['\t', '$', '$', '<', '\r', '\n'], ⟨.intLiteral, "1"⟩),
   (['\n'], ⟨.ifWord, "if"⟩), ([' '], ⟨.identifier, "x"⟩), (['$', '\n'], ⟨.stringLiteral, "\"$\\\"\""⟩)]

theorem scan_spelled_loosened : ∃ ts stop,
    scan "< <$\"\n~\u00a0=\t$$<\r\n1\nif x$\n\"$\\\"\" \n" = .ok (ts ++ [.endOfInput stop]) ∧
      ts.map Token.lexeme = loosened.map Prod.snd := by
  have hscanned : ∀ item ∈ loosened, item.2.Scanned := by
    have hcrammed : (scan crammedSource).toOption.any (fun ts => loosened.all fun item =>
        item.2.kind ≠ .endOfInput ∧ item.2 ∈ ts.map Token.lexeme) = true := by decide +kernel
    cases hscan : scan crammedSource with
    | error e =>
      rw [hscan] at hcrammed
      cases hcrammed
    | ok ts =>
      rw [hscan] at hcrammed
      intro item hitem
      obtain ⟨hkind, hmem⟩ := of_decide_eq_true (List.all_eq_true.1 hcrammed item hitem)
      exact ⟨hkind, crammedSource, ts, hscan, hmem⟩
  have hspacing : ∀ item ∈ loosened, Spacing item.1 := by
    simp only [loosened, List.forall_mem_cons]
    exact ⟨.nil, .blank rfl .nil, .comment (by decide : '\n' ∉ ['"']) .nil, .blank rfl .nil,
      .blank rfl (.comment (by decide : '\n' ∉ ['$', '<', '\r']) .nil), .blank rfl .nil,
      .blank rfl .nil, .comment (by decide : '\n' ∉ []) .nil, nofun⟩
  have hlast : Spacing [' ', '\n'] := .blank rfl (.blank rfl .nil)
  have hsource : "< <$\"\n~\u00a0=\t$$<\r\n1\nif x$\n\"$\\\"\" \n" =
      String.ofList (spelled loosened ++ [' ', '\n']) := by decide +kernel
  rw [hsource]
  exact scan_spelled hscanned hspacing (by decide) hlast

end BaseLang
