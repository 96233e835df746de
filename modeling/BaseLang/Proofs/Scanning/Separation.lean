import BaseLang.Proofs.Scanning.Lexemes

/-
  Where one token ends and the next begins.

  A token keeps its end when the character after it is none with which a token of
  its kind goes on (`Apart`):

    1. `Scans.token` — a token before a text that scans.
    2. `Scans.blanks` — blanks before a text that scans.
-/

namespace BaseLang

namespace TokenKind

def isWord : TokenKind → Bool
  | identifier | logicalWord | integerWord | voidWord | tupleWord | trueWord | falseWord | ifWord
  | elseWord | whileWord | readWord | writeWord | returnWord => true
  | _ => false

/-- Whether the character right after a token of that kind would belong to it, or make
another token with it. -/
def joins : TokenKind → Char → Bool
  | intLiteral, d => d.isDigit
  | less, d => d == '<' || d == '='
  | greater, d => d == '>' || d == '='
  | plus, d => d == '+'
  | dash, d => d == '-'
  | tilde, d | assignment, d => d == '='
  | k, d => k.isWord && isWordPart d

theorem lookup_mem {β : Type} {l : List (String × β)} {s : String} {b : β}
    (h : l.lookup s = some b) : b ∈ l.map Prod.snd := by
  induction l with
  | nil => cases h
  | cons x l ih =>
    rw [List.lookup_cons] at h
    split at h
    · cases h
      exact List.mem_cons_self
    · exact List.mem_cons_of_mem _ (ih h)

/-- A word has the kind of a word. -/
theorem isWord_ofWord (s : String) : (ofWord s).isWord = true := by
  unfold ofWord
  cases h : reserved.lookup s with
  | none => rfl
  | some k =>
    have hk : ∀ k ∈ reserved.map Prod.snd, k.isWord = true := by decide
    exact hk k (lookup_mem h)

theorem joins_of_isWord {k : TokenKind} (h : k.isWord = true) (d : Char) :
    k.joins d = isWordPart d := by
  cases k <;> first | rfl | cases h

end TokenKind

/-- A token of that kind ends before the text. -/
def Apart (k : TokenKind) (rest : List Char) : Prop := ∀ d ∈ rest.head?, k.joins d = false

theorem Apart.nil (k : TokenKind) : Apart k [] := by
  intro d hd
  cases hd

/-! ## The first pattern by the first character -/

namespace Pattern

theorem first?_blank {c : Char} (h : isBlank c = true) (cs : List Char) :
    first? (c :: cs) = some blanks := by
  rw [first?, table, List.find?_cons_of_pos]
  simp [matchLength, h]

theorem not_blank {c : Char} (h : 33 ≤ c.toNat ∧ c.toNat ≤ 126) : isBlank c = false := by
  simp only [isBlank, blankRanges, List.any_cons, List.any_nil, Bool.or_false, Bool.or_eq_false_iff,
    Bool.and_eq_false_iff, decide_eq_false_iff_not]
  omega

/-- The code points of the characters with which a word begins. -/
theorem isWordStart_codes {c : Char} (h : isWordStart c = true) :
    65 ≤ c.toNat ∧ c.toNat ≤ 90 ∨ 97 ≤ c.toNat ∧ c.toNat ≤ 122 ∨ c.toNat = 95 := by
  change ((decide (c.val ≥ 'A'.val ∧ c.val ≤ 'Z'.val) ||
    (decide (c.val ≥ 'a'.val) && decide (c.val ≤ 'z'.val))) || c == '_') = true at h
  simp only [Bool.or_eq_true, Bool.and_eq_true, decide_eq_true_eq, beq_iff_eq,
    ge_iff_le, UInt32.le_iff_toNat_le] at h
  rcases h with (h | h) | rfl
  · exact .inl h
  · exact .inr (.inl h)
  · exact .inr (.inr rfl)

theorem isWordStart_range {c : Char} (h : isWordStart c = true) :
    33 ≤ c.toNat ∧ c.toNat ≤ 126 := by
  have hcodes := isWordStart_codes h
  omega

theorem isDigit_range {c : Char} (h : c.isDigit = true) : 48 ≤ c.toNat ∧ c.toNat ≤ 57 := by
  simp only [Char.isDigit, Bool.and_eq_true, decide_eq_true_eq, ge_iff_le,
    UInt32.le_iff_toNat_le] at h
  exact h

theorem first?_word {c : Char} (h : isWordStart c = true) (cs : List Char) :
    first? (c :: cs) = some word := by
  have hblank := not_blank (isWordStart_range h)
  have hdollar : c ≠ '$' := by
    rintro rfl
    cases h
  simp [first?, table, matchLength, hblank, hdollar, h]

theorem first?_numeral {c : Char} (h : c.isDigit = true) (cs : List Char) :
    first? (c :: cs) = some numeral := by
  have hrange := isDigit_range h
  have hblank : isBlank c = false := not_blank (by omega)
  have hword : isWordStart c = false := by
    rw [Bool.eq_false_iff]
    intro hw
    have hcodes := isWordStart_codes hw
    omega
  have hdollar : c ≠ '$' := by
    rintro rfl
    cases h
  simp [first?, table, matchLength, hblank, hdollar, hword, h]

theorem first?_quoted {cs : List Char} {n : Nat} (h : closingQuote? cs = some n) :
    first? ('"' :: cs) = some quoted := by
  have hchar : isBlank '"' = false ∧ isWordStart '"' = false ∧ '"'.isDigit = false := by decide
  simp [first?, table, matchLength, hchar, h]

/-- A mark is taken whole when the next character makes no longer mark with it. -/
theorem first?_mark {k : TokenKind} {t : String} (h : mark k t ∈ table) (rest : List Char)
    (ha : Apart k rest) : first? (t.toList ++ rest) = some (mark k t) := by
  simp only [table, List.mem_cons, List.not_mem_nil, or_false, reduceCtorEq, false_or, mark.injEq] at h
  have hchar : ∀ c ∈ ['<', '>', '+', '-', '~', '='],
      isBlank c = false ∧ isWordStart c = false ∧ c.isDigit = false := by
    intro c hc
    simp only [List.mem_cons, List.not_mem_nil, or_false] at hc
    rcases hc with rfl | rfl | rfl | rfl | rfl | rfl <;> decide
  rcases h with ⟨rfl, rfl⟩ | ⟨rfl, rfl⟩ | ⟨rfl, rfl⟩ | ⟨rfl, rfl⟩ | ⟨rfl, rfl⟩ | ⟨rfl, rfl⟩ | ⟨rfl, rfl⟩ |
    ⟨rfl, rfl⟩ | ⟨rfl, rfl⟩ | ⟨rfl, rfl⟩ | ⟨rfl, rfl⟩ | ⟨rfl, rfl⟩ | ⟨rfl, rfl⟩ | ⟨rfl, rfl⟩ | ⟨rfl, rfl⟩ |
    ⟨rfl, rfl⟩ | ⟨rfl, rfl⟩ | ⟨rfl, rfl⟩ | ⟨rfl, rfl⟩ | ⟨rfl, rfl⟩ | ⟨rfl, rfl⟩ | ⟨rfl, rfl⟩ | ⟨rfl, rfl⟩ |
    ⟨rfl, rfl⟩ | ⟨rfl, rfl⟩ | ⟨rfl, rfl⟩ | ⟨rfl, rfl⟩ <;> try rfl
  -- left are the marks that begin a longer one, where the next character decides
  all_goals
    cases rest with
    | nil => rfl
    | cons d rest =>
      have hd := ha d rfl
      simp only [TokenKind.joins, Bool.or_eq_false_iff, beq_eq_false_iff_ne, ne_comm (a := d)] at hd
      simp [first?, table, matchLength, List.takeWhile_cons, hchar, hd]

end Pattern

/-! ## A token before other text -/

theorem takeWhile_append (rest : List Char) {f : Char → Bool} {cs : List Char} (h : cs.all f = true)
    (hrest : ∀ d ∈ rest.head?, f d = false) : (cs ++ rest).takeWhile f = cs := by
  induction cs with
  | nil =>
    cases rest with
    | nil => rfl
    | cons d rest => rw [List.nil_append, List.takeWhile_cons, hrest d rfl]; rfl
  | cons c cs ih =>
    rw [List.all_cons, Bool.and_eq_true] at h
    rw [List.cons_append, List.takeWhile_cons, h.1, if_pos rfl, ih h.2]

theorem takeWhile_of_all {f : Char → Bool} {cs : List Char} (h : cs.all f = true) :
    cs.takeWhile f = cs := by
  have hself := takeWhile_append [] h (by intro d hd; cases hd)
  rwa [List.append_nil] at hself

theorem all_of_takeWhile {f : Char → Bool} {cs : List Char}
    (h : (cs.takeWhile f).length = cs.length) : cs.all f = true := by
  have hself : cs.takeWhile f = cs := (List.takeWhile_sublist f).eq_of_length h
  rw [← hself]
  exact List.all_takeWhile

/-- The text is the whole run of the class with which it begins. -/
theorem all_of_takeWhile_append {f : Char → Bool} {text rest : List Char}
    (h : ((text ++ rest).takeWhile f).length = text.length) :
    text.all f = true ∧ ∀ d ∈ rest.head?, f d = false := by
  induction text with
  | nil =>
    refine ⟨rfl, ?_⟩
    cases rest with
    | nil => nofun
    | cons d rest =>
      rintro _ ⟨⟩
      rw [List.nil_append, List.takeWhile_cons] at h
      split at h
      · cases h
      · next hd => exact Bool.not_eq_true _ ▸ hd
  | cons c text ih =>
    rw [List.cons_append, List.takeWhile_cons] at h
    split at h
    · next hc =>
      obtain ⟨hall, hrest⟩ := ih (Nat.succ.inj h)
      exact ⟨by rw [List.all_cons, hc, hall]; rfl, hrest⟩
    · cases h

theorem closingQuote?_cons {c : Char} (hq : c ≠ '"') (hb : c ≠ '\\') (cs : List Char) :
    closingQuote? (c :: cs) = if c = '\n' then none else (closingQuote? cs).map (· + 1) := by
  rw [closingQuote?]
  · exact hq
  · exact fun h _ => hb h
  · exact fun _ _ h _ => hb h

/-- A character that begins no escape is no backslash. -/
theorem ne_backslash {c : Char} {cs : List Char} (hend : c = '\\' → cs = [] → False)
    (hesc : ∀ d ds, c = '\\' → cs = d :: ds → False) : c ≠ '\\' := by
  rintro rfl
  cases cs with
  | nil => exact hend rfl rfl
  | cons d ds => exact hesc d ds rfl rfl

/-- The quote that closes a string closes it whatever follows. -/
theorem closingQuote?_append (rest : List Char) {cs : List Char} {n : Nat}
    (h : closingQuote? cs = some n) : closingQuote? (cs ++ rest) = some n := by
  fun_induction closingQuote? cs generalizing n
  case case1 => cases h
  case case2 => exact h
  case case3 => cases h
  case case4 => cases h
  case case5 c cs hc ih =>
    obtain ⟨k, hk, rfl⟩ := Option.map_eq_some_iff.1 h
    rw [List.cons_append, List.cons_append, closingQuote?, if_neg hc, ih hk]
    rfl
  case case6 => cases h
  case case7 c cs hq hend hesc hc ih =>
    obtain ⟨k, hk, rfl⟩ := Option.map_eq_some_iff.1 h
    have hb := ne_backslash hend hesc
    rw [List.cons_append, closingQuote?_cons hq hb, if_neg hc, ih hk]
    rfl

theorem exists_closingQuote {cs : List Char} (h : 0 < Pattern.quoted.matchLength cs) :
    ∃ ds n, cs = '"' :: ds ∧ closingQuote? ds = some n := by
  cases cs with
  | nil => cases h
  | cons c cs =>
    by_cases hc : c = '"'
    · subst hc
      cases hclose : closingQuote? cs with
      | none => rw [Pattern.matchLength, hclose] at h; cases h
      | some n => exact ⟨cs, n, rfl, hclose⟩
    · simp [Pattern.matchLength, hc] at h

/-- A token before a text that it does not go on into is described as by itself. -/
theorem Pattern.Describes.append {p : Pattern} {k : TokenKind} {cs rest : List Char}
    (h : p.Describes k cs) (ha : Apart k rest) :
    first? (cs ++ rest) = some p ∧ p.matchLength (cs ++ rest) = cs.length := by
  obtain ⟨hp, hlen, _, hk⟩ := h
  have hpos := matchLength_pos hp
  cases p with
  | blanks | comment => cases hk
  | word =>
    cases cs with
    | nil => cases hpos
    | cons c cs =>
      have hstart : isWordStart c = true := by
        rw [matchLength] at hpos
        split at hpos
        · next hc => exact hc
        · cases hpos
      cases hk
      rw [matchLength, if_pos hstart, List.length_cons] at hlen
      have hparts := all_of_takeWhile (Nat.succ.inj hlen)
      -- words of all kinds, reserved or not, go on with the same characters
      have hrest : ∀ d ∈ rest.head?, isWordPart d = false := by
        intro d hd
        rw [← TokenKind.joins_of_isWord (TokenKind.isWord_ofWord (String.ofList (c :: cs))) d]
        exact ha d hd
      refine ⟨first?_word hstart _, ?_⟩
      rw [List.cons_append, matchLength, if_pos hstart, takeWhile_append _ hparts hrest, List.length_cons]
  | numeral =>
    cases hk
    have hdigits := all_of_takeWhile hlen
    cases cs with
    | nil => cases hpos
    | cons c cs =>
      refine ⟨first?_numeral (List.all_eq_true.1 hdigits c List.mem_cons_self) _, ?_⟩
      rw [matchLength, takeWhile_append _ hdigits ha]
  | quoted =>
    obtain ⟨ds, n, rfl, hclose⟩ := exists_closingQuote hpos
    have hclose' := closingQuote?_append rest hclose
    rw [matchLength, hclose] at hlen
    exact ⟨first?_quoted hclose', by rw [List.cons_append, matchLength, hclose']; exact hlen⟩
  | mark k' t =>
    cases hk
    have hmem := List.mem_of_find?_eq_some hp
    have htext : t.toList = cs := by
      rw [matchLength] at hlen
      split at hlen
      · next hpre => exact (List.isPrefixOf_iff_prefix.1 hpre).eq_of_length hlen
      · next hpre => rw [matchLength, if_neg hpre] at hpos; cases hpos
    rw [← htext]
    refine ⟨first?_mark hmem _ ha, ?_⟩
    rw [matchLength, if_pos (List.isPrefixOf_iff_prefix.2 (List.prefix_append _ _))]

/-- A token, and the lexemes of the text after it. -/
theorem Scans.token {k : TokenKind} {text : String} {rest : List Char} {ls : List Lexeme}
    (ht : IsToken k text) (ha : Apart k rest) (h : Scans rest ls) :
    Scans (text.toList ++ rest) (⟨k, text⟩ :: ls) := by
  obtain ⟨p, hp⟩ := isToken_iff.1 ht
  obtain ⟨hfirst, hlen⟩ := hp.append ha
  have hstretch := Scans.stretch _ _ hfirst hlen hp.2.2.1 h
  rw [Pattern.lexemes, hp.2.2.2] at hstretch
  simpa using hstretch

/-! ## Blanks before other text -/

/-- A blank before a text that scans: it is a stretch of its own or lengthens the one
with which the text begins. -/
theorem Scans.blank {b : Char} (hb : isBlank b = true) {rest : List Char} {ls : List Lexeme}
    (h : Scans rest ls) : Scans (b :: rest) ls := by
  have hcons : ∀ {rest : List Char}, (∀ d ∈ rest.head?, isBlank d = false) → Scans rest ls →
      Scans (b :: rest) ls := by
    intro rest hrest h
    have hlen : Pattern.blanks.matchLength ([b] ++ rest) = [b].length := by
      rw [Pattern.matchLength, takeWhile_append _ (by simp [hb]) hrest]
    exact Scans.stretch [b] rest (Pattern.first?_blank hb _) hlen nofun h
  cases rest with
  | nil => exact hcons nofun h
  | cons c cs =>
    by_cases hc : isBlank c = true
    · generalize hcs : c :: cs = rest at h
      cases h with
      | nil => cases hcs
      | @stretch p text rest ls hp hlen hfits h =>
        have hfirst := Pattern.first?_blank hc cs
        rw [hcs, hp] at hfirst
        cases hfirst
        have hstretch := Scans.stretch (b :: text) rest (Pattern.first?_blank hb _) ?_ nofun h
        · exact hstretch
        · rw [Pattern.matchLength] at hlen ⊢
          rw [List.cons_append, List.takeWhile_cons, hb, if_pos rfl, List.length_cons, hlen,
            List.length_cons]
    · exact hcons (by rintro d ⟨⟩; exact Bool.eq_false_iff.2 hc) h

theorem Scans.blanks {bs : List Char} (hb : bs.all isBlank = true) {rest : List Char}
    {ls : List Lexeme} (h : Scans rest ls) : Scans (bs ++ rest) ls := by
  induction bs with
  | nil => exact h
  | cons b bs ih =>
    rw [List.all_cons, Bool.and_eq_true] at hb
    exact (ih hb.2).blank hb.1

end BaseLang
