import BaseLang.Token.Scan

/-
  What a text scans to, apart from positions.

  `Scans cs ls` derives the lexemes `ls` of the characters `cs` stretch by stretch,
  with no cursor. Scanning at any cursor before these characters gives tokens with
  just these lexemes (`Scans.tokens_eq`), and whatever scans has such a derivation
  (`scans_of_tokens`).

  A text is a token of some kind if it scans to that token alone (`IsToken`); then a
  single pattern describes all of it (`isToken_iff`).
-/

namespace BaseLang

/-- What a token is, without its place. -/
structure Lexeme where
  kind : TokenKind
  text : String
  deriving DecidableEq, Repr

def Token.lexeme (t : Token) : Lexeme := ⟨t.kind, t.text⟩

namespace Pattern

/-- The kind of the token that a stretch of this form makes, if it makes one. -/
def kind? : Pattern → List Char → Option TokenKind
  | blanks, _ | comment, _ => none
  | word, text => some (.ofWord (String.ofList text))
  | numeral, _ => some .intLiteral
  | quoted, _ => some .stringLiteral
  | mark k _, _ => some k

/-- A test of marks, which other patterns pass. -/
def passes (test : TokenKind → String → Bool) : Pattern → Bool
  | mark k t => test k t
  | _ => true

/-- A test that the whole table passes is passed by each of its marks. -/
theorem of_mark_mem (test : TokenKind → String → Bool) (hall : table.all (passes test) = true)
    {k : TokenKind} {t : String} (h : mark k t ∈ table) : test k t = true :=
  List.all_eq_true.1 hall _ h

/-- A numeral has a value of 32 bits. -/
def Fits (p : Pattern) (text : List Char) : Prop :=
  p = numeral → (Decimal.int32? text).isSome

def lexemes (p : Pattern) (text : List Char) : List Lexeme :=
  ((p.kind? text).map fun k => ⟨k, String.ofList text⟩).toList

theorem mem_lexemes {p : Pattern} {text : List Char} {l : Lexeme} :
    l ∈ p.lexemes text ↔ ∃ k, p.kind? text = some k ∧ l = ⟨k, String.ofList text⟩ := by
  simp only [lexemes, Option.mem_toList, Option.map_eq_some_iff, eq_comm (a := l)]

theorem map_lexeme (p : Pattern) (text : List Char) (sp : Span) :
    ((p.kind? text).map fun k => (⟨k, String.ofList text, sp⟩ : Token)).toList.map Token.lexeme =
      p.lexemes text := by
  rw [lexemes]
  cases p.kind? text <;> rfl

theorem token?_of_fits {p : Pattern} {text : List Char} (h : p.Fits text) (c : Cursor) :
    p.token? text c =
      .ok ((p.kind? text).map fun k => ⟨k, String.ofList text, c.span (utf8Length text)⟩) := by
  cases p with
  | numeral => rw [token?, if_pos (h rfl)]; rfl
  | _ => rfl

theorem fits_of_token? {p : Pattern} {text : List Char} {c : Cursor} {found : Option Token}
    (h : p.token? text c = .ok found) : p.Fits text := by
  rintro rfl
  rw [token?] at h
  split at h
  · next hfit => exact hfit
  · cases h

theorem closingQuote?_le : ∀ {cs : List Char} {n : Nat}, closingQuote? cs = some n → n ≤ cs.length
  | [], _, h => nomatch h
  | [c], n, h => by
    unfold closingQuote? at h
    split at h <;> simp_all [closingQuote?]
  | c :: d :: cs, n, h => by
    have ih := @closingQuote?_le cs
    have ih' := @closingQuote?_le (d :: cs)
    unfold closingQuote? at h
    split at h
    · cases h
    · cases h
      simp
    · cases h
    · next heq =>
      cases heq
      split at h
      · cases h
      · obtain ⟨k, hk, rfl⟩ := Option.map_eq_some_iff.1 h
        have := ih hk
        simp only [List.length_cons]
        omega
    · next heq =>
      cases heq
      split at h
      · cases h
      · obtain ⟨k, hk, rfl⟩ := Option.map_eq_some_iff.1 h
        have := ih' hk
        simp only [List.length_cons] at this ⊢
        omega

/-- No form describes more than there is. -/
theorem matchLength_le (p : Pattern) (cs : List Char) : p.matchLength cs ≤ cs.length := by
  have htake : ∀ (f : Char → Bool) (ds : List Char), (ds.takeWhile f).length ≤ ds.length :=
    fun f ds => (List.takeWhile_sublist f).length_le
  fun_cases matchLength p cs
  case case1 => exact htake _ _
  case case2 => exact Nat.succ_le_succ (htake _ _)
  case case3 => exact Nat.zero_le _
  case case4 => exact Nat.succ_le_succ (htake _ _)
  case case5 => exact Nat.zero_le _
  case case6 => exact Nat.zero_le _
  case case7 => exact htake _ _
  case case8 cs =>
    cases h : closingQuote? cs with
    | none => exact Nat.zero_le _
    | some n => exact Nat.succ_le_succ (closingQuote?_le h)
  case case9 => exact Nat.zero_le _
  case case10 h => exact (List.isPrefixOf_iff_prefix.1 h).length_le
  case case11 => exact Nat.zero_le _

theorem matchLength_pos {p : Pattern} {cs : List Char} (h : first? cs = some p) :
    0 < p.matchLength cs := by
  simpa using List.find?_some h

end Pattern

/-! ## Deriving the lexemes -/

/-- The characters are stretches, each described by the first pattern that matches,
and make these lexemes. -/
inductive Scans : List Char → List Lexeme → Prop
  | nil : Scans [] []
  | stretch {p : Pattern} (text rest) {ls} (hp : Pattern.first? (text ++ rest) = some p)
      (hlen : p.matchLength (text ++ rest) = text.length) (hfits : p.Fits text)
      (h : Scans rest ls) : Scans (text ++ rest) (p.lexemes text ++ ls)

namespace Cursor

theorem rest_advanceOver (text rest : List Char) (c : Cursor) (h : c.rest = text ++ rest) :
    (advanceOver (text ++ rest) (utf8Length text) c).rest = rest := by
  induction text generalizing c with
  | nil =>
    cases rest with
    | nil => exact h
    | cons ch rest => rw [List.nil_append, utf8Length, advanceOver, if_pos (Char.utf8Size_pos ch), h]; rfl
  | cons ch text ih =>
    rw [List.cons_append, utf8Length, advanceOver, if_neg (by omega), Nat.add_sub_cancel_left]
    exact ih c.next (by rw [rest_next, h]; rfl)

/-- Moving by the size of the first characters leaves the others. -/
theorem rest_advance {c : Cursor} {text rest : List Char} (h : c.rest = text ++ rest) :
    (c.advance (utf8Length text)).rest = rest := by
  rw [advance, h]
  exact rest_advanceOver text rest c h

theorem tokens_of_rest_nil {c : Cursor} (h : c.rest = []) : c.tokens = .ok [.endOfInput c.position] := by
  rw [tokens]
  split
  · rfl
  · next hc => rw [h] at hc; cases hc

theorem tokens_of_first? {c : Cursor} {p : Pattern} (h : Pattern.first? c.rest = some p) :
    c.tokens =
      match p.token? (c.rest.take (p.matchLength c.rest)) c with
      | .error e => .error e
      | .ok found =>
        match (c.advance (utf8Length (c.rest.take (p.matchLength c.rest)))).tokens with
        | .error e => .error e
        | .ok others => .ok (found.toList ++ others) := by
  rw [tokens]
  split
  · next hc => rw [hc] at h; cases h
  · next ch rest hc =>
    split
    · next hp => rw [hc, hp] at h; cases h
    · next q hp =>
      rw [hc, hp] at h
      cases h
      exact hc ▸ rfl

theorem tokens_of_first?_eq_none {c : Cursor} (hne : c.rest ≠ []) (h : Pattern.first? c.rest = none) :
    ∃ e, c.tokens = .error e := by
  rw [tokens]
  split
  · next hc => exact absurd hc hne
  · next ch rest hc =>
    split
    · exact ⟨_, rfl⟩
    · next hp => rw [hc, hp] at h; cases h

end Cursor

/-- Scanning gives the lexemes that the text is derived to have, from any cursor. -/
theorem Scans.tokens_eq {cs : List Char} {ls : List Lexeme} (h : Scans cs ls) :
    ∀ c : Cursor, c.rest = cs →
      ∃ ts stop, c.tokens = .ok (ts ++ [.endOfInput stop]) ∧ ts.map Token.lexeme = ls := by
  induction h with
  | nil => exact fun c hc => ⟨[], c.position, Cursor.tokens_of_rest_nil hc, rfl⟩
  | @stretch p text rest ls hp hlen hfits _ ih =>
    intro c hc
    have htext : c.rest.take (p.matchLength c.rest) = text := by
      rw [hc, hlen, List.take_left]
    obtain ⟨ts, stop, hts, hls⟩ := ih (c.advance (utf8Length text)) (Cursor.rest_advance hc)
    refine ⟨((p.kind? text).map fun k => ⟨k, String.ofList text, c.span (utf8Length text)⟩).toList ++ ts,
      stop, ?_, ?_⟩
    · rw [Cursor.tokens_of_first? (by rw [hc]; exact hp), htext, Pattern.token?_of_fits hfits, hts,
        List.append_assoc]
    · rw [List.map_append, hls, Pattern.map_lexeme]

/-- Whatever scans is derived to have the lexemes of its tokens. -/
theorem scans_of_tokens {c : Cursor} {ts : List Token} (h : c.tokens = .ok ts) :
    ∃ us stop, ts = us ++ [.endOfInput stop] ∧ Scans c.rest (us.map Token.lexeme) := by
  induction hn : c.rest.length using Nat.strongRecOn generalizing c ts with
  | ind n ih =>
    cases hc : c.rest with
    | nil =>
      rw [Cursor.tokens_of_rest_nil hc] at h
      cases h
      exact ⟨[], c.position, rfl, .nil⟩
    | cons ch rest =>
      cases hp : Pattern.first? c.rest with
      | none =>
        obtain ⟨e, he⟩ := Cursor.tokens_of_first?_eq_none (by rw [hc]; nofun) hp
        rw [he] at h
        cases h
      | some p =>
        rw [Cursor.tokens_of_first? hp] at h
        split at h
        · cases h
        · next found hfound =>
          split at h
          · cases h
          · next others hothers =>
            cases h
            -- a pattern takes at least one character, so that fewer are left
            have hfits := Pattern.fits_of_token? hfound
            have hpos := Pattern.matchLength_pos hp
            have hle := p.matchLength_le c.rest
            have hsplit := (c.rest.take_append_drop (p.matchLength c.rest)).symm
            have hlen : (c.rest.take (p.matchLength c.rest)).length = p.matchLength c.rest := by
              rw [List.length_take, Nat.min_eq_left hle]
            have hrest := Cursor.rest_advance hsplit
            obtain ⟨us, stop, rfl, hus⟩ := ih _ (by rw [hrest, List.length_drop]; omega) hothers rfl
            rw [hrest] at hus
            refine ⟨found.toList ++ us, stop, by rw [List.append_assoc], ?_⟩
            have hstretch := Scans.stretch (c.rest.take (p.matchLength c.rest)) _
              (by rw [← hsplit]; exact hp) (by rw [← hsplit, hlen]) hfits hus
            rw [Pattern.token?_of_fits hfits] at hfound
            cases hfound
            rw [← hsplit] at hstretch
            rw [← hc, List.map_append, Pattern.map_lexeme]
            exact hstretch

/-- A source scans exactly when its characters have lexemes, which are those of its tokens. -/
theorem scan_eq_ok_iff {source : String} {ls : List Lexeme} :
    Scans source.toList ls ↔
      ∃ ts stop, scan source = .ok (ts ++ [.endOfInput stop]) ∧ ts.map Token.lexeme = ls := by
  constructor
  · exact fun h => h.tokens_eq (Cursor.start source) rfl
  · rintro ⟨ts, stop, hscan, rfl⟩
    obtain ⟨us, stop', heq, h⟩ := scans_of_tokens hscan
    obtain ⟨rfl, _⟩ := List.append_inj' heq rfl
    exact h

/-! ## Texts of single tokens -/

/-- The text is a token of that kind, and nothing else. -/
def IsToken (k : TokenKind) (text : String) : Prop :=
  ∃ span stop, scan text = .ok [⟨k, text, span⟩, .endOfInput stop]

/-- One pattern describes all of the characters and makes a token of that kind. -/
def Pattern.Describes (p : Pattern) (k : TokenKind) (cs : List Char) : Prop :=
  first? cs = some p ∧ p.matchLength cs = cs.length ∧ p.Fits cs ∧ p.kind? cs = some k

/-- A text in which a lexeme is as long as the whole is a single stretch. -/
theorem Scans.length_le {cs : List Char} {ls : List Lexeme} (h : Scans cs ls) :
    ∀ l ∈ ls, l.text.toList.length ≤ cs.length := by
  induction h with
  | nil => nofun
  | @stretch p text rest ls _ _ _ _ ih =>
    intro l hl
    rw [List.length_append]
    rcases List.mem_append.1 hl with hl | hl
    · obtain ⟨k, -, rfl⟩ := Pattern.mem_lexemes.1 hl
      simp
    · exact Nat.le_trans (ih l hl) (Nat.le_add_left _ _)

theorem isToken_iff {k : TokenKind} {text : String} :
    IsToken k text ↔ ∃ p : Pattern, p.Describes k text.toList := by
  constructor
  · rintro ⟨span, stop, hscan⟩
    have h : Scans text.toList [⟨k, text⟩] := scan_eq_ok_iff.2 ⟨[⟨k, text, span⟩], stop, hscan, rfl⟩
    generalize hcs : text.toList = cs at h
    generalize hls : [Lexeme.mk k text] = ls at h
    cases h with
    | nil => cases hls
    | @stretch p stretch rest ls hp hlen hfits h =>
      have hpos := Pattern.matchLength_pos hp
      rw [hlen] at hpos
      rw [Pattern.lexemes] at hls
      cases hk : p.kind? stretch with
      | none =>
        -- a blank before the token would leave too few characters for it
        rw [hk] at hls
        have hle := h.length_le ⟨k, text⟩ (by rw [← show _ = ls from hls]; exact List.mem_singleton.2 rfl)
        rw [show text.toList = _ from hcs, List.length_append] at hle
        omega
      | some k' =>
        rw [hk] at hls
        simp only [Option.map_some, Option.toList_some, List.singleton_append, List.cons.injEq,
          Lexeme.mk.injEq] at hls
        obtain ⟨⟨rfl, htext⟩, rfl⟩ := hls
        -- the stretch is the token's whole text, so that nothing is left
        have hrest : rest = [] := by
          rw [htext, String.toList_ofList] at hcs
          exact List.append_right_eq_self.1 hcs.symm
        subst hrest
        rw [List.append_nil] at hp hlen ⊢
        exact ⟨p, hp, hlen, hfits, hk⟩
  · rintro ⟨p, hp, hlen, hfits, hk⟩
    have h : Scans text.toList [⟨k, text⟩] := by
      have := Scans.stretch text.toList [] (by rwa [List.append_nil])
        (by rwa [List.append_nil]) hfits .nil
      rw [List.append_nil, List.append_nil, Pattern.lexemes, hk] at this
      simpa using this
    obtain ⟨ts, stop, hscan, hts⟩ := scan_eq_ok_iff.1 h
    cases ts with
    | nil => cases hts
    | cons t ts =>
      simp only [List.map_cons, List.cons.injEq, List.map_eq_nil_iff, Token.lexeme, Lexeme.mk.injEq] at hts
      obtain ⟨⟨rfl, rfl⟩, rfl⟩ := hts
      exact ⟨t.span, stop, hscan⟩

end BaseLang
