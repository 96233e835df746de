import BaseLang.Proofs.Grammar.Soundness
import BaseLang.Proofs.Printing.Printable

/-
  Programs parsed from a text are printable.

  A token of a text is also a token by itself (`Scans.isToken`), so that the leaves
  of a tree derived from tokens of a text can be written (`Derives.printable`).
-/

namespace BaseLang

/-! ## Tokens of a text -/

theorem closingQuote?_pos {cs : List Char} {n : Nat} (h : closingQuote? cs = some n) : 0 < n := by
  fun_cases closingQuote? cs <;> simp_all [closingQuote?]
  all_goals
    obtain ⟨k, _, rfl⟩ := h
    omega

/-- A string that is closed within the first characters is closed there. -/
theorem closingQuote?_of_append {rest : List Char} {cs : List Char} {n : Nat}
    (h : closingQuote? (cs ++ rest) = some n) (hn : n ≤ cs.length) : closingQuote? cs = some n := by
  fun_induction closingQuote? cs generalizing n
  case case1 =>
    have hpos := closingQuote?_pos h
    simp only [List.length_nil] at hn
    omega
  case case2 => exact h
  case case3 =>
    cases rest with
    | nil => exact h
    | cons c rest =>
      simp only [List.cons_append, List.nil_append, closingQuote?] at h
      split at h
      · cases h
      · obtain ⟨k, _, rfl⟩ := Option.map_eq_some_iff.1 h
        simp only [List.length_cons, List.length_nil] at hn
        omega
  case case4 cs =>
    simp [closingQuote?] at h
  case case5 c cs hc ih =>
    rw [List.cons_append, List.cons_append, closingQuote?, if_neg hc] at h
    obtain ⟨k, hk, rfl⟩ := Option.map_eq_some_iff.1 h
    simp only [List.length_cons] at hn
    rw [ih hk (by omega)]
    rfl
  case case6 cs hq hend hesc =>
    rw [List.cons_append, closingQuote?_cons (by decide) (by decide), if_pos rfl] at h
    cases h
  case case7 c cs hq hend hesc hc ih =>
    have hb := ne_backslash hend hesc
    rw [List.cons_append, closingQuote?_cons hq hb, if_neg hc] at h
    obtain ⟨k, hk, rfl⟩ := Option.map_eq_some_iff.1 h
    simp only [List.length_cons] at hn
    rw [ih hk (by omega)]
    rfl

/-- The pattern that describes the beginning of a text describes it by itself. -/
theorem Pattern.Describes.of_append {p : Pattern} {k : TokenKind} {cs rest : List Char}
    (hp : first? (cs ++ rest) = some p) (hlen : p.matchLength (cs ++ rest) = cs.length)
    (hfits : p.Fits cs) (hk : p.kind? cs = some k) : p.Describes k cs := by
  have hpos := matchLength_pos hp
  rw [hlen] at hpos
  cases cs with
  | nil => cases hpos
  | cons c cs =>
    cases p with
    | blanks | comment => cases hk
    | word =>
      rw [List.cons_append, matchLength] at hlen
      split at hlen
      · next hc =>
        have hcs := (all_of_takeWhile_append (Nat.succ.inj hlen)).1
        refine ⟨first?_word hc cs, ?_, hfits, hk⟩
        rw [matchLength, if_pos hc, takeWhile_of_all hcs, List.length_cons]
      · cases hlen
    | numeral =>
      have hcs := (all_of_takeWhile_append hlen).1
      refine ⟨first?_numeral (List.all_eq_true.1 hcs c List.mem_cons_self) cs, ?_, hfits, hk⟩
      rw [matchLength, takeWhile_of_all hcs]
    | quoted =>
      obtain ⟨ds, n, hds, hclose⟩ := exists_closingQuote (hlen ▸ hpos)
      rw [List.cons_append, List.cons.injEq] at hds
      obtain ⟨rfl, rfl⟩ := hds
      rw [List.cons_append, matchLength, hclose] at hlen
      have hclose' := closingQuote?_of_append hclose (Nat.le_of_eq (Nat.succ.inj hlen))
      exact ⟨first?_quoted hclose', by rw [matchLength, hclose']; exact hlen, hfits, hk⟩
    | mark k' t =>
      have hmem := List.mem_of_find?_eq_some hp
      rw [matchLength] at hlen
      split at hlen
      · next hpre =>
        -- the mark and the token are prefixes of one text and of the same length
        have htext : t.toList = c :: cs :=
          List.IsPrefix.eq_of_length (List.prefix_of_prefix_length_le
            (List.isPrefixOf_iff_prefix.1 hpre) (List.prefix_append _ rest) (Nat.le_of_eq hlen)) hlen
        have hfirst := first?_mark hmem [] (.nil _)
        rw [List.append_nil, htext] at hfirst
        refine ⟨hfirst, ?_, hfits, hk⟩
        rw [matchLength, htext, if_pos (List.isPrefixOf_iff_prefix.2 (List.prefix_refl _))]
      · cases hlen

/-- Every lexeme of a text is a token by itself. -/
theorem Scans.isToken {cs : List Char} {ls : List Lexeme} (h : Scans cs ls) :
    ∀ l ∈ ls, IsToken l.kind l.text := by
  induction h with
  | nil => nofun
  | @stretch p text rest ls hp hlen hfits _ ih =>
    intro l hl
    rcases List.mem_append.1 hl with hl | hl
    · obtain ⟨k, hk, rfl⟩ := Pattern.mem_lexemes.1 hl
      refine isToken_iff.2 ⟨p, ?_⟩
      rw [String.toList_ofList]
      exact .of_append hp hlen hfits hk
    · exact ih l hl

/-- An integer token has a value without a sign. -/
theorem nonneg_of_isToken {s : String} (h : IsToken .intLiteral s) {v : Int32}
    (hv : Decimal.int32? s.toList = some v) : 0 ≤ v.toInt := by
  obtain ⟨p, hp, hlen, _, hk⟩ := isToken_iff.1 h
  rcases numeral_or_quoted (List.mem_of_find?_eq_some hp) hk rfl rfl with rfl | rfl
  · -- all of its characters are digits, so that it has no sign
    have hdigits := List.all_eq_true.1 (all_of_takeWhile hlen)
    unfold Decimal.int32? at hv
    split at hv
    · next hcs => exact absurd (hdigits '-' (by rw [hcs]; exact List.mem_cons_self)) (by decide)
    · next hcs => exact absurd (hdigits '+' (by rw [hcs]; exact List.mem_cons_self)) (by decide)
    · obtain ⟨n, _, hfit⟩ := Option.bind_eq_some_iff.1 hv
      rw [Decimal.fit?] at hfit
      split at hfit
      · next hrange =>
        cases hfit
        rw [Int32.toInt_ofInt_of_le hrange.1 (Int.lt_of_le_of_lt hrange.2 (by decide))]
        exact Int.natCast_nonneg n
      · cases hfit
  · cases hk

namespace Grammar

def Written (t : Token) : Prop := IsToken t.kind t.text

theorem Written.printable {t : Token} (h : Written t) (hk : t.kind = .identifier) {n : NodeId} :
    Ident.Printable ⟨n, t.text, t.start⟩ := by
  rw [Written, hk] at h
  exact h

theorem SimpleType.isSimple {t : Token} {type : TypeName} (h : SimpleType t type) : type.IsSimple := by
  cases h <;> trivial

theorem Typed.printable {n : NodeId} {ts : List Token} {type : TypeName} {m : NodeId}
    (h : Typed n ts type m) (hts : ∀ t ∈ ts, Written t) : type.Printable := by
  cases h with
  | simple h => cases h <;> trivial
  | tuple _ hu => exact (hts _ (by simp)).printable hu

theorem Variable.printable {n : NodeId} {ts : List Token} {d : VarDecl} {m : NodeId}
    (h : Variable n ts d m) (hts : ∀ t ∈ ts, Written t) : d.Printable := by
  obtain ⟨h, hu, _⟩ := h
  exact ⟨h.printable fun t ht => hts t (List.mem_append_left _ ht), (hts _ (by simp)).printable hu⟩

mutual

theorem Phrase.printable {p : BindingPower} {n : NodeId} {ts : List Token} {e : Expr} {m : NodeId} :
    Phrase p n ts e m → (∀ t ∈ ts, Written t) → e.Printable
  | .int ht hv, hts => nonneg_of_isToken (ht ▸ hts _ (List.mem_singleton.2 rfl)) hv
  | .string ht, hts => by
    have h := hts _ (List.mem_singleton.2 rfl)
    rw [Written, ht] at h
    exact h
  | .true _, _ | .false _, _ => trivial
  | .name ht, hts => (hts _ (List.mem_singleton.2 rfl)).printable ht
  | .group _ h _, hts => h.printable fun t ht => hts t (by simp [ht])
  | .call h _ hargs _, hts =>
    ⟨h.printable fun t ht => hts t (by simp [ht]),
      Phrase.printable_arguments hargs fun t ht => hts t (by simp [ht])⟩
  | .access h _ hf, hts =>
    ⟨h.printable fun t ht => hts t (by simp [ht]), (hts _ (by simp)).printable hf⟩
  | .unary _ h, hts => h.printable fun t ht => hts t (by simp [ht])
  | .binary hl _ _ _ hr, hts =>
    ⟨hl.printable fun t ht => hts t (by simp [ht]), hr.printable fun t ht => hts t (by simp [ht])⟩
  | .assign h _ hv, hts =>
    ⟨h.printable fun t ht => hts t (by simp [ht]), hv.printable fun t ht => hts t (by simp [ht])⟩
  | .weaken _ h, hts => h.printable hts

theorem Phrase.printable_arguments {n : NodeId} {ts : List Token} {es : List Expr} {m : NodeId} :
    Separated (Phrase .assignment) n ts es m → (∀ t ∈ ts, Written t) → Expr.PrintableAll es
  | .none, _ => trivial
  | .some h, hts => Phrase.printable_list h hts

theorem Phrase.printable_list {n : NodeId} {ts : List Token} {es : List Expr} {m : NodeId} :
    Commas (Phrase .assignment) n ts es m → (∀ t ∈ ts, Written t) → Expr.PrintableAll es
  | .one h, hts => ⟨h.printable hts, trivial⟩
  | .more h _ hs, hts =>
    ⟨h.printable fun t ht => hts t (by simp [ht]),
      Phrase.printable_list hs fun t ht => hts t (by simp [ht])⟩

end

mutual

theorem Sentence.printable {n : NodeId} {ts : List Token} {s : Stmt} {m : NodeId} :
    Sentence n ts s m → (∀ t ∈ ts, Written t) → s.Printable
  | .assign h _, hts => h.printable fun t ht => hts t (by simp [ht])
  | .call h _, hts => h.printable fun t ht => hts t (by simp [ht])
  | .increment h _ _, hts => h.printable fun t ht => hts t (by simp [ht])
  | .decrement h _ _, hts => h.printable fun t ht => hts t (by simp [ht])
  | .ifThen _ h hb, hts =>
    ⟨h.printable fun t ht => hts t (by simp [ht]), hb.printable fun t ht => hts t (by simp [ht])⟩
  | .ifElse _ h hb _ ho, hts =>
    ⟨h.printable fun t ht => hts t (by simp [ht]), hb.printable fun t ht => hts t (by simp [ht]),
      ho.printable fun t ht => hts t (by simp [ht])⟩
  | .whileDo _ h hb, hts =>
    ⟨h.printable fun t ht => hts t (by simp [ht]), hb.printable fun t ht => hts t (by simp [ht])⟩
  | .read _ _ h _, hts => h.printable fun t ht => hts t (by simp [ht])
  | .write _ _ h _, hts => h.printable fun t ht => hts t (by simp [ht])
  | .leave _ _, _ => trivial
  | .giveBack _ h _, hts => h.printable fun t ht => hts t (by simp [ht])

theorem Body.printable {n : NodeId} {ts : List Token} {b : Block} {m : NodeId} :
    Body n ts b m → (∀ t ∈ ts, Written t) → b.Printable
  | .mk _ hd hs _, hts =>
    ⟨hd.forall (fun t ht => hts t (by simp [ht])) fun _ _ _ _ h => h.printable,
      Sentence.printable_all hs fun t ht => hts t (by simp [ht])⟩

theorem Sentence.printable_all {n : NodeId} {ts : List Token} {ss : List Stmt} {m : NodeId} :
    Repeated Sentence n ts ss m → (∀ t ∈ ts, Written t) → Stmt.PrintableAll ss
  | .nil, _ => trivial
  | .cons h hs, hts =>
    ⟨h.printable fun t ht => hts t (by simp [ht]),
      Sentence.printable_all hs fun t ht => hts t (by simp [ht])⟩

end

theorem Formal.printable {n : NodeId} {ts : List Token} {d : VarDecl} {m : NodeId}
    (h : Formal n ts d m) (hts : ∀ t ∈ ts, Written t) : d.type.IsSimple ∧ d.name.Printable := by
  obtain ⟨h, hu⟩ := h
  exact ⟨h.isSimple, (hts _ (by simp)).printable hu⟩

theorem Declared.printable {n : NodeId} {ts : List Token} {d : Decl} {m : NodeId}
    (h : Declared n ts d m) (hts : ∀ t ∈ ts, Written t) : d.Printable := by
  cases h with
  | var h => exact h.printable hts
  | function ht hu _ hf _ hb =>
    exact ⟨ht.isSimple, (hts _ (by simp)).printable hu,
      hf.forall (fun t ht => hts t (by simp [ht])) fun _ _ _ _ h => h.printable,
      hb.printable fun t ht => hts t (by simp [ht])⟩
  | tuple _ hu _ hf _ _ =>
    exact ⟨(hts _ (by simp)).printable hu,
      hf.forall (fun t ht => hts t (by simp [ht])) fun _ _ _ _ h => h.printable⟩

end Grammar

theorem ahead_ofTokens_append (ts : List Token) (stop : Position) :
    (TokenStream.ofTokens (ts ++ [.endOfInput stop])).ahead = ts := by
  simp [TokenStream.ofTokens, Token.endOfInput]

/-- Every program parsed from the tokens of a text is printable. -/
theorem printable_of_parse {source : String} {tokens : List Token} {p : Program}
    (hscan : scan source = .ok tokens) (hparse : parse tokens = .ok p) : p.Printable := by
  obtain ⟨ts, stop, rfl, hs⟩ := scans_of_tokens hscan
  obtain ⟨used, rest, m, hused, hd⟩ := Grammar.parse_derives hparse
  rw [ahead_ofTokens_append] at hused
  have hwritten : ∀ t ∈ used, Grammar.Written t := fun t ht =>
    hs.isToken t.lexeme (List.mem_map_of_mem (by rw [hused]; exact List.mem_append_left _ ht))
  exact hd.forall hwritten fun _ _ _ _ h => h.printable

end BaseLang
