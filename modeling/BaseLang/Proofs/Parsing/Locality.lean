import BaseLang.Proofs.Parsing.EndOfInput

/-
  A syntax error depends only on what was read.

  A reader sees a token when it is the current one, and it has taken those before. So what it
  does is the same on all streams that begin with the tokens up to where it stops. Only a
  declaration looks further ahead, to tell a variable from a function or a tuple; but then a
  name must come before the token that tells, and if it does not all three fail alike.

    1. `TokenStream.Shares` — two streams that begin with the same tokens;
    2. `Alike`, `LocalAt` — a reader does the same on both, if it stops among those tokens;
       `composes_local` — the ways of putting readers together keep to that;
    3. `declBy_begins`, `local_decl` — declarations do so too;
    4. `parse_error_local` — the errors of a parse.
-/

namespace BaseLang

/-! ## The same first tokens -/

namespace TokenStream

/-- The streams hold the same tokens, except for the last `m` of the first stream and whatever
the second has in their place. They hand out the same numbers. -/
structure Shares (m : Nat) (s s' : TokenStream) : Prop where
  nextId : s'.nextId = s.nextId
  token : ∀ i, i + m ≤ s.ahead.length → s'.tokens[i]? = s.tokens[i]?

theorem peekKind_eq (s : TokenStream) (places : Nat) :
    s.peekKind places = ((s.tokens[places]?).map Token.kind).getD .endOfInput := by
  rw [peekKind, tokens, List.getElem?_append]
  split
  · rfl
  · next h =>
    rw [List.getElem?_eq_none (Nat.le_of_not_lt h)]
    cases places - s.ahead.length <;> rfl

theorem getElem?_tokens_advance {s : TokenStream} (h : s.ahead ≠ []) (i : Nat) :
    s.advance.tokens[i]? = s.tokens[i + 1]? := by
  obtain ⟨ahead, text, place, id⟩ := s
  cases ahead with
  | nil => exact absurd rfl h
  | cons t ahead => rfl

namespace Shares
variable {m : Nat} {s s' : TokenStream}

theorem current (h : s.Shares m s') (hm : m ≤ s.ahead.length) : s'.current = s.current := by
  have hfirst := h.token 0 (by omega)
  rwa [getElem?_tokens_zero, getElem?_tokens_zero, Option.some.injEq] at hfirst

theorem peekKind (h : s.Shares m s') {places : Nat} (hm : places + m ≤ s.ahead.length) :
    s'.peekKind places = s.peekKind places := by
  rw [peekKind_eq, peekKind_eq, h.token places hm]

/-- If the token after the current one is shared then so is all that is left after this one. -/
theorem advance (h : s.Shares m s') (hs : s.ahead ≠ []) (hm : m ≤ s.advance.ahead.length) :
    s.advance.Shares m s'.advance := by
  have hlength : s.advance.ahead.length = s.ahead.length - 1 := List.length_tail
  have hpos := List.length_pos_iff.2 hs
  have hs' : s'.ahead ≠ [] := by
    intro hnil
    have hsecond := h.token 1 (by omega)
    rw [tokens, tokens, hnil, List.nil_append, List.getElem?_eq_none (Nat.le_refl 1)] at hsecond
    have hle := List.getElem?_eq_none_iff.1 hsecond.symm
    rw [List.length_append, List.length_singleton] at hle
    omega
  refine ⟨h.nextId, fun i hi => ?_⟩
  rw [getElem?_tokens_advance hs, getElem?_tokens_advance hs']
  exact h.token (i + 1) (by omega)

end Shares

end TokenStream

namespace Reader

variable {α β : Type}

/-! ## Readers that see no further than they read -/

/-- The results are the same, on streams that still share what they shared. -/
inductive Alike (m : Nat) :
    EStateM.Result SyntaxError TokenStream α → EStateM.Result SyntaxError TokenStream α → Prop
  | ok (a : α) {t t'} (h : t.Shares m t') : Alike m (.ok a t) (.ok a t')
  | error (e) {t t'} (h : t.Shares m t') : Alike m (.error e t) (.error e t')

/-- The reader moves forward on this stream, and does the same on every stream that shares the
tokens up to the one at which it stops. -/
structure LocalAt (r : Reader α) (s : TokenStream) : Prop where
  forward : s.LeadsTo (left (r.run s))
  alike : ∀ {m s'}, s.Shares m s' → m ≤ (left (r.run s)).ahead.length → Alike m (r.run s) (r.run s')

theorem LocalAt.bind {r : Reader α} {f : α → Reader β} {s : TokenStream} (hr : LocalAt r s)
    (hf : ∀ a t, LocalAt (f a) t) : LocalAt (r >>= f) s := by
  obtain ⟨hforward, halike⟩ := hr
  constructor
  · rw [EStateM.run_bind]
    cases hx : r.run s with
    | ok a t => rw [hx] at hforward; exact hforward.trans (hf a t).forward
    | error e t => rw [hx] at hforward; exact hforward
  · intro m s' hs hm
    rw [EStateM.run_bind] at hm ⊢
    rw [EStateM.run_bind]
    cases hx : r.run s with
    | ok a t =>
      rw [hx] at hm halike
      have hfirst := halike hs (Nat.le_trans hm (hf a t).forward.length_le)
      generalize r.run s' = x' at hfirst
      cases hfirst with
      | ok a ht => exact (hf a t).alike ht hm
    | error e t =>
      rw [hx] at hm halike
      have hfirst := halike hs hm
      generalize r.run s' = x' at hfirst
      cases hfirst with
      | error e ht => exact .error e ht

theorem composes_local : Composes LocalAt where
  pure a s := ⟨.refl s, fun h _ => .ok a h⟩
  throw e s := ⟨.refl s, fun h _ => .error e h⟩
  bind := .bind
  current {α f s} h := by
    refine ⟨h.forward, fun {m s'} hs hm => ?_⟩
    have hcurrent := hs.current (Nat.le_trans hm h.forward.length_le)
    change Alike m ((f s.current).run s) ((f s'.current).run s')
    rw [hcurrent]
    exact h.alike hs hm
  advance {s} h := by
    refine ⟨.advance s, fun {m s'} hs hm => ?_⟩
    have hcurrent := hs.current (Nat.le_trans hm (TokenStream.LeadsTo.advance s).length_le)
    rw [advance_run, advance_run, hcurrent]
    exact .ok _ (hs.advance (ahead_ne_nil h) hm)
  freshId s := by
    refine ⟨Forward.freshId s, fun {m s'} hs _ => ?_⟩
    change Alike m (.ok s.nextId { s with nextId := s.nextId + 1 })
      (.ok s'.nextId { s' with nextId := s'.nextId + 1 })
    rw [hs.nextId]
    exact .ok _ ⟨rfl, hs.token⟩
  limit {α r} h s := by
    constructor
    · obtain ⟨r', hr', hsame⟩ := h (s.ahead.length + 1)
      rw [← hsame s (Nat.lt_succ_self _)]
      exact (hr' s).forward
    · -- one reader that reads alike on both streams
      intro m s' hs hm
      obtain ⟨r', hr', hsame⟩ := h (max s.ahead.length s'.ahead.length + 1)
      have hrun := hsame s (by omega)
      have hrun' := hsame s' (by omega)
      rw [← hrun] at hm ⊢
      rw [← hrun']
      exact (hr' s).alike hs hm

/-! ## Declarations -/

theorem expect_run {k : TokenKind} {s : TokenStream} (h : s.current.kind = k) :
    (expect k).run s = .ok s.current s.advance := by
  rw [expect, run_bind_ok (kind_run s), if_pos h, advance_run]

theorem typeName_run_of_isSimpleType {s : TokenStream} (h : s.current.kind.isSimpleType = true) :
    ∃ type, (typeName .standard).run s = .ok type s.advance := by
  rw [typeName, run_bind_ok (kind_run s)]
  generalize hk : s.current.kind = k at h
  cases k <;> cases h
  all_goals
    dsimp only [Rules.standard, Rules.standardType, typeOf]
    rw [wordType, run_bind_ok (advance_run s), hk]
    exact ⟨_, rfl⟩

/-- On this stream the reader takes the current token, then a name. -/
def NameSecond (r : Reader α) (s : TokenStream) : Prop :=
  ∃ f : Ident → Reader α, (∀ x, Forward (f x)) ∧ r.run s = (ident >>= f).run s.advance

namespace NameSecond
variable {r : Reader α} {s : TokenStream}

theorem bind (h : NameSecond r s) {g : α → Reader β} (hg : ∀ a, Forward (g a)) :
    NameSecond (r >>= g) s := by
  obtain ⟨f, hf, hrun⟩ := h
  refine ⟨fun x => f x >>= g, fun x => .bind (hf x) hg, ?_⟩
  rw [← bind_assoc, EStateM.run_bind, EStateM.run_bind (ident >>= f), hrun]

theorem after {a : α} {f : α → Ident → Reader β} (h : r.run s = .ok a s.advance)
    (hf : ∀ x, Forward (f a x)) : NameSecond (r >>= fun a => ident >>= f a) s :=
  ⟨f a, hf, run_bind_ok h⟩

theorem varDecl (h : s.current.kind = .tupleWord ∨ s.current.kind.isSimpleType = true) :
    NameSecond (varDecl .standard) s := by
  have hdot : ∀ type name, Forward (do
      let _ ← expect .dot
      return VarDecl.mk type name) := fun _ _ => .bind (.expect _) fun _ => .pure _
  rcases h with htuple | hsimple
  · -- the first name is that of the type
    have htype : (typeName .standard).run s = tupleType.run s := by
      rw [typeName, run_bind_ok (kind_run s), htuple]
      rfl
    have hname : NameSecond (typeName .standard) s := by
      rw [NameSecond, htype]
      exact after (expect_run htuple) fun _ => .pure _
    exact hname.bind fun _ => .bind .ident fun _ => hdot _ _
  · obtain ⟨type, htype⟩ := typeName_run_of_isSimpleType hsimple
    exact after htype (hdot type)

/-- Whatever is declared, a name comes after the word with which it begins. -/
theorem declBy (h : s.current.kind = .tupleWord ∨ s.current.kind.isSimpleType = true) (opensBody : Bool) :
    NameSecond (declBy opensBody) s := by
  have hvar : NameSecond (do return Decl.var (← Reader.varDecl .standard)) s :=
    (varDecl h).bind fun _ => .pure _
  rw [NameSecond, Reader.declBy, run_bind_ok (kind_run s)]
  split
  · next htuple =>
    cases opensBody with
    | false => exact hvar
    | true =>
      rw [tupleDecl_eq]
      exact (after (expect_run htuple) (.tupleRest .standard)).bind fun _ => .pure _
  · next htuple =>
    have hsimple := h.resolve_left htuple
    rw [if_pos hsimple]
    cases opensBody with
    | false => exact hvar
    | true =>
      obtain ⟨type, htype⟩ := typeName_run_of_isSimpleType hsimple
      have hresult : (simpleType .standard).run s = .ok type s.advance := by
        rw [simpleType, run_bind_ok (kind_run s), if_pos hsimple, htype]
      rw [functionDecl_eq]
      exact (after hresult (.functionRest .standard type)).bind fun _ => .pure _

end NameSecond

theorem declBy_run_of_not_word {s : TokenStream}
    (h : ¬ (s.current.kind = .tupleWord ∨ s.current.kind.isSimpleType = true)) (opensBody : Bool) :
    (declBy opensBody).run s = (unexpectedWith "expected a declaration" : Reader Decl).run s := by
  obtain ⟨htuple, hsimple⟩ := not_or.1 h
  rw [declBy, run_bind_ok (kind_run s), if_neg htuple, if_neg hsimple]

/-- Two readers that take a name second fail alike where there is none. -/
theorem NameSecond.alike {r r' : Reader α} {s s' : TokenStream} {m : Nat} (h : NameSecond r s)
    (h' : NameSecond r' s') (hs : s.Shares m s') (hne : s.ahead ≠ []) (hshort : s.ahead.length < 2 + m)
    (hm : m ≤ (left (r.run s)).ahead.length) : Alike m (r.run s) (r'.run s') := by
  obtain ⟨f, hf, hrun⟩ := h
  obtain ⟨f', -, hrun'⟩ := h'
  rw [hrun, EStateM.run_bind] at hm ⊢
  rw [hrun', EStateM.run_bind]
  have hforward := Forward.ident s.advance
  cases hx : ident.run s.advance with
  | ok x t =>
    -- with the name, more would be taken than is shared
    rw [hx] at hm
    have hless := Consumes.ident _ _ _ hx
    have hrest := (hf x t).length_le
    have hadvance : s.advance.ahead.length = s.ahead.length - 1 := List.length_tail
    dsimp only at hm
    omega
  | error e t =>
    rw [hx] at hm hforward
    have hshares := hs.advance hne (Nat.le_trans hm hforward.length_le)
    have hname := (composes_local.ident s.advance).alike hshares
    rw [hx] at hname
    have hfail := hname hm
    generalize ident.run s'.advance = x' at hfail
    cases hfail with
    | error e ht => exact .error e ht

theorem local_decl (s : TokenStream) : LocalAt (decl .standard) s := by
  refine ⟨(Careful.decl s).toLeadsTo, fun {m s'} hs hm => ?_⟩
  have hle := (Careful.decl s).length_le
  rw [decl_run] at hm ⊢
  rw [decl_run]
  by_cases hlook : 2 + m ≤ s.ahead.length
  · -- both streams have the token that tells what is declared
    rw [hs.peekKind hlook]
    exact (composes_local.declBy _ s).alike hs hm
  have hcurrent := hs.current (Nat.le_trans hm hle)
  by_cases hword : s.current.kind = .tupleWord ∨ s.current.kind.isSimpleType = true
  · have hne : s.ahead ≠ [] := ahead_ne_nil fun hend => by
      rw [hend] at hword
      rcases hword with h | h <;> cases h
    have hword' := NameSecond.declBy (hcurrent.symm ▸ hword) (s'.peekKind 2 == .openCurly)
    exact (NameSecond.declBy hword _).alike hword' hs hne (Nat.lt_of_not_le hlook) hm
  · rw [declBy_run_of_not_word hword] at hm ⊢
    rw [declBy_run_of_not_word (hcurrent.symm ▸ hword)]
    exact (composes_local.unexpectedWith _ s).alike hs hm

theorem local_program (s : TokenStream) : LocalAt (program .standard) s :=
  composes_local.bind (composes_local.many .decl (fun t _ => local_decl t) s) fun _ => composes_local.pure _

/-! ## Errors -/

theorem run_of_parse_error {ts : List Token} {e : SyntaxError} (h : parse ts = .error e) :
    ∃ t, (program .standard).run (.ofTokens ts) = .error e t := by
  rw [parse] at h
  cases hrun : (program .standard).run (.ofTokens ts) with
  | ok p t => rw [hrun] at h; cases h
  | error e' t =>
    rw [hrun] at h
    cases h
    exact ⟨t, rfl⟩

/-- A syntax error depends only on what was read. If a list of tokens that ends with the end of the
input does not parse, then reading stands at some place of the list when it fails, and every other such
list that has the same tokens up to that place fails with the same error, whatever comes after them. -/
theorem parse_error_local {ts : List Token} {e : SyntaxError}
    (hend : ts.getLast?.map Token.kind = some .endOfInput) (he : parse ts = .error e) :
    ∃ k t, (program .standard).run (.ofTokens ts) = .error e t ∧ t.StandsAt ts k ∧
      ∀ ts', ts'.getLast?.map Token.kind = some .endOfInput → (∀ i ≤ k, ts'[i]? = ts[i]?) →
        parse ts' = .error e := by
  obtain ⟨t, hrun⟩ := run_of_parse_error he
  have hlist : ∀ us : List Token, us.getLast?.map Token.kind = some .endOfInput →
      (TokenStream.ofTokens us).tokens = us := fun us hus => by
    rw [TokenStream.tokens_ofTokens, if_pos hus]
  have htakes := Careful.program (.ofTokens ts)
  have hstands := (TokenStream.standsAt_zero (.ofTokens ts)).moved htakes
  have hle := htakes.length_le
  rw [hlist ts hend, Nat.zero_add] at hstands
  rw [hrun] at hstands hle
  refine ⟨_, t, hrun, hstands, fun ts' hend' hsame => ?_⟩
  -- the tokens after the one at which reading stands are those that need not be shared
  have hshares : (TokenStream.ofTokens ts).Shares t.ahead.length (.ofTokens ts') := by
    refine ⟨by rw [TokenStream.nextId_ofTokens, TokenStream.nextId_ofTokens], fun i hi => ?_⟩
    rw [hlist ts hend, hlist ts' hend']
    exact hsame i (Nat.le_sub_of_add_le hi)
  have halike := (local_program (.ofTokens ts)).alike hshares
  rw [hrun] at halike
  have hfail := halike (Nat.le_refl _)
  rw [parse]
  generalize (program .standard).run (.ofTokens ts') = x' at hfail
  cases hfail with
  | error e ht => rfl

/-- A numeral where a name should stand, before these tokens. -/
def misnamed (ts : List Token) : List Token :=
  ⟨.integerWord, "integer", ⟨⟨1, 1⟩, ⟨1, 8⟩⟩⟩ :: ⟨.intLiteral, "5", ⟨⟨1, 9⟩, ⟨1, 10⟩⟩⟩ :: ts

def misnamedFunction : List Token :=
  misnamed [⟨.openCurly, "\x7b", ⟨⟨1, 11⟩, ⟨1, 12⟩⟩⟩, .endOfInput ⟨1, 12⟩]

def misnamedError : SyntaxError := ⟨.unexpectedWith "5" "expected identifier", ⟨1, 9⟩⟩

theorem parse_error_local_misnamed : parse misnamedFunction = .error misnamedError ∧
    parse (misnamed [⟨.dot, ".", ⟨⟨2, 1⟩, ⟨2, 2⟩⟩⟩, .endOfInput ⟨3, 1⟩]) = .error misnamedError ∧
    parse (misnamed [.endOfInput ⟨1, 10⟩]) = .error misnamedError := by
  have hparse : parse misnamedFunction = .error misnamedError := rfl
  obtain ⟨k, t, hrun, hstands, hothers⟩ := parse_error_local rfl hparse
  have hk : k = 1 := by
    have hleft : t.tokens.length = 3 := by
      cases hrun
      rfl
    have hlength := congrArg List.length hstands.rest
    rw [List.length_drop, hleft] at hlength
    have hfour : misnamedFunction.length = 4 := rfl
    omega
  subst hk
  have hsame : ∀ (ts : List Token), ∀ i ≤ 1, (misnamed ts)[i]? = misnamedFunction[i]? := by
    intro ts i hi
    match i with
    | 0 | 1 => rfl
  exact ⟨hparse, hothers _ rfl (hsame _), hothers _ rfl (hsame _)⟩

end Reader

end BaseLang
