import BaseLang.Proofs.Parsing.Locality

/-
  A syntax error points at a token that was seen.

  The errors are made in different ways: some of the token that is current, some of one that was
  taken, some of the position of an expression that was read, however deep it is nested. All of
  them stand where a token starts that lies behind or is current when reading fails, and those
  that quote a text quote the text of this token.

    1. `SyntaxError.PointsAt` — an error and the token that it is about;
    2. `TokenStream.upTo` — the tokens from where a run began to where it stops;
    3. `Quotes` — what a reader fails with points at a token it saw, or one that was seen before;
       and what it gives may be told from such a token. There is one lemma for each way in which
       readers are put together, and one for each reader;
    4. `parse_error_quotes` — the errors of a parse.
-/

namespace BaseLang

/-- The text of a token that the cause quotes. -/
def SyntaxError.Cause.token? : SyntaxError.Cause → Option String
  | .unrecognised token | .unexpected token | .unexpectedWith token _ | .badNumber token => some token
  | .invalidTarget | .invalidStatement => none

/-- The error stands where the token starts, and quotes the text of the token if it quotes any. -/
structure SyntaxError.PointsAt (e : SyntaxError) (t : Token) : Prop where
  start : t.start = e.position
  text : ∀ text ∈ e.cause.token?, t.text = text

theorem SyntaxError.pointsAt_of_text {c : SyntaxError.Cause} {t : Token} (h : c.token? = some t.text) :
    SyntaxError.PointsAt ⟨c, t.start⟩ t :=
  ⟨rfl, fun _ htext => Option.some.inj (h.symm.trans htext)⟩

namespace TokenStream

/-- The tokens of a stream up to the current one of what is left of it. -/
def upTo (s t : TokenStream) : List Token := s.tokens.take (s.ahead.length - t.ahead.length + 1)

theorem current_mem_upTo (s t : TokenStream) : s.current ∈ s.upTo t := by
  have hfirst : (s.upTo t)[0]? = some s.current := by
    rw [upTo, List.getElem?_take_of_lt (Nat.succ_pos _), getElem?_tokens_zero]
  exact List.mem_of_getElem? hfirst

variable {s t u : TokenStream}

/-- What was seen on the way stays seen. -/
theorem LeadsTo.upTo_left (h : t.LeadsTo u) : s.upTo t ⊆ s.upTo u := by
  have hle := h.length_le
  exact List.take_subset_take_left _ (by omega)

theorem LeadsTo.upTo_right (h : s.LeadsTo t) (h' : t.LeadsTo u) : t.upTo u ⊆ s.upTo u := by
  obtain ⟨used, hused⟩ := h.ahead
  have hfinal : t.final = s.final := by rw [final, final, h.endText, h.endSpan]
  have htokens : s.tokens = used ++ t.tokens := by rw [tokens, tokens, ← hused, hfinal, List.append_assoc]
  have hlength : s.ahead.length - u.ahead.length + 1 =
      used.length + (t.ahead.length - u.ahead.length + 1) := by
    have hle := h'.length_le
    rw [← hused, List.length_append]
    omega
  rw [upTo, upTo, htokens, hlength, List.take_length_add_append]
  exact List.subset_append_right _ _

end TokenStream

namespace Reader

variable {α β : Type}

/-- How a run from `s` may end: not before `s`, with a value from which `W` tells a token, or with an
error that points at one. The token is among those that were seen before or from `s` on. -/
inductive Tells (seen : List Token) (W : α → Token → Prop) (s : TokenStream) :
    EStateM.Result SyntaxError TokenStream α → Prop
  | ok {a t u} (h : s.LeadsTo t) (hu : u ∈ seen ++ s.upTo t) (hw : W a u) : Tells seen W s (.ok a t)
  | error {e t u} (h : s.LeadsTo t) (hu : u ∈ seen ++ s.upTo t) (he : e.PointsAt u) :
      Tells seen W s (.error e t)

/-- Whatever was seen before, every run of the reader ends like that. -/
def Quotes (seen : List Token) (W : α → Token → Prop) (r : Reader α) : Prop :=
  ∀ s : TokenStream, Tells seen W s (r.run s)

/-- Nothing is told of the token. -/
def Untold (_ : α) (_ : Token) : Prop := True

/-- The token is the one at which the expression is reported. -/
def StartsExpr (e : Expr) (u : Token) : Prop := u.start = e.position

/-- What a second run saw, after one that saw `u`, is among what both saw. -/
theorem mem_seen_trans {seen : List Token} {s t v : TokenStream} {u w : Token} (hst : s.LeadsTo t)
    (htv : t.LeadsTo v) (hu : u ∈ seen ++ s.upTo t) (hw : w ∈ u :: seen ++ t.upTo v) :
    w ∈ seen ++ s.upTo v := by
  rcases List.mem_append.1 hw with hw | hw
  · rcases List.mem_cons.1 hw with rfl | hw
    · exact (List.mem_append.1 hu).elim (List.mem_append_left _) fun hu =>
        List.mem_append_right _ (htv.upTo_left hu)
    · exact List.mem_append_left _ hw
  · exact List.mem_append_right _ (hst.upTo_right htv hw)

/-- The current token is seen, so that there is one to tell nothing of. -/
theorem Tells.untold {seen : List Token} {s t : TokenStream} {a : α} (h : s.LeadsTo t) :
    Tells seen Untold s (.ok a t) :=
  .ok h (List.mem_append_right _ (s.current_mem_upTo t)) trivial

/-- The current token is seen when reading fails at it. -/
theorem Tells.blamed {seen : List Token} {W : α → Token → Prop} {s : TokenStream} {c : SyntaxError.Cause}
    (hc : c.token? = some s.current.text) : Tells seen W s (.error ⟨c, s.current.start⟩ s) :=
  .error (.refl s) (List.mem_append_right _ (s.current_mem_upTo s)) (SyntaxError.pointsAt_of_text hc)

namespace Quotes

variable {seen : List Token} {W : α → Token → Prop} {V : β → Token → Prop} {r : Reader α}

theorem pure {a : α} (h : ∃ u ∈ seen, W a u) : Quotes seen W (Pure.pure a) := by
  obtain ⟨u, hu, hw⟩ := h
  exact fun s => .ok (.refl s) (List.mem_append_left _ hu) hw

/-- The value is told from the token that was seen last. -/
theorem told {a : α} {u : Token} (h : W a u) : Quotes (u :: seen) W (Pure.pure a) :=
  pure ⟨u, List.mem_cons_self, h⟩

theorem done (a : α) : Quotes seen Untold (Pure.pure a) := fun s => .untold (.refl s)

theorem throw {e : SyntaxError} (h : ∃ u ∈ seen, e.PointsAt u) :
    Quotes seen W (MonadExcept.throw e) := by
  obtain ⟨u, hu, he⟩ := h
  exact fun s => .error (.refl s) (List.mem_append_left _ hu) he

/-- An error that is made of a token. -/
theorem throwAt {t : Token} {c : SyntaxError.Cause} (ht : t ∈ seen) (hc : c.token? = some t.text) :
    Quotes seen W (MonadExcept.throw ⟨c, t.start⟩) :=
  throw ⟨t, ht, SyntaxError.pointsAt_of_text hc⟩

theorem mono {seen' : List Token} (h : Quotes seen W r) (hseen : seen ⊆ seen') : Quotes seen' W r := by
  intro s
  have hmore : ∀ {t u}, u ∈ seen ++ s.upTo t → u ∈ seen' ++ s.upTo t := fun hu =>
    List.mem_append.2 ((List.mem_append.1 hu).imp_left fun hu => hseen hu)
  have hr := h s
  generalize r.run s = x at hr
  cases hr with
  | ok hst hu hw => exact .ok hst (hmore hu) hw
  | error hst hu he => exact .error hst (hmore hu) he

/-- The token that the first reader tells of may be used for the second. -/
theorem bindSeen {f : α → Reader β} (h : Quotes seen W r)
    (hf : ∀ a u, W a u → Quotes (u :: seen) V (f a)) : Quotes seen V (r >>= f) := by
  intro s
  have hr := h s
  rw [EStateM.run_bind]
  generalize r.run s = x at hr
  cases hr with
  | error hst hu he => exact .error hst hu he
  | @ok a t u hst hu hw =>
    dsimp only
    have hsecond := hf a u hw t
    generalize (f a).run t = y at hsecond
    cases hsecond with
    | ok htv hu' hv => exact .ok (hst.trans htv) (mem_seen_trans hst htv hu hu') hv
    | error htv hu' he => exact .error (hst.trans htv) (mem_seen_trans hst htv hu hu') he

theorem bind {f : α → Reader β} (h : Quotes seen W r) (hf : ∀ a, Quotes seen V (f a)) :
    Quotes seen V (r >>= f) :=
  h.bindSeen fun a _ _ => (hf a).mono (List.subset_cons_self _ _)

theorem ite {c : Prop} [Decidable c] {r' : Reader α} (h : Quotes seen W r) (h' : Quotes seen W r') :
    Quotes seen W (if c then r else r') := by
  split
  · exact h
  · exact h'

theorem kind : Quotes seen Untold kind := fun s => .untold (.refl s)

theorem peekKind (places : Nat) : Quotes seen Untold (peekKind places) := fun s => .untold (.refl s)

theorem remaining : Quotes seen Untold remaining := fun s => .untold (.refl s)

theorem freshId : Quotes seen Untold freshId := fun s => .untold (Forward.freshId s)

/-- A token that is taken is seen. -/
theorem take {f : Token → Reader α} (hf : ∀ t, Quotes (t :: seen) W (f t)) :
    Quotes seen W (advance >>= f) := by
  have hadvance : Quotes seen (fun t u => u = t) advance := fun s =>
    .ok (.advance s) (List.mem_append_right _ (s.current_mem_upTo _)) rfl
  refine hadvance.bindSeen ?_
  rintro t _ rfl
  exact hf _

theorem advance : Quotes seen Untold advance := take fun _ => done _

theorem unexpected : Quotes seen W unexpected := fun _ => .blamed rfl

theorem unexpectedWith (note : String) : Quotes seen W (unexpectedWith note) := fun _ => .blamed rfl

theorem expect (k : TokenKind) : Quotes seen Untold (expect k) := kind.bind fun _ => ite advance unexpected

/-- A name stands where its token starts. -/
theorem identOf {t : Token} (ht : t ∈ seen) : Quotes seen (fun x u => u.start = x.position) (identOf t) :=
  freshId.bind fun _ => pure ⟨t, ht, rfl⟩

theorem ident : Quotes seen (fun x u => u.start = x.position) ident :=
  kind.bind fun _ => ite (take fun _ => identOf List.mem_cons_self) (unexpectedWith _)

/-- An expression that is no location is blamed at the token at which it is reported. -/
theorem target {e : Expr} (he : ∃ u ∈ seen, StartsExpr e u) :
    Quotes seen (fun l u => u.start = l.position) (target e) := by
  obtain ⟨u, hu, hstart⟩ := he
  unfold Reader.target
  split
  · next l hl =>
    cases Expr.place?_eq_some_iff.1 hl
    exact pure ⟨u, hu, hstart⟩
  · exact throw ⟨u, hu, hstart, nofun⟩

/-! ## Lists -/

theorem collect {goesOn : TokenKind → Bool} (h : Quotes seen W r) :
    ∀ bound, Quotes seen Untold (collect goesOn r bound)
  | 0 => done _
  | bound + 1 => kind.bind fun _ => ite (h.bind fun _ => (collect h bound).bind fun _ => done _) (done _)

theorem many {goesOn : TokenKind → Bool} (h : Quotes seen W r) : Quotes seen Untold (many goesOn r) :=
  remaining.bind fun _ => h.collect _

theorem commaList (h : Quotes seen W r) : Quotes seen Untold (commaList r) :=
  h.bind fun _ => (many (advance.bind fun _ => h)).bind fun _ => done _

theorem unlessAtEnd {note : String} (h : Quotes seen W r) :
    Quotes seen W (do if (← Reader.kind) = .endOfInput then Reader.unexpectedWith note else r) :=
  kind.bind fun _ => ite (unexpectedWith _) h

/-! ## Expressions -/

section Operands
variable {operand : Operands} (h : ∀ seen power, Quotes seen StartsExpr (operand power))
include h

theorem afterStart (rule : StartRule) {t : Token} (ht : t ∈ seen) :
    Quotes seen StartsExpr (afterStart operand rule t) := by
  cases rule with
  | primary =>
    dsimp only [Reader.afterStart]
    split
    · split
      · exact pure ⟨t, ht, rfl⟩
      · exact throwAt ht rfl
    · exact pure ⟨t, ht, rfl⟩
    · exact pure ⟨t, ht, rfl⟩
    · exact pure ⟨t, ht, rfl⟩
    · exact (identOf ht).bindSeen fun _ u hu => told hu
    · exact throwAt ht rfl
  | unary => exact (h _ _).bindSeen fun _ u hu => told hu
  | group =>
    exact (h _ _).bindSeen fun _ u hu => (expect _).bind fun _ => told hu

/-- An expression that goes on is reported where its left part is, or at the field that was read last. -/
theorem afterOperator {left : Expr} (hleft : ∃ u ∈ seen, StartsExpr left u) (power : BindingPower)
    (rule : OperatorRule) {t : Token} (ht : t ∈ seen) :
    Quotes seen StartsExpr (afterOperator operand left power rule t) := by
  cases rule with
  | binary =>
    dsimp only [Reader.afterOperator]
    split
    · exact throwAt ht rfl
    · exact (h _ _).bind fun _ => pure hleft
  | assign =>
    exact (target hleft).bindSeen fun _ u hu => (h _ _).bind fun _ => told hu
  | call =>
    dsimp only [Reader.afterOperator]
    split
    · next callee =>
      have hclose : ∀ args : List Expr, Quotes seen StartsExpr (do
          let _ ← Reader.expect .closeParen
          return Expr.call callee args) := fun _ => (expect _).bind fun _ => pure hleft
      exact kind.bind fun _ => ite ((done []).bind hclose) ((commaList (h _ _)).bind hclose)
    · exact throwAt ht rfl
  | access =>
    dsimp only [Reader.afterOperator]
    split
    · exact throwAt ht rfl
    · exact freshId.bind fun _ => ident.bindSeen fun _ u hu => told hu

/-- The invariant of the loop: what was read so far is reported at a token that was seen. -/
theorem operators (rules : Rules) : ∀ (bound : Nat) (power : BindingPower) {left : Expr} {seen : List Token},
    (∃ u ∈ seen, StartsExpr left u) → Quotes seen StartsExpr (operators rules operand bound power left)
  | 0, _, _, _, hleft => pure hleft
  | bound + 1, power, left, seen, hleft => by
    unfold Reader.operators
    refine kind.bind fun k => ite (pure hleft) ?_
    split
    · exact pure hleft
    · next rule _ =>
      rw [continuation_eq, bind_assoc]
      refine take fun t => ?_
      obtain ⟨u, hu, hstart⟩ := hleft
      have hlonger := afterOperator h ⟨u, List.mem_cons_of_mem t hu, hstart⟩ (rules.powerOf k) rule
        (List.mem_cons_self (a := t))
      exact hlonger.bindSeen fun _ v hv => operators rules bound power ⟨v, List.mem_cons_self, hv⟩

end Operands

theorem exprWithin (rules : Rules) : ∀ (bound : Nat) (seen : List Token) (power : BindingPower),
    Quotes seen StartsExpr (exprWithin rules bound power)
  | 0, _, _ => unexpected
  | bound + 1, seen, power => by
    unfold Reader.exprWithin
    refine kind.bind fun k => ?_
    split
    · exact unexpected
    · next rule _ =>
      rw [start_eq, bind_assoc]
      refine take fun t => ?_
      exact (afterStart (exprWithin rules bound) rule List.mem_cons_self).bindSeen fun _ u hu =>
        operators (exprWithin rules bound) rules _ power ⟨u, List.mem_cons_self, hu⟩

theorem expr (rules : Rules) (power : BindingPower) : Quotes seen StartsExpr (expr rules power) :=
  remaining.bind fun _ => exprWithin rules _ _ power

/-! ## Types and declarations of names -/

section Rules
variable (rules : Rules)

theorem typeName : Quotes seen Untold (typeName rules) := by
  refine kind.bind fun k => ?_
  split
  · next rule _ =>
    cases rule with
    | word =>
      refine take fun t => ?_
      split
      · exact done _
      · exact done _
      · exact done _
      · exact throwAt List.mem_cons_self rfl
    | tuple => exact (expect _).bind fun _ => ident.bind fun _ => done _
  · exact unexpectedWith _

theorem simpleType : Quotes seen Untold (simpleType rules) :=
  kind.bind fun _ => ite (typeName rules) (unexpectedWith _)

theorem varDecl : Quotes seen Untold (varDecl rules) :=
  (typeName rules).bind fun _ => ident.bind fun _ => (expect _).bind fun _ => done _

theorem formal : Quotes seen Untold (formal rules) :=
  (simpleType rules).bind fun _ => ident.bind fun _ => done _

/-! ## Statements and blocks -/

section Inner
variable {stmt : Reader Stmt} (h : ∀ seen, Quotes seen Untold stmt)
include h

theorem blockOf : Quotes seen Untold (blockOf rules stmt) :=
  (expect _).bind fun _ => (many (varDecl rules)).bind fun _ =>
    (many (h seen).unlessAtEnd).bind fun _ => (expect _).bind fun _ => done _

theorem afterWord (rule : StmtRule) (t : Token) : Quotes seen Untold (afterWord rules stmt rule t) := by
  have hexpr : Quotes seen StartsExpr (Reader.expr rules .default) := expr rules .default
  have hblock : Quotes seen Untold (Reader.blockOf rules stmt) := blockOf rules h
  cases rule with
  | ifElse =>
    exact hexpr.bind fun _ => hblock.bind fun _ => kind.bind fun _ =>
      ite (advance.bind fun _ => hblock.bind fun _ => done _) (done _)
  | whileDo => exact hexpr.bind fun _ => hblock.bind fun _ => done _
  | read =>
    exact (expect _).bind fun _ => hexpr.bindSeen fun _ u hu => (expect _).bind fun _ =>
      (target ⟨u, List.mem_cons_self, hu⟩).bind fun _ => done _
  | write => exact (expect _).bind fun _ => hexpr.bind fun _ => (expect _).bind fun _ => done _
  | ret =>
    have hdot : ∀ value : Option Expr, Quotes seen Untold (do
        let _ ← Reader.expect .dot
        return Stmt.ret value t.start) := fun _ => (expect _).bind fun _ => done _
    have hvalue : Quotes seen Untold (some <$> Reader.expr rules .default) := by
      rw [map_eq_pure_bind]
      exact hexpr.bind fun _ => done _
    exact kind.bind fun _ => ite ((done none).bind hdot) (hvalue.bind hdot)

end Inner

/-- A statement that is none is blamed at the token at which its expression is reported. -/
theorem afterExpr {e : Expr} (he : ∃ u ∈ seen, StartsExpr e u) : Quotes seen Untold (afterExpr e) := by
  obtain ⟨u, hu, hstart⟩ := he
  have hstep : ∀ f : Loc → Stmt, Quotes seen Untold (do
      let _ ← Reader.advance
      let _ ← Reader.expect .dot
      return f (← Reader.target e)) := fun _ =>
    advance.bind fun _ => (expect _).bind fun _ => (target ⟨u, hu, hstart⟩).bind fun _ => done _
  refine kind.bind fun k => ?_
  split
  · exact hstep _
  · exact hstep _
  · refine advance.bind fun _ => ?_
    split
    · exact done _
    · exact done _
    · exact throw ⟨u, hu, hstart, nofun⟩
  · exact unexpected

theorem exprStmt : Quotes seen Untold (exprStmt rules) :=
  (expr rules .default).bindSeen fun _ u hu => afterExpr ⟨u, List.mem_cons_self, hu⟩

theorem stmtWithin : ∀ (bound : Nat) (seen : List Token), Quotes seen Untold (stmtWithin rules bound)
  | 0, _ => unexpected
  | bound + 1, seen => by
    unfold Reader.stmtWithin
    refine kind.bind fun k => ?_
    split
    · next rule _ =>
      rw [stmtOf_eq]
      exact advance.bind fun t => afterWord rules (stmtWithin bound) rule t
    · exact exprStmt rules

theorem block : Quotes seen Untold (block rules) := remaining.bind fun _ => blockOf rules (stmtWithin rules _)

/-! ## Declarations -/

theorem functionDecl : Quotes seen Untold (functionDecl rules) := by
  have hbody : ∀ (result : TypeName) (name : Ident) (formals : List VarDecl), Quotes seen Untold (do
      let _ ← Reader.expect .closeCurly
      let body ← Reader.block rules
      return FunctionDecl.mk result name formals body) := fun _ _ _ =>
    (expect _).bind fun _ => (block rules).bind fun _ => done _
  exact (simpleType rules).bind fun _ => ident.bind fun _ => (expect _).bind fun _ => kind.bind fun _ =>
    ite ((done []).bind (hbody _ _)) ((commaList (formal rules)).bind (hbody _ _))

theorem tupleDecl : Quotes seen Untold (tupleDecl rules) :=
  (expect _).bind fun _ => ident.bind fun _ => (expect _).bind fun _ =>
    (many (varDecl rules).unlessAtEnd).bind fun _ => (expect _).bind fun _ => (expect _).bind fun _ => done _

theorem decl : Quotes seen Untold (decl rules) := by
  have hvar : Quotes seen Untold (do return Decl.var (← Reader.varDecl rules)) :=
    (varDecl rules).bind fun _ => done _
  exact kind.bind fun _ => (peekKind 2).bind fun _ =>
    ite (ite ((tupleDecl rules).bind fun _ => done _) hvar)
      (ite (ite ((functionDecl rules).bind fun _ => done _) hvar) (unexpectedWith _))

theorem program : Quotes seen Untold (program rules) := (many (decl rules)).bind fun _ => done _

end Rules
end Quotes

/-! ## Errors of a parse -/

/-- A syntax error points at a token and quotes it. If a list of tokens does not parse, then reading
stands at some place of its stream when it fails. The error is at the start of a token that stands
there or before, and if it quotes a text then this is the text of that token. The stream is the list,
with an end of the input if it does not end with one. -/
theorem parse_error_quotes {ts : List Token} {e : SyntaxError} (h : parse ts = .error e) :
    let s := TokenStream.ofTokens ts
    s.tokens = (if ts.getLast?.map Token.kind = some .endOfInput then ts else ts ++ [s.final]) ∧
      ∃ k t, (program .standard).run s = .error e t ∧ t.StandsAt s.tokens k ∧
        ∃ i ≤ k, ∃ tok, s.tokens[i]? = some tok ∧ e.PointsAt tok := by
  intro s
  obtain ⟨t, hrun⟩ := run_of_parse_error h
  have hstands : t.StandsAt s.tokens (s.ahead.length - t.ahead.length) := by
    have hmoved := (TokenStream.standsAt_zero s).moved (Careful.program s)
    rw [hrun, Nat.zero_add] at hmoved
    exact hmoved
  have hprogram : Quotes [] Untold (program .standard) := .program .standard
  have hquotes := hprogram s
  rw [hrun] at hquotes
  cases hquotes with
  | error _ hu he =>
    obtain ⟨i, hi, rfl⟩ := List.mem_take_iff_getElem.1 hu
    exact ⟨TokenStream.tokens_ofTokens ts, _, t, hrun, hstands, i, by omega, _,
      List.getElem?_eq_getElem _, he⟩

/-- A negated name where a statement should stand. -/
def negatedName : List Token :=
  [⟨.voidWord, "void", ⟨⟨1, 1⟩, ⟨1, 5⟩⟩⟩, ⟨.identifier, "f", ⟨⟨1, 6⟩, ⟨1, 7⟩⟩⟩,
    ⟨.openCurly, "\x7b", ⟨⟨1, 7⟩, ⟨1, 8⟩⟩⟩, ⟨.closeCurly, "\x7d", ⟨⟨1, 8⟩, ⟨1, 9⟩⟩⟩,
    ⟨.openBracket, "[", ⟨⟨2, 1⟩, ⟨2, 2⟩⟩⟩, ⟨.dash, "-", ⟨⟨3, 1⟩, ⟨3, 2⟩⟩⟩,
    ⟨.identifier, "a", ⟨⟨3, 2⟩, ⟨3, 3⟩⟩⟩, ⟨.dot, ".", ⟨⟨3, 3⟩, ⟨3, 4⟩⟩⟩]

theorem parse_error_quotes_negated : parse negatedName = .error ⟨.invalidStatement, ⟨3, 2⟩⟩ ∧
    ∃ tok ∈ (TokenStream.ofTokens negatedName).tokens, tok.start = ⟨3, 2⟩ := by
  have hparse : parse negatedName = .error ⟨.invalidStatement, ⟨3, 2⟩⟩ := rfl
  obtain ⟨-, k, t, -, -, i, -, tok, htok, hpoints⟩ := parse_error_quotes hparse
  exact ⟨hparse, tok, List.mem_of_getElem? htok, hpoints.start⟩

end Reader
end BaseLang
