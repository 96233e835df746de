import BaseLang.Proofs.Parsing.StatementBounds

/-
  What all readers of the language have in common.

  The readers are put together in a few ways from what takes a token and what hands out a
  number. A property that each of these ways keeps is one of every reader of expressions, of
  types, of statements and of blocks, and of all declarations but for the choice between
  them, which looks further ahead.

    1. `Composes` — the ways in which readers are put together;
    2. `Composes.many` — loops, `Composes.expr` — expressions, `Composes.stmt` and
       `Composes.block` — statements and blocks;
    3. `Composes.varDecl`, `Composes.functionDecl`, `Composes.tupleDecl` — declarations.
-/

namespace BaseLang.Reader

/-- A declaration, once it is known whether an opening brace comes after its first two tokens. -/
def declBy (opensBody : Bool) : Reader Decl := do
  let k ← kind
  if k = .tupleWord then
    if opensBody then return .tuple (← tupleDecl .standard) else return .var (← varDecl .standard)
  else if k.isSimpleType then
    if opensBody then return .function (← functionDecl .standard)
    else return .var (← varDecl .standard)
  else unexpectedWith "expected a declaration"

theorem decl_run (s : TokenStream) :
    (decl .standard).run s = (declBy (s.peekKind 2 == .openCurly)).run s := rfl

/-- A property of a reader and the stream from which it reads is kept by every way of putting
readers together. A token is taken once it is seen to be no end of the input; and a reader has
the property if on streams of each length it reads as some reader does that has it. -/
structure Composes (P : {α : Type} → Reader α → TokenStream → Prop) : Prop where
  pure {α : Type} (a : α) (s : TokenStream) : P (Pure.pure a : Reader α) s
  throw {α : Type} (e : SyntaxError) (s : TokenStream) : P (MonadExcept.throw e : Reader α) s
  bind {α β : Type} {r : Reader α} {f : α → Reader β} {s : TokenStream} (hr : P r s)
    (hf : ∀ a t, P (f a) t) : P (r >>= f) s
  current {α : Type} {f : Token → Reader α} {s : TokenStream} (h : P (f s.current) s) :
    P (Reader.current >>= f) s
  advance {s : TokenStream} (h : s.current.kind ≠ .endOfInput) : P Reader.advance s
  freshId (s : TokenStream) : P Reader.freshId s
  limit {α : Type} {r : Reader α} (h : ∀ n, ∃ r' : Reader α, (∀ s, P r' s) ∧
    ∀ s : TokenStream, s.ahead.length < n → r'.run s = r.run s) (s : TokenStream) : P r s

namespace Composes

variable {P : {α : Type} → Reader α → TokenStream → Prop} (h : Composes P)
variable {α β : Type} {s : TokenStream}
include h

/-- What is done with the kind of the current token may depend on it. -/
theorem kind {f : TokenKind → Reader α} (hf : P (f s.current.kind) s) : P (Reader.kind >>= f) s :=
  h.current (f := fun t => f t.kind) hf

/-- The kind of the current token decides how to go on. -/
theorem choose {c : TokenKind → Prop} [DecidablePred c] {r₁ r₂ : TokenKind → Reader α}
    (h₁ : c s.current.kind → P (r₁ s.current.kind) s)
    (h₂ : ¬ c s.current.kind → P (r₂ s.current.kind) s) :
    P (Reader.kind >>= fun k => if c k then r₁ k else r₂ k) s := by
  refine h.kind ?_
  split
  · next hc => exact h₁ hc
  · next hc => exact h₂ hc

theorem map {r : Reader α} (f : α → β) (hr : P r s) : P (f <$> r) s := by
  rw [map_eq_pure_bind]
  exact h.bind hr fun a => h.pure (f a)

/-- A token of a kind that is known is taken. -/
theorem take {k : TokenKind} (hs : s.current.kind = k) (hk : k ≠ .endOfInput) {f : Token → Reader α}
    (hf : ∀ t u, P (f t) u) : P (Reader.advance >>= f) s :=
  h.bind (h.advance (hs ▸ hk)) hf

theorem unexpected (s : TokenStream) : P (Reader.unexpected : Reader α) s := h.current (h.throw _ s)

theorem unexpectedWith (note : String) (s : TokenStream) : P (Reader.unexpectedWith note : Reader α) s :=
  h.current (h.throw _ s)

theorem expect {k : TokenKind} (hk : k ≠ .endOfInput) (s : TokenStream) : P (expect k) s :=
  h.choose (fun hs => h.advance (hs ▸ hk)) fun _ => h.unexpected s

theorem identOf (t : Token) (s : TokenStream) : P (identOf t) s := h.bind (h.freshId s) fun _ => h.pure _

theorem ident (s : TokenStream) : P ident s :=
  h.choose (fun hs => h.take hs (by decide) h.identOf) fun _ => h.unexpectedWith _ s

theorem target (e : Expr) (s : TokenStream) : P (target e) s := by
  unfold Reader.target
  split
  · exact h.pure _ s
  · exact h.throw _ s

/-! ## Loops -/

section Loops
variable {goesOn : TokenKind → Bool} {item : Reader α}

/-- Items need the property only where one is begun. -/
theorem collect (hitem : ∀ s : TokenStream, goesOn s.current.kind = true → P item s) :
    ∀ bound s, P (collect goesOn item bound) s
  | 0, s => h.pure _ s
  | bound + 1, s => h.choose
      (fun hs => h.bind (hitem s hs) fun _ _ => h.bind (collect hitem bound _) fun _ => h.pure _)
      fun _ => h.pure _ s

theorem many (hc : Consumes item) (hitem : ∀ s : TokenStream, goesOn s.current.kind = true → P item s)
    (s : TokenStream) : P (many goesOn item) s :=
  h.limit (fun n => ⟨Reader.collect goesOn item n, h.collect hitem n, fun s hs =>
    collect_congr hc n (s.ahead.length + 1) s hs (Nat.lt_succ_self _)⟩) s

theorem commaList (hc : Consumes item) (hitem : ∀ s, P item s) (s : TokenStream) : P (commaList item) s :=
  have hmore : ∀ s : TokenStream, (s.current.kind == .comma) = true →
      P (Reader.advance >>= fun _ => item) s := fun _ hcomma =>
    h.take (beq_iff_eq.1 hcomma) (by decide) fun _ => hitem
  h.bind (hitem s) fun _ _ => h.bind (h.many (.afterComma hc) hmore _) fun _ => h.pure _

end Loops

/-! ## Expressions -/

section Operands
variable {operand : Operands} (hoperand : ∀ power s, P (operand power) s)
include hoperand

theorem afterStart (rule : StartRule) (t : Token) (s : TokenStream) : P (afterStart operand rule t) s := by
  cases rule with
  | primary =>
    dsimp only [Reader.afterStart]
    split
    · split
      · exact h.pure _ s
      · exact h.throw _ s
    · exact h.pure _ s
    · exact h.pure _ s
    · exact h.pure _ s
    · exact h.bind (h.identOf t s) fun _ => h.pure _
    · exact h.throw _ s
  | unary => exact h.bind (hoperand _ s) fun _ => h.pure _
  | group => exact h.bind (hoperand _ s) fun _ _ => h.bind (h.expect (by decide) _) fun _ => h.pure _

variable (hc : ∀ power, Consumes (operand power))
include hc

theorem afterOperator (left : Expr) (power : BindingPower) (rule : OperatorRule) (t : Token)
    (s : TokenStream) : P (afterOperator operand left power rule t) s := by
  cases rule with
  | binary =>
    dsimp only [Reader.afterOperator]
    split
    · exact h.throw _ s
    · exact h.bind (hoperand _ s) fun _ => h.pure _
  | assign => exact h.bind (h.target _ s) fun _ _ => h.bind (hoperand _ _) fun _ => h.pure _
  | call =>
    dsimp only [Reader.afterOperator]
    split
    · have hclose : ∀ (callee : Ident) (args : List Expr) (s : TokenStream), P (do
          let _ ← Reader.expect .closeParen
          return Expr.call callee args) s := fun _ _ _ => h.bind (h.expect (by decide) _) fun _ => h.pure _
      exact h.choose (fun _ => h.bind (h.pure _ s) fun _ => hclose _ _)
        fun _ => h.bind (h.commaList (hc _) (hoperand _) s) fun _ => hclose _ _
    · exact h.throw _ s
  | access =>
    dsimp only [Reader.afterOperator]
    split
    · exact h.throw _ s
    · exact h.bind (h.freshId s) fun _ _ => h.bind (h.ident _) fun _ => h.pure _

theorem operators : ∀ bound power left s, P (operators .standard operand bound power left) s
  | 0, _, _, s => h.pure _ s
  | bound + 1, power, left, s => by
    unfold Reader.operators
    refine h.choose (fun _ => h.pure _ s) fun _ => ?_
    split
    · exact h.pure _ s
    · next rule hrule =>
      rw [continuation_eq, bind_assoc]
      exact h.bind (h.advance (ne_end_of_rule standard_endOfInput.2.1 hrule)) fun t _ =>
        h.bind (h.afterOperator hoperand hc _ _ _ t _) fun longer => operators bound power longer

end Operands

theorem exprWithin : ∀ bound power s, P (exprWithin .standard bound power) s
  | 0, _, s => h.unexpected s
  | bound + 1, power, s => by
    unfold Reader.exprWithin
    refine h.kind ?_
    split
    · exact h.unexpected s
    · next rule hrule =>
      rw [start_eq, bind_assoc]
      exact h.bind (h.advance (ne_end_of_rule standard_endOfInput.1 hrule)) fun t _ =>
        h.bind (h.afterStart (exprWithin bound) _ t _) fun _ =>
          h.operators (exprWithin bound) (.exprWithin bound) _ _ _

theorem expr (power : BindingPower) (s : TokenStream) : P (expr .standard power) s :=
  h.limit (fun n => ⟨Reader.exprWithin .standard n power, h.exprWithin n power, fun s hs =>
    agreeFrom_expr (Nat.le_of_lt hs) power s (.refl s)⟩) s

/-! ## Types and declarations of names -/

theorem typeName (s : TokenStream) : P (typeName .standard) s := by
  refine h.kind ?_
  split
  · next rule hrule =>
    cases rule with
    | word =>
      refine h.bind (h.advance (ne_end_of_rule rfl hrule)) fun t u => ?_
      split
      · exact h.pure _ u
      · exact h.pure _ u
      · exact h.pure _ u
      · exact h.throw _ u
    | tuple => exact h.bind (h.expect (by decide) s) fun _ _ => h.bind (h.ident _) fun _ => h.pure _
  · exact h.unexpectedWith _ s

theorem simpleType (s : TokenStream) : P (simpleType .standard) s :=
  h.choose (fun _ => h.typeName s) fun _ => h.unexpectedWith _ s

theorem varDecl (s : TokenStream) : P (varDecl .standard) s :=
  h.bind (h.typeName s) fun _ _ => h.bind (h.ident _) fun _ _ =>
    h.bind (h.expect (by decide) _) fun _ => h.pure _

theorem formal (s : TokenStream) : P (formal .standard) s :=
  h.bind (h.simpleType s) fun _ _ => h.bind (h.ident _) fun _ => h.pure _

/-! ## Statements and blocks -/

theorem unlessAtEnd {note : String} {item : Reader α} (hitem : P item s) :
    P (do if (← Reader.kind) = .endOfInput then Reader.unexpectedWith note else item) s :=
  h.choose (fun _ => h.unexpectedWith _ s) fun _ => hitem

section Inner
variable {stmt : Reader Stmt} (hc : Consumes stmt) (hstmt : ∀ s, P stmt s)
include hc hstmt

theorem blockOf (s : TokenStream) : P (blockOf .standard stmt) s :=
  h.bind (h.expect (by decide) s) fun _ _ =>
    h.bind (h.many (.varDecl .standard) (fun s _ => h.varDecl s) _) fun _ _ =>
      h.bind (h.many (.unlessAtEnd _ hc) (fun s _ => h.unlessAtEnd (hstmt s)) _) fun _ _ =>
        h.bind (h.expect (by decide) _) fun _ => h.pure _

theorem afterWord (rule : StmtRule) (t : Token) (s : TokenStream) : P (afterWord .standard stmt rule t) s := by
  have hexpr := h.expr .default
  have hblock := h.blockOf hc hstmt
  have hdot : ∀ (x : Stmt) (s : TokenStream), P (do
      let _ ← Reader.expect .dot
      return x) s := fun _ _ => h.bind (h.expect (by decide) _) fun _ => h.pure _
  cases rule with
  | ifElse =>
    exact h.bind (hexpr s) fun _ _ => h.bind (hblock _) fun _ u => h.choose
      (fun helse => h.take helse (by decide) fun _ _ => h.bind (hblock _) fun _ => h.pure _)
      fun _ => h.pure _ u
  | whileDo => exact h.bind (hexpr s) fun _ _ => h.bind (hblock _) fun _ => h.pure _
  | read =>
    exact h.bind (h.expect (by decide) s) fun _ _ => h.bind (hexpr _) fun _ _ =>
      h.bind (h.expect (by decide) _) fun _ _ => h.bind (h.target _ _) fun _ => h.pure _
  | write => exact h.bind (h.expect (by decide) s) fun _ _ => h.bind (hexpr _) fun _ => hdot _
  | ret =>
    exact h.choose (fun _ => h.bind (h.pure _ s) fun _ => hdot _)
      fun _ => h.bind (h.map _ (hexpr s)) fun _ => hdot _

end Inner

theorem afterExpr (e : Expr) (s : TokenStream) : P (afterExpr e) s := by
  have hstep : ∀ (f : Loc → Stmt) (s : TokenStream), P (do
      let _ ← Reader.expect .dot
      return f (← Reader.target e)) s := fun _ _ =>
    h.bind (h.expect (by decide) _) fun _ _ => h.bind (h.target _ _) fun _ => h.pure _
  refine h.kind ?_
  split
  · next hk => exact h.take hk (by decide) fun _ => hstep _
  · next hk => exact h.take hk (by decide) fun _ => hstep _
  · next hk =>
    refine h.take hk (by decide) fun _ u => ?_
    split
    · exact h.pure _ u
    · exact h.pure _ u
    · exact h.throw _ u
  · exact h.unexpected s

theorem exprStmt (s : TokenStream) : P (exprStmt .standard) s := h.bind (h.expr .default s) h.afterExpr

theorem stmtWithin : ∀ bound s, P (stmtWithin .standard bound) s
  | 0, s => h.unexpected s
  | bound + 1, s => by
    unfold Reader.stmtWithin
    refine h.kind ?_
    split
    · next rule hrule =>
      rw [stmtOf_eq]
      exact h.bind (h.advance (ne_end_of_rule standard_endOfInput.2.2 hrule))
        (h.afterWord (.stmtWithin bound) (stmtWithin bound) rule)
    · exact h.exprStmt s

theorem stmt (s : TokenStream) : P (stmt .standard) s :=
  h.limit (fun n => ⟨Reader.stmtWithin .standard n, h.stmtWithin n, fun s hs =>
    agreeFrom_stmt (Nat.le_of_lt hs) s (.refl s)⟩) s

theorem block (s : TokenStream) : P (block .standard) s :=
  h.limit (fun _ => ⟨Reader.blockOf .standard (Reader.stmt .standard), h.blockOf .stmt h.stmt, fun s _ =>
    (block_run s).symm⟩) s

/-! ## Declarations -/

theorem functionDecl (s : TokenStream) : P (functionDecl .standard) s := by
  have hbody : ∀ (result : TypeName) (name : Ident) (formals : List VarDecl) (s : TokenStream), P (do
      let _ ← Reader.expect .closeCurly
      let body ← Reader.block .standard
      return FunctionDecl.mk result name formals body) s := fun _ _ _ _ =>
    h.bind (h.expect (by decide) _) fun _ _ => h.bind (h.block _) fun _ => h.pure _
  exact h.bind (h.simpleType s) fun _ _ => h.bind (h.ident _) fun _ _ =>
    h.bind (h.expect (by decide) _) fun _ u => h.choose
      (fun _ => h.bind (h.pure _ u) fun _ => hbody _ _ _)
      fun _ => h.bind (h.commaList (.formal .standard) h.formal u) fun _ => hbody _ _ _

theorem tupleDecl (s : TokenStream) : P (tupleDecl .standard) s :=
  h.bind (h.expect (by decide) s) fun _ _ => h.bind (h.ident _) fun _ _ =>
    h.bind (h.expect (by decide) _) fun _ _ =>
      h.bind (h.many (.unlessAtEnd _ (.varDecl .standard)) (fun s _ => h.unlessAtEnd (h.varDecl s)) _)
        fun _ _ => h.bind (h.expect (by decide) _) fun _ _ =>
          h.bind (h.expect (by decide) _) fun _ => h.pure _

theorem declBy (opensBody : Bool) (s : TokenStream) : P (declBy opensBody) s := by
  have hvar : P (do return Decl.var (← Reader.varDecl .standard)) s :=
    h.bind (h.varDecl s) fun _ => h.pure _
  refine h.choose (fun _ => ?_) fun _ => ?_
  · cases opensBody
    · exact hvar
    · exact h.bind (h.tupleDecl s) fun _ => h.pure _
  · split
    · cases opensBody
      · exact hvar
      · exact h.bind (h.functionDecl s) fun _ => h.pure _
    · exact h.unexpectedWith _ s

end Composes

end BaseLang.Reader
