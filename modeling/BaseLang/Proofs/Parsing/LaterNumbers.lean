import BaseLang.Proofs.Parsing.StatementBounds
import BaseLang.Proofs.Tree.Relabelling

/-
  Readers hand out node numbers and never look at them.

  A stream that begins to count later gives a tree with later numbers in it, and nothing else
  differs: the same tokens are taken, and an error is the same error.

    1. `TokenStream.later`, `Relabelling.later` — a stream and a tree with later numbers;
    2. `Shifts` — a reader commutes with counting later, with one lemma for each way in which
       readers are put together;
    3. `Shifts.expr`, `Shifts.block`, `Shifts.decl`, `Shifts.program` — and so do all readers.
-/

namespace BaseLang

def TokenStream.later (n : NodeId) (s : TokenStream) : TokenStream := { s with nextId := s.nextId + n }

def Relabelling.later (n : NodeId) : Relabelling where
  ident x := { x with id := x.id + n }
  access id := id + n
  position p := p

variable (n : NodeId)

theorem Loc.position_later (l : Loc) : (l.relabel (.later n)).position = l.position := by
  cases l <;> rfl

theorem Expr.position_later : ∀ e : Expr, (e.relabel (.later n)).position = e.position
  | .unary _ v | .binary _ v _ => position_later v
  | .loc l | .assign l _ => l.position_later n
  | .call _ _ | .logical _ _ | .int _ _ | .string _ _ => rfl

theorem Expr.place?_relabel (r : Relabelling) (e : Expr) :
    (e.relabel r).place? = e.place?.map (Loc.relabel r) := by
  cases e <;> rfl

namespace Reader

variable {α β γ δ : Type}

/-- The outcome with later numbers in what is read and in what is left. -/
def laterOutcome (f : α → β) :
    EStateM.Result SyntaxError TokenStream α → EStateM.Result SyntaxError TokenStream β
  | .ok a s => .ok (f a) (s.later n)
  | .error e s => .error e (s.later n)

/-- On a stream with later numbers the second reader does what the first does without, where `f` puts
the later numbers into what is read. -/
def Shifts (f : α → β) (r : Reader α) (r' : Reader β) : Prop :=
  ∀ s, r'.run (s.later n) = laterOutcome n f (r.run s)

namespace Shifts
variable {n} {f : α → β} {g : γ → δ} {r : Reader α} {r' : Reader β}

theorem pure (a : α) : Shifts n f (Pure.pure a) (Pure.pure (f a)) := fun _ => rfl

theorem throw (e : SyntaxError) : Shifts n f (MonadExcept.throw e) (MonadExcept.throw e) := fun _ => rfl

theorem bind {k : α → Reader γ} {k' : β → Reader δ} (h : Shifts n f r r')
    (hk : ∀ a, Shifts n g (k a) (k' (f a))) : Shifts n g (r >>= k) (r' >>= k') := by
  intro s
  rw [EStateM.run_bind, EStateM.run_bind, h s]
  cases r.run s with
  | ok a t => exact hk a t
  | error e t => rfl

theorem ite {c : Prop} [Decidable c] {u : Reader α} {u' : Reader β} (h : Shifts n f r r')
    (h' : Shifts n f u u') : Shifts n f (if c then r else u) (if c then r' else u') := by
  split
  · exact h
  · exact h'

theorem map {F : α → γ} {F' : β → δ} (h : Shifts n f r r') (hF : ∀ a, F' (f a) = g (F a)) :
    Shifts n g (F <$> r) (F' <$> r') := by
  rw [map_eq_pure_bind, map_eq_pure_bind]
  refine h.bind fun a => ?_
  rw [hF]
  exact pure _

theorem kind : Shifts n id kind kind := fun _ => rfl

theorem peekKind (places : Nat) : Shifts n id (peekKind places) (peekKind places) := fun _ => rfl

theorem remaining : Shifts n id remaining remaining := fun _ => rfl

theorem advance : Shifts n id advance advance := fun _ => rfl

theorem unexpected : Shifts n f unexpected unexpected := fun _ => rfl

theorem unexpectedWith (note : String) : Shifts n f (unexpectedWith note) (unexpectedWith note) :=
  fun _ => rfl

/-- The number itself is the one thing that differs. -/
theorem freshId : Shifts n (· + n) freshId freshId := by
  intro s
  have hnext : s.nextId + n + 1 = s.nextId + 1 + n := Nat.add_right_comm _ _ _
  change EStateM.Result.ok (s.nextId + n) { s with nextId := s.nextId + n + 1 } = _
  rw [hnext]
  rfl

theorem expect (k : TokenKind) : Shifts n id (expect k) (expect k) := kind.bind fun _ => ite advance unexpected

theorem identOf (t : Token) : Shifts n (Relabelling.later n).ident (identOf t) (identOf t) :=
  freshId.bind fun _ => pure _

theorem ident : Shifts n (Relabelling.later n).ident ident ident :=
  kind.bind fun _ => ite (advance.bind identOf) (unexpectedWith _)

theorem target (e : Expr) :
    Shifts n (Loc.relabel (.later n)) (target e) (target (e.relabel (.later n))) := by
  rw [Reader.target, Reader.target, e.position_later, e.place?_relabel]
  cases e.place? with
  | none => exact throw _
  | some l => exact pure l

/-! ## Lists -/

theorem collect {goesOn : TokenKind → Bool} {item : Reader α} {item' : Reader β}
    (h : Shifts n f item item') :
    ∀ bound, Shifts n (List.map f) (collect goesOn item bound) (collect goesOn item' bound)
  | 0 => pure _
  | bound + 1 => kind.bind fun _ =>
      ite (h.bind fun _ => (collect h bound).bind fun _ => pure _) (pure _)

theorem many {goesOn : TokenKind → Bool} {item : Reader α} {item' : Reader β} (h : Shifts n f item item') :
    Shifts n (List.map f) (many goesOn item) (many goesOn item') :=
  remaining.bind fun _ => h.collect _

theorem commaList {item : Reader α} {item' : Reader β} (h : Shifts n f item item') :
    Shifts n (List.map f) (commaList item) (commaList item') :=
  h.bind fun _ => (many (advance.bind fun _ => h)).bind fun _ => pure _

theorem unlessAtEnd {note : String} {item : Reader α} {item' : Reader β} (h : Shifts n f item item') :
    Shifts n f (do if (← Reader.kind) = .endOfInput then Reader.unexpectedWith note else item)
      (do if (← Reader.kind) = .endOfInput then Reader.unexpectedWith note else item') :=
  kind.bind fun _ => ite (unexpectedWith _) h

/-! ## Expressions -/

section Operands
variable {operand : Operands} (h : ∀ power, Shifts n (Expr.relabel (.later n)) (operand power) (operand power))
include h

theorem afterStart (rule : StartRule) (t : Token) :
    Shifts n (Expr.relabel (.later n)) (afterStart operand rule t) (afterStart operand rule t) := by
  cases rule with
  | primary =>
    dsimp only [Reader.afterStart]
    split
    · split
      · exact pure _
      · exact throw _
    · exact pure _
    · exact pure _
    · exact pure _
    · exact (identOf t).bind fun _ => pure _
    · exact throw _
  | unary => exact (h _).bind fun _ => pure _
  | group => exact (h _).bind fun _ => (expect _).bind fun _ => pure _

theorem afterOperator (left : Expr) (power : BindingPower) (rule : OperatorRule) (t : Token) :
    Shifts n (Expr.relabel (.later n)) (afterOperator operand left power rule t)
      (afterOperator operand (left.relabel (.later n)) power rule t) := by
  cases rule with
  | binary =>
    dsimp only [Reader.afterOperator]
    split
    · exact throw _
    · exact (h _).bind fun _ => pure _
  | assign => exact (target left).bind fun _ => (h _).bind fun _ => pure _
  | call =>
    have hclose : ∀ (callee : Ident) (args : List Expr), Shifts n (Expr.relabel (.later n))
        (do let _ ← Reader.expect .closeParen
            return Expr.call callee args)
        (do let _ ← Reader.expect .closeParen
            return Expr.call ((Relabelling.later n).ident callee) (args.map (Expr.relabel (.later n)))) := by
      intro callee args
      rw [← Expr.relabelAll_eq_map]
      exact (expect _).bind fun _ => pure (Expr.call callee args)
    cases left with
    | loc l =>
      cases l with
      | ident callee =>
        exact kind.bind fun _ => ite ((pure []).bind (f := List.map (Expr.relabel (.later n))) (hclose callee))
          ((commaList (h _)).bind (hclose callee))
      | access id base field => exact throw _
    | logical _ _ | int _ _ | string _ _ | assign _ _ | call _ _ | unary _ _ | binary _ _ _ => exact throw _
  | access =>
    dsimp only [Reader.afterOperator]
    rw [left.place?_relabel]
    cases left.place? with
    | none => exact throw _
    | some base => exact freshId.bind fun _ => ident.bind fun _ => pure _

theorem operators (rules : Rules) : ∀ (bound : Nat) (power : BindingPower) (left : Expr),
    Shifts n (Expr.relabel (.later n)) (operators rules operand bound power left)
      (operators rules operand bound power (left.relabel (.later n)))
  | 0, _, _ => pure _
  | bound + 1, power, left => by
    unfold Reader.operators
    refine kind.bind fun k => ite (pure _) ?_
    dsimp only [id]
    split
    · exact pure _
    · next rule _ =>
      rw [continuation_eq, continuation_eq]
      exact (advance.bind fun t => afterOperator h left _ rule t).bind fun longer =>
        operators rules bound power longer

end Operands

theorem exprWithin (rules : Rules) : ∀ (bound : Nat) (power : BindingPower),
    Shifts n (Expr.relabel (.later n)) (exprWithin rules bound power) (exprWithin rules bound power)
  | 0, _ => unexpected
  | bound + 1, power => by
    unfold Reader.exprWithin
    refine kind.bind fun k => ?_
    dsimp only [id]
    split
    · exact unexpected
    · next rule _ =>
      rw [start_eq]
      exact (advance.bind fun t => afterStart (exprWithin rules bound) rule t).bind fun first =>
        operators (exprWithin rules bound) rules _ power first

theorem expr (rules : Rules) (power : BindingPower) :
    Shifts n (Expr.relabel (.later n)) (expr rules power) (expr rules power) :=
  remaining.bind fun _ => exprWithin rules _ power

/-! ## Types and declarations of names -/

section Rules
variable (rules : Rules)

theorem typeName : Shifts n (TypeName.relabel (.later n)) (typeName rules) (typeName rules) := by
  refine kind.bind fun k => ?_
  dsimp only [id]
  split
  · next rule _ =>
    cases rule with
    | word =>
      refine advance.bind fun t => ?_
      dsimp only [id]
      split
      · exact pure _
      · exact pure _
      · exact pure _
      · exact throw _
    | tuple => exact (expect _).bind fun _ => ident.bind fun _ => pure _
  · exact unexpectedWith _

theorem simpleType : Shifts n (TypeName.relabel (.later n)) (simpleType rules) (simpleType rules) :=
  kind.bind fun _ => ite (typeName rules) (unexpectedWith _)

theorem varDecl : Shifts n (VarDecl.relabel (.later n)) (varDecl rules) (varDecl rules) :=
  (typeName rules).bind fun _ => ident.bind fun _ => (expect _).bind fun _ => pure _

theorem formal : Shifts n (VarDecl.relabel (.later n)) (formal rules) (formal rules) :=
  (simpleType rules).bind fun _ => ident.bind fun _ => pure _

/-! ## Statements and blocks -/

section Inner
variable {stmt : Reader Stmt} (h : Shifts n (Stmt.relabel (.later n)) stmt stmt)
include h

theorem blockOf : Shifts n (Block.relabel (.later n)) (blockOf rules stmt) (blockOf rules stmt) := by
  refine (expect _).bind fun _ => (many (varDecl rules)).bind fun decls =>
    (many h.unlessAtEnd).bind fun stmts => (expect _).bind fun _ => ?_
  rw [← Stmt.relabelAll_eq_map]
  exact pure (Block.mk decls stmts)

theorem afterWord (rule : StmtRule) (t : Token) :
    Shifts n (Stmt.relabel (.later n)) (afterWord rules stmt rule t) (afterWord rules stmt rule t) := by
  have hexpr : Shifts n (Expr.relabel (.later n)) (Reader.expr rules .default) (Reader.expr rules .default) :=
    expr rules .default
  have hblock := h.blockOf rules
  cases rule with
  | ifElse =>
    exact hexpr.bind fun _ => hblock.bind fun _ => kind.bind fun _ =>
      ite (advance.bind fun _ => hblock.bind fun _ => pure _) (pure _)
  | whileDo => exact hexpr.bind fun _ => hblock.bind fun _ => pure _
  | read =>
    exact (expect _).bind fun _ => hexpr.bind fun place => (expect _).bind fun _ =>
      (target place).bind fun _ => pure _
  | write => exact (expect _).bind fun _ => hexpr.bind fun _ => (expect _).bind fun _ => pure _
  | ret =>
    have hdot : ∀ value : Option Expr, Shifts n (Stmt.relabel (.later n))
        (do let _ ← Reader.expect .dot
            return Stmt.ret value t.start)
        (do let _ ← Reader.expect .dot
            return Stmt.ret (value.map (Expr.relabel (.later n))) t.start) :=
      fun _ => (expect _).bind fun _ => pure _
    exact kind.bind fun _ => ite ((pure none).bind hdot)
      ((hexpr.map (g := Option.map (Expr.relabel (.later n))) fun _ => rfl).bind hdot)

end Inner

theorem afterExpr (e : Expr) : Shifts n (Stmt.relabel (.later n)) (afterExpr e)
    (afterExpr (e.relabel (.later n))) := by
  refine kind.bind fun k => ?_
  dsimp only [id]
  split
  · exact advance.bind fun _ => (expect _).bind fun _ => (target e).bind fun _ => pure _
  · exact advance.bind fun _ => (expect _).bind fun _ => (target e).bind fun _ => pure _
  · refine advance.bind fun _ => ?_
    rw [e.position_later]
    cases e with
    | assign place value => exact pure (Stmt.assign place value)
    | call callee args => exact pure (Stmt.call callee args)
    | logical _ _ | int _ _ | string _ _ | loc _ | unary _ _ | binary _ _ _ => exact throw _
  · exact unexpected

theorem exprStmt : Shifts n (Stmt.relabel (.later n)) (exprStmt rules) (exprStmt rules) :=
  (expr rules .default).bind afterExpr

theorem stmtWithin : ∀ bound,
    Shifts n (Stmt.relabel (.later n)) (stmtWithin rules bound) (stmtWithin rules bound)
  | 0 => unexpected
  | bound + 1 => by
    unfold Reader.stmtWithin
    refine kind.bind fun k => ?_
    dsimp only [id]
    split
    · next rule _ =>
      rw [stmtOf_eq]
      exact advance.bind fun t => afterWord rules (stmtWithin bound) rule t
    · exact exprStmt rules

theorem block : Shifts n (Block.relabel (.later n)) (block rules) (block rules) :=
  remaining.bind fun _ => blockOf rules (stmtWithin rules _)

/-! ## Declarations -/

theorem functionDecl :
    Shifts n (FunctionDecl.relabel (.later n)) (functionDecl rules) (functionDecl rules) := by
  have hbody : ∀ (result : TypeName) (name : Ident) (formals : List VarDecl),
      Shifts n (FunctionDecl.relabel (.later n))
        (do let _ ← Reader.expect .closeCurly
            let body ← Reader.block rules
            return FunctionDecl.mk result name formals body)
        (do let _ ← Reader.expect .closeCurly
            let body ← Reader.block rules
            return FunctionDecl.mk (result.relabel (.later n)) ((Relabelling.later n).ident name)
              (formals.map (VarDecl.relabel (.later n))) body) :=
    fun _ _ _ => (expect _).bind fun _ => (block rules).bind fun _ => pure _
  exact (simpleType rules).bind fun result => ident.bind fun name => (expect _).bind fun _ =>
    kind.bind fun _ => ite ((pure []).bind (hbody result name))
      ((commaList (formal rules)).bind (hbody result name))

theorem tupleDecl : Shifts n (TupleDecl.relabel (.later n)) (tupleDecl rules) (tupleDecl rules) :=
  (expect _).bind fun _ => ident.bind fun _ => (expect _).bind fun _ =>
    (many (varDecl rules).unlessAtEnd).bind fun _ => (expect _).bind fun _ =>
      (expect _).bind fun _ => pure _

theorem decl : Shifts n (Decl.relabel (.later n)) (decl rules) (decl rules) := by
  have hvar : Shifts n (Decl.relabel (.later n)) (do return Decl.var (← Reader.varDecl rules))
      (do return Decl.var (← Reader.varDecl rules)) := (varDecl rules).bind fun _ => pure _
  exact kind.bind fun _ => (peekKind 2).bind fun _ =>
    ite (ite ((tupleDecl rules).bind fun _ => pure _) hvar)
      (ite (ite ((functionDecl rules).bind fun _ => pure _) hvar) (unexpectedWith _))

/-- Of the programs that are read from the two streams, one is the other with later numbers. -/
theorem program : Shifts n (Program.relabel (.later n)) (program rules) (program rules) :=
  (many (decl rules)).bind fun _ => pure _

end Rules
end Shifts
end Reader
end BaseLang
