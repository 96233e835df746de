import BaseLang.Proofs.Parsing.ExpressionBounds

/-
  The bounds in reading statements, blocks and lists are never reached.

    1. `many_run` — one item, then those after it, for items that take a token.
    2. `stmt_run` — a statement by its first token.
    3. `block_run` — a block, whose statements are read by `stmt`.

  As for expressions, the bound of `stmtWithin` is the number of tokens ahead, and
  each form takes a token before it reads a block.
-/

namespace BaseLang.Reader

variable {α : Type}

/-! ## Lists of items -/

/-- A list reads alike under two bounds above the number of tokens ahead, if its
items take a token each. -/
theorem collect_congr {goesOn : TokenKind → Bool} {item : Reader α} (hc : Consumes item) :
    ∀ (b₁ b₂ : Nat) (s : TokenStream), s.ahead.length < b₁ → s.ahead.length < b₂ →
      (collect goesOn item b₁).run s = (collect goesOn item b₂).run s := by
  intro b₁
  induction b₁ with
  | zero => intro b₂ s h₁; omega
  | succ b₁ ih =>
    intro b₂ s h₁ h₂
    cases b₂ with
    | zero => omega
    | succ b₂ =>
      rw [collect, collect, EStateM.run_bind, EStateM.run_bind, kind_run]
      dsimp only
      split
      · rw [EStateM.run_bind, EStateM.run_bind]
        cases hx : item.run s with
        | error e t => rfl
        | ok a t =>
          have hlt := hc s a t hx
          dsimp only
          rw [EStateM.run_bind, EStateM.run_bind, ih b₂ t (by omega) (by omega)]
      · rfl

theorem many_run {goesOn : TokenKind → Bool} {item : Reader α} (hc : Consumes item)
    (s : TokenStream) :
    (many goesOn item).run s =
      if goesOn s.current.kind then
        (item >>= fun first => many goesOn item >>= fun others => pure (first :: others)).run s
      else .ok [] s := by
  have hmany : (many goesOn item).run s = (collect goesOn item (s.ahead.length + 1)).run s := rfl
  rw [hmany, collect, EStateM.run_bind, kind_run]
  dsimp only
  split
  · rw [EStateM.run_bind, EStateM.run_bind]
    cases hx : item.run s with
    | error e t => rfl
    | ok a t =>
      have hlt := hc s a t hx
      dsimp only
      rw [EStateM.run_bind, EStateM.run_bind,
        collect_congr hc s.ahead.length (t.ahead.length + 1) t hlt (Nat.lt_succ_self _)]
      rfl
  · rfl

/-! ## Written types and declarations of names -/

section Forms
variable (rules : Rules)

theorem Forward.typeName : Forward (typeName rules) := by
  refine .bind .kind fun k => ?_
  split
  · next rule _ =>
    cases rule with
    | word =>
      refine .bind .advance fun t => ?_
      split
      · exact .pure _
      · exact .pure _
      · exact .pure _
      · exact .throw _
    | tuple => exact .bind (.expect _) fun _ => .bind .ident fun _ => .pure _
  · exact .unexpectedWith _

theorem Forward.simpleType : Forward (simpleType rules) :=
  .bind .kind fun _ => .ite (.typeName rules) (.unexpectedWith _)

theorem Forward.varDecl : Forward (varDecl rules) :=
  .bind (.typeName rules) fun _ => .bind .ident fun _ => .bind (.expect _) fun _ => .pure _

theorem Forward.formal : Forward (formal rules) :=
  .bind (.simpleType rules) fun _ => .bind .ident fun _ => .pure _

theorem Consumes.varDecl : Consumes (varDecl rules) :=
  .bind_right (.typeName rules) fun _ => .bind_left .ident fun _ =>
    .bind (.expect _) fun _ => .pure _

theorem Consumes.formal : Consumes (formal rules) :=
  .bind_right (.simpleType rules) fun _ => .bind_left .ident fun _ => .pure _

/-- After a comma, an item takes one token more. -/
theorem Consumes.afterComma {item : Reader α} (h : Consumes item) :
    Consumes (do let _ ← Reader.advance; item) :=
  .bind_right .advance fun _ => h

/-! ## Blocks -/

/-- An item of a list that must be closed before the input ends. -/
theorem Forward.unlessAtEnd {note : String} {item : Reader α} (h : Forward item) :
    Forward (do if (← Reader.kind) = .endOfInput then Reader.unexpectedWith note else item) :=
  .bind .kind fun _ => .ite (.unexpectedWith _) h

theorem Consumes.unlessAtEnd (note : String) {item : Reader α} (h : Consumes item) :
    Consumes (do if (← Reader.kind) = .endOfInput then Reader.unexpectedWith note else item) :=
  .bind_right .kind fun _ => .ite (.unexpectedWith _) h

theorem Forward.blockOf {stmt : Reader Stmt} (h : Forward stmt) : Forward (blockOf rules stmt) :=
  .bind (.expect _) fun _ => .bind (.many (.varDecl rules)) fun _ =>
    .bind (.many (.unlessAtEnd h)) fun _ => .bind (.expect _) fun _ => .pure _

theorem Consumes.blockOf {stmt : Reader Stmt} (h : Forward stmt) : Consumes (blockOf rules stmt) :=
  .bind_left (.expect (by decide)) fun _ => .bind (.many (.varDecl rules)) fun _ =>
    .bind (.many (.unlessAtEnd h)) fun _ => .bind (.expect _) fun _ => .pure _

theorem AgreeFrom.blockOf {s : TokenStream} {s₁ s₂ : Reader Stmt} (h : AgreeFrom s s₁ s₂)
    (hm : Forward s₁) : AgreeFrom s (blockOf rules s₁) (blockOf rules s₂) :=
  .bind (.refl _) (.expect _) fun _ => .bind (.refl _) (.many (.varDecl rules)) fun _ =>
    .bind (.many (.bind (.refl _) .kind fun _ => .ite (.refl _) h) (.unlessAtEnd hm))
      (.many (.unlessAtEnd hm)) fun _ => .refl _

/-! ## Statements -/

/-- What each form of statement does after its first word. -/
def afterWord (stmt : Reader Stmt) : StmtRule → Token → Reader Stmt
  | .ifElse, _ => do
    let cond ← expr rules .default
    let body ← blockOf rules stmt
    if (← kind) = .elseWord then
      let _ ← advance
      let other ← blockOf rules stmt
      return .ifElse cond body other
    else return .ifThen cond body
  | .whileDo, _ => do
    let cond ← expr rules .default
    let body ← blockOf rules stmt
    return .whileDo cond body
  | .read, _ => do
    let _ ← expect .readArrow
    let place ← expr rules .default
    let _ ← expect .dot
    return .read (← target place)
  | .write, _ => do
    let _ ← expect .writeArrow
    let value ← expr rules .default
    let _ ← expect .dot
    return .write value
  | .ret, t => do
    let value ← if (← kind) = .dot then pure none else some <$> expr rules .default
    let _ ← expect .dot
    return .ret value t.start

theorem stmtOf_eq (stmt : Reader Stmt) (rule : StmtRule) :
    stmtOf rules stmt rule = advance >>= afterWord rules stmt rule := by
  cases rule <;> rfl

theorem Forward.afterWord {stmt : Reader Stmt} (h : Forward stmt) (rule : StmtRule) (t : Token) :
    Forward (afterWord rules stmt rule t) := by
  have hexpr := Forward.expr rules .default
  have hblock := Forward.blockOf rules h
  cases rule with
  | ifElse =>
    exact .bind hexpr fun _ => .bind hblock fun _ => .bind .kind fun _ =>
      .ite (.bind .advance fun _ => .bind hblock fun _ => .pure _) (.pure _)
  | whileDo => exact .bind hexpr fun _ => .bind hblock fun _ => .pure _
  | read =>
    exact .bind (.expect _) fun _ => .bind hexpr fun _ => .bind (.expect _) fun _ =>
      .bind (.target _) fun _ => .pure _
  | write =>
    exact .bind (.expect _) fun _ => .bind hexpr fun _ => .bind (.expect _) fun _ => .pure _
  | ret =>
    have hdot : ∀ value : Option Expr, Forward (do
        let _ ← Reader.expect .dot
        return Stmt.ret value t.start) := fun _ => .bind (.expect _) fun _ => .pure _
    exact .bind .kind fun _ => .ite (.bind (.pure _) hdot) (.bind (.map _ hexpr) hdot)

theorem Consumes.afterWord {stmt : Reader Stmt} (h : Forward stmt) (rule : StmtRule) (t : Token) :
    Consumes (afterWord rules stmt rule t) := by
  have hexpr := Forward.expr rules .default
  have hblock := Forward.blockOf rules h
  cases rule with
  | ifElse =>
    exact .bind_right hexpr fun _ => .bind_left (.blockOf rules h) fun _ => .bind .kind fun _ =>
      .ite (.bind .advance fun _ => .bind hblock fun _ => .pure _) (.pure _)
  | whileDo => exact .bind_right hexpr fun _ => .bind_left (.blockOf rules h) fun _ => .pure _
  | read =>
    exact .bind_left (.expect (by decide)) fun _ => .bind hexpr fun _ => .bind (.expect _) fun _ =>
      .bind (.target _) fun _ => .pure _
  | write =>
    exact .bind_left (.expect (by decide)) fun _ => .bind hexpr fun _ => .bind (.expect _) fun _ =>
      .pure _
  | ret =>
    have hdot : ∀ value : Option Expr, Consumes (do
        let _ ← Reader.expect .dot
        return Stmt.ret value t.start) := fun _ => .bind_left (.expect (by decide)) fun _ => .pure _
    exact .bind_right .kind fun _ => .ite (.bind_right (.pure _) hdot)
      (.bind_right (.map _ hexpr) hdot)

theorem AgreeFrom.afterWord {s : TokenStream} {s₁ s₂ : Reader Stmt} (h : AgreeFrom s s₁ s₂)
    (hm : Forward s₁) (rule : StmtRule) (t : Token) :
    AgreeFrom s (afterWord rules s₁ rule t) (afterWord rules s₂ rule t) := by
  have hexpr := Forward.expr rules .default
  have hblock := AgreeFrom.blockOf rules h hm
  have hfwd := Forward.blockOf rules hm
  cases rule with
  | ifElse =>
    exact .bind (.refl _) hexpr fun _ => .bind hblock hfwd fun _ => .bind (.refl _) .kind fun _ =>
      .ite (.bind (.refl _) .advance fun _ => .bind hblock hfwd fun _ => .refl _) (.refl _)
  | whileDo => exact .bind (.refl _) hexpr fun _ => .bind hblock hfwd fun _ => .refl _
  | read => exact .refl _
  | write => exact .refl _
  | ret => exact .refl _

/-- What a statement that begins with an expression does after it. -/
def afterExpr (e : Expr) : Reader Stmt := do
  match (← kind) with
  | .plusPlus =>
    let _ ← advance
    let _ ← expect .dot
    return .increment (← target e)
  | .minusMinus =>
    let _ ← advance
    let _ ← expect .dot
    return .decrement (← target e)
  | .dot =>
    let _ ← advance
    match e with
    | .assign place value => return .assign place value
    | .call callee args => return .call callee args
    | _ => throw ⟨.invalidStatement, e.position⟩
  | _ => unexpected

theorem exprStmt_eq : exprStmt rules = expr rules .default >>= afterExpr := rfl

theorem Forward.afterExpr (e : Expr) : Forward (afterExpr e) := by
  refine .bind .kind fun k => ?_
  split
  · exact .bind .advance fun _ => .bind (.expect _) fun _ => .bind (.target _) fun _ => .pure _
  · exact .bind .advance fun _ => .bind (.expect _) fun _ => .bind (.target _) fun _ => .pure _
  · refine .bind .advance fun _ => ?_
    split
    · exact .pure _
    · exact .pure _
    · exact .throw _
  · exact .unexpected

theorem Forward.exprStmt : Forward (exprStmt rules) := .bind (.expr rules .default) .afterExpr

theorem Forward.stmtWithin : ∀ bound, Forward (stmtWithin rules bound)
  | 0 => .unexpected
  | bound + 1 => by
    unfold Reader.stmtWithin
    refine .bind .kind fun k => ?_
    split
    · next rule _ =>
      rw [stmtOf_eq]
      exact .bind .advance (.afterWord rules (stmtWithin bound) rule)
    · exact .exprStmt rules

theorem Forward.stmt : Forward (stmt rules) := .bind .remaining fun _ => .stmtWithin rules _

theorem Forward.block : Forward (block rules) :=
  .bind .remaining fun _ => .blockOf rules (.stmtWithin rules _)

end Forms

/-- Every expression takes a token. -/
theorem Consumes.exprWithin : ∀ bound power, Consumes (exprWithin .standard bound power)
  | 0, _ => by
    intro s v t h
    cases h
  | bound + 1, power => by
    intro s v t h
    rw [Reader.exprWithin, run_bind_ok (kind_run s)] at h
    cases hrule : Rules.standard.start s.current.kind with
    | none => rw [hrule] at h; cases h
    | some rule =>
      rw [hrule] at h
      dsimp only at h
      rw [start_eq, bind_assoc, run_bind_ok (advance_run s)] at h
      have hm := Forward.exprWithin .standard bound
      have hle := Forward.bind (.afterStart hm rule s.current)
        (fun first => .operators hm .standard (bound + 1) power first) s.advance
      rw [h] at hle
      exact length_advance_lt (ahead_ne_nil (ne_end_of_rule standard_endOfInput.1 hrule)) hle

theorem Consumes.expr (power : BindingPower) : Consumes (expr .standard power) :=
  .bind_right .remaining fun _ => .exprWithin _ _

theorem Consumes.exprStmt : Consumes (exprStmt .standard) := .bind_left (.expr .default) .afterExpr

/-- Where the input ends, no statement begins. -/
theorem stmtWithin_at_end {s : TokenStream} (hs : s.current.kind = .endOfInput) :
    ∀ bound, (stmtWithin .standard bound).run s = (unexpected : Reader Stmt).run s
  | 0 => rfl
  | bound + 1 => by
    rw [stmtWithin, EStateM.run_bind, kind_run, hs]
    dsimp only
    rw [standard_endOfInput.2.2]
    dsimp only
    rw [exprStmt, EStateM.run_bind, expr_run, hs]
    rfl

/-- Statements read alike under two bounds that both cover the tokens ahead. -/
theorem stmtWithin_congr : ∀ (b₁ b₂ : Nat) (s : TokenStream), s.ahead.length ≤ b₁ →
    s.ahead.length ≤ b₂ →
    (stmtWithin .standard b₁).run s = (stmtWithin .standard b₂).run s := by
  intro b₁
  induction b₁ with
  | zero =>
    intro b₂ s h₁ _
    have hs := kind_of_length_le_zero h₁
    rw [stmtWithin_at_end hs, stmtWithin_at_end hs]
  | succ b₁ ih =>
    intro b₂ s h₁ h₂
    cases b₂ with
    | zero =>
      have hs := kind_of_length_le_zero h₂
      rw [stmtWithin_at_end hs, stmtWithin_at_end hs]
    | succ b₂ =>
      rw [stmtWithin, stmtWithin, EStateM.run_bind, EStateM.run_bind, kind_run]
      dsimp only
      cases ho : Rules.standard.stmt s.current.kind with
      | none => rfl
      | some rule =>
        have hne : s.ahead ≠ [] := ahead_ne_nil fun hk => by
          rw [hk, standard_endOfInput.2.2] at ho
          cases ho
        have hs : AgreeFrom s.advance (stmtWithin .standard b₁) (stmtWithin .standard b₂) :=
          fun t ht => by
            have hlt := length_advance_lt hne ht
            exact ih b₂ t (by omega) (by omega)
        simp only [stmtOf_eq, EStateM.run_bind, advance_run]
        exact AgreeFrom.afterWord .standard hs (.stmtWithin .standard b₁) rule s.current s.advance
          (.refl _)

/-- Under a bound that covers the tokens ahead, a statement reads as under the bound
that `stmt` takes. -/
theorem agreeFrom_stmt {s : TokenStream} {bound : Nat} (h : s.ahead.length ≤ bound) :
    AgreeFrom s (stmtWithin .standard bound) (stmt .standard) :=
  fun t ht => stmtWithin_congr bound t.ahead.length t (Nat.le_trans ht.length_le h) (Nat.le_refl _)

theorem stmt_run (s : TokenStream) :
    (stmt .standard).run s =
      match Rules.standard.stmt s.current.kind with
      | some rule => (advance >>= afterWord .standard (stmt .standard) rule).run s
      | none => (exprStmt .standard).run s := by
  have hstmt : (stmt .standard).run s = (stmtWithin .standard (s.ahead.length + 1)).run s :=
    stmtWithin_congr _ _ s (Nat.le_refl _) (Nat.le_succ _)
  rw [hstmt, stmtWithin, EStateM.run_bind, kind_run]
  dsimp only
  cases Rules.standard.stmt s.current.kind with
  | none => rfl
  | some rule =>
    dsimp only
    rw [stmtOf_eq, EStateM.run_bind, EStateM.run_bind, advance_run]
    exact AgreeFrom.afterWord .standard
      (agreeFrom_stmt (TokenStream.LeadsTo.advance s).length_le)
      (.stmtWithin .standard _) rule s.current s.advance (.refl _)

theorem block_run (s : TokenStream) :
    (block .standard).run s = (blockOf .standard (stmt .standard)).run s := by
  have hblock : (block .standard).run s =
      (blockOf .standard (stmtWithin .standard s.ahead.length)).run s := by
    rw [block, EStateM.run_bind]
    rfl
  have hstmt := agreeFrom_stmt (Nat.le_refl s.ahead.length)
  rw [hblock]
  exact AgreeFrom.blockOf .standard hstmt (.stmtWithin .standard _) s (.refl s)

theorem Consumes.stmtWithin : ∀ bound, Consumes (stmtWithin .standard bound)
  | 0 => by
    intro s v t h
    cases h
  | bound + 1 => by
    unfold Reader.stmtWithin
    refine .bind_right .kind fun k => ?_
    split
    · next rule _ =>
      rw [stmtOf_eq]
      exact .bind_right .advance (.afterWord .standard (.stmtWithin .standard bound) rule)
    · exact .exprStmt

theorem Consumes.stmt : Consumes (stmt .standard) := .bind_right .remaining fun _ => .stmtWithin _

theorem Consumes.block : Consumes (block .standard) :=
  .bind_right .remaining fun _ => .blockOf .standard (.stmtWithin .standard _)

/-! ## Declarations -/

def functionRest (rules : Rules) (result : TypeName) (name : Ident) : Reader FunctionDecl := do
  let _ ← expect .openCurly
  let formals ← if (← kind) = .closeCurly then pure [] else commaList (formal rules)
  let _ ← expect .closeCurly
  let body ← block rules
  return ⟨result, name, formals, body⟩

def tupleRest (rules : Rules) (name : Ident) : Reader TupleDecl := do
  let _ ← expect .openCurly
  let fields ← many (· != .closeCurly) do
    if (← kind) = .endOfInput then unexpectedWith "expected `\x7d` to close the tuple"
    else varDecl rules
  let _ ← expect .closeCurly
  let _ ← expect .dot
  return ⟨name, fields⟩

theorem functionDecl_eq (rules : Rules) :
    functionDecl rules = simpleType rules >>= fun result => ident >>= functionRest rules result := rfl

theorem tupleDecl_eq (rules : Rules) :
    tupleDecl rules = expect .tupleWord >>= fun _ => ident >>= tupleRest rules := rfl

theorem Forward.functionRest (rules : Rules) (result : TypeName) (name : Ident) :
    Forward (functionRest rules result name) := by
  have hbody : ∀ formals : List VarDecl, Forward (do
      let _ ← Reader.expect .closeCurly
      let body ← Reader.block rules
      return FunctionDecl.mk result name formals body) := fun _ =>
    .bind (.expect _) fun _ => .bind (.block rules) fun _ => .pure _
  exact .bind (.expect _) fun _ => .bind .kind fun _ => .ite (.bind (.pure _) hbody)
    (.bind (.commaList (.formal rules)) hbody)

theorem Forward.tupleRest (rules : Rules) (name : Ident) : Forward (tupleRest rules name) :=
  .bind (.expect _) fun _ => .bind (.many (.unlessAtEnd (.varDecl rules))) fun _ =>
    .bind (.expect _) fun _ => .bind (.expect _) fun _ => .pure _

theorem Consumes.functionDecl : Consumes (functionDecl .standard) := by
  rw [functionDecl_eq]
  exact .bind_right (.simpleType .standard) fun _ => .bind_left .ident (.functionRest .standard _)

theorem Consumes.tupleDecl : Consumes (tupleDecl .standard) := by
  rw [tupleDecl_eq]
  exact .bind_left (.expect (by decide)) fun _ => .bind .ident (.tupleRest .standard)

theorem Consumes.decl : Consumes (decl .standard) :=
  .bind_right .kind fun _ => .bind_right (.peekKind _) fun _ =>
    .ite
      (.ite (.bind_left .tupleDecl fun _ => .pure _) (.bind_left (.varDecl .standard) fun _ => .pure _))
      (.ite
        (.ite (.bind_left .functionDecl fun _ => .pure _)
          (.bind_left (.varDecl .standard) fun _ => .pure _))
        (.unexpectedWith _))

end BaseLang.Reader
