import BaseLang.Proofs.Parsing.EndOfInput

/-
  Reading ends on every list of tokens, and stays inside the list.

  The readers of the model are bounded by the number of tokens ahead. Here the recursions
  and loops stand without bounds: each is a step, which is given the readers that it calls.
  A step is made of any readers at all, and again of the readers that come out, more often
  than there are tokens ahead. What comes out then reads as the model does, so that the
  readers at the bottom are never called: the recursion ends.

    1. `Settles` — such a recursion, and `settles_of_descends`, why: a step calls only
       where fewer tokens are ahead;
    2. `expressions_settle`, `statements_settle`, `loop_ends` — the recursions and loops;
    3. `parse_ends` — together with the places of `EndOfInput`.
-/

namespace BaseLang

namespace Reader

variable {ι α : Type}

/-! ## Recursions without bounds -/

/-- The readers that a step makes of others, made again and again from those at the bottom. -/
def unrolled (step : (ι → Reader α) → ι → Reader α) (bottom : ι → Reader α) : Nat → ι → Reader α
  | 0 => bottom
  | n + 1 => step (unrolled step bottom n)

/-- The recursion ends with these readers: unrolled more often than there are tokens ahead, it
reads as they do, whatever readers stand at the bottom. -/
def Settles (step : (ι → Reader α) → ι → Reader α) (readers : ι → Reader α) : Prop :=
  ∀ bottom n i (s : TokenStream), s.ahead.length < n →
    (unrolled step bottom n i).run s = (readers i).run s

/-- A recursion ends if each step calls with fewer tokens ahead than it was called with. -/
theorem settles_of_descends {step : (ι → Reader α) → ι → Reader α} {readers : ι → Reader α}
    (h : ∀ (calls : ι → Reader α) (i : ι) (s : TokenStream),
      (∀ j (t : TokenStream), t.ahead.length < s.ahead.length → (readers j).run t = (calls j).run t) →
        (readers i).run s = (step calls i).run s) : Settles step readers := by
  intro bottom n
  induction n with
  | zero => exact fun _ _ hs => absurd hs (Nat.not_lt_zero _)
  | succ n ih =>
    intro i s hs
    refine (h (unrolled step bottom n) i s fun j t ht => ?_).symm
    exact (ih j t (Nat.lt_of_lt_of_le ht (Nat.le_of_lt_succ hs))).symm

/-- The calls that are the same on streams with fewer tokens are so on all that is left of this one. -/
theorem agreeFrom_advance {r₁ r₂ : Reader α} {s : TokenStream} (hs : s.current.kind ≠ .endOfInput)
    (h : ∀ t : TokenStream, t.ahead.length < s.ahead.length → r₁.run t = r₂.run t) :
    AgreeFrom s.advance r₁ r₂ :=
  fun t ht => h t (length_advance_lt (ahead_ne_nil hs) ht)

/-! ## Expressions -/

/-- The calls of the recursion of expressions: of an expression under a power, and of the loop
over the operators that continue one. -/
inductive ExprCall where
  | whole (power : BindingPower)
  | rest (power : BindingPower) (left : Expr)

def exprStep (calls : ExprCall → Reader Expr) : ExprCall → Reader Expr
  | .whole power => do
    match Rules.standard.start (← kind) with
    | none => unexpected
    | some rule =>
      let first ← start (fun power => calls (.whole power)) rule
      calls (.rest power first)
  | .rest power left => do
    let k ← kind
    if Rules.standard.powerOf k ≤ power then return left
    else
      match Rules.standard.operator k with
      | none => return left
      | some rule =>
        let longer ←
          continuation (fun power => calls (.whole power)) left (Rules.standard.powerOf k) rule
        calls (.rest power longer)

def exprReader : ExprCall → Reader Expr
  | .whole power => expr .standard power
  | .rest power left => continued power left

theorem expressions_settle : Settles exprStep exprReader := by
  refine settles_of_descends fun calls i s h => ?_
  cases i with
  | whole power =>
    rw [exprReader, expr_run, exprStep, run_bind_ok (kind_run s)]
    cases hrule : Rules.standard.start s.current.kind with
    | none => rfl
    | some rule =>
      -- the first token is taken before anything is called
      have hs := ne_end_of_rule standard_endOfInput.1 hrule
      have hoperand := fun p => agreeFrom_advance hs (h (.whole p))
      dsimp only
      rw [start_eq, start_eq, bind_assoc, bind_assoc, run_bind_ok (advance_run s), run_bind_ok (advance_run s)]
      exact AgreeFrom.bind (.afterStart hoperand (.expr .standard) rule s.current)
        (.afterStart (.expr .standard) rule s.current)
        (fun first => agreeFrom_advance hs (h (.rest power first))) _ (.refl _)
  | rest power left =>
    rw [exprReader, continued_run, exprStep, run_bind_ok (kind_run s)]
    split
    · rfl
    cases hrule : Rules.standard.operator s.current.kind with
    | none => rfl
    | some rule =>
      -- so is the operator, before the operand is read and the loop goes on
      have hs := ne_end_of_rule standard_endOfInput.2.1 hrule
      have hoperand := fun p => agreeFrom_advance hs (h (.whole p))
      dsimp only
      rw [continuation_eq, continuation_eq, bind_assoc, bind_assoc, run_bind_ok (advance_run s),
        run_bind_ok (advance_run s)]
      exact AgreeFrom.bind (.afterOperator hoperand (.expr .standard) left _ rule s.current)
        (.afterOperator (.expr .standard) left _ rule s.current)
        (fun longer => agreeFrom_advance hs (h (.rest power longer))) _ (.refl _)

/-! ## Statements -/

def stmtStep (calls : Unit → Reader Stmt) (_ : Unit) : Reader Stmt := do
  match Rules.standard.stmt (← kind) with
  | some rule => stmtOf .standard (calls ()) rule
  | none => exprStmt .standard

theorem statements_settle : Settles stmtStep fun _ => stmt .standard := by
  refine settles_of_descends fun calls _ s h => ?_
  rw [stmt_run, stmtStep, run_bind_ok (kind_run s)]
  cases hrule : Rules.standard.stmt s.current.kind with
  | none => rfl
  | some rule =>
    have hs := ne_end_of_rule standard_endOfInput.2.2 hrule
    dsimp only
    rw [stmtOf_eq, run_bind_ok (advance_run s), run_bind_ok (advance_run s)]
    exact AgreeFrom.afterWord .standard (agreeFrom_advance hs (h ())) (.stmt .standard) rule s.current _
      (.refl _)

/-! ## Loops -/

/-- A loop that takes items as long as the kind of the current token satisfies `goesOn`. -/
def loopStep (goesOn : TokenKind → Bool) (item : Reader α) (calls : Unit → Reader (List α)) (_ : Unit) :
    Reader (List α) := do
  if goesOn (← kind) then
    let first ← item
    let others ← calls ()
    return first :: others
  else return []

def LoopEnds (goesOn : TokenKind → Bool) (item : Reader α) : Prop :=
  Settles (loopStep goesOn item) fun _ => many goesOn item

/-- A loop ends if each of its items takes a token. -/
theorem loop_ends (goesOn : TokenKind → Bool) {item : Reader α} (hc : Consumes item) : LoopEnds goesOn item := by
  refine settles_of_descends fun calls _ s h => ?_
  rw [many_run hc, loopStep, run_bind_ok (kind_run s)]
  split
  · rw [EStateM.run_bind, EStateM.run_bind]
    cases hx : item.run s with
    | error e t => rfl
    | ok a t =>
      dsimp only
      rw [EStateM.run_bind, EStateM.run_bind, h () t (hc s a t hx)]
  · rfl

/-- Every recursion and every loop of reading ends. -/
structure Ends : Prop where
  expressions : Settles exprStep exprReader
  statements : Settles stmtStep fun _ => stmt .standard
  declarations : LoopEnds (· != .endOfInput) (decl .standard)
  fields : ∀ note : String, LoopEnds (· != .closeCurly)
    (do if (← kind) = .endOfInput then unexpectedWith note else varDecl .standard)
  blockDeclarations : LoopEnds (fun k => k.isSimpleType || k == .tupleWord) (varDecl .standard)
  blockStatements : ∀ note : String, LoopEnds (· != .closeBracket)
    (do if (← kind) = .endOfInput then unexpectedWith note else stmt .standard)
  arguments : LoopEnds (· == .comma) (do let _ ← advance; expr .standard .default)
  formals : LoopEnds (· == .comma) (do let _ ← advance; formal .standard)

theorem ends : Ends where
  expressions := expressions_settle
  statements := statements_settle
  declarations := loop_ends _ .decl
  fields note := loop_ends _ (.unlessAtEnd note (.varDecl .standard))
  blockDeclarations := loop_ends _ (.varDecl .standard)
  blockStatements note := loop_ends _ (.unlessAtEnd note .stmt)
  arguments := loop_ends _ (.afterComma (.expr .default))
  formals := loop_ends _ (.afterComma (.formal .standard))

/-! ## Reading ends, inside the list -/

def programOf : EStateM.Result SyntaxError TokenStream (List Decl) → Except SyntaxError Program
  | .ok decls _ => .ok ⟨decls⟩
  | .error e _ => .error e

theorem parse_eq (ts : List Token) :
    parse ts = programOf ((many (· != .endOfInput) (decl .standard)).run (.ofTokens ts)) := by
  rw [parse, program, EStateM.run_bind]
  cases (many (· != .endOfInput) (decl .standard)).run (.ofTokens ts) with
  | ok decls t => rfl
  | error e t => rfl

/-- Parsing ends and stays in bounds. Every recursion and every loop of it ends. Every call for a
declaration, a variable, a statement, a block or an expression stays in the list of tokens, not past its
first end of the input, and has moved on if it succeeds. And so does the parse of any list at all: wherever
it stands, the token that it reads is one of the list, no later than the first end of the input. -/
theorem parse_ends :
    Ends ∧
      (Proceeds (decl .standard) ∧ Proceeds (varDecl .standard) ∧ Proceeds (stmt .standard) ∧
        Proceeds (block .standard) ∧ ∀ power, Proceeds (expr .standard power)) ∧
      ∀ ts, let s := TokenStream.ofTokens ts
        (∀ bottom n, s.ahead.length < n →
          parse ts = programOf ((unrolled (loopStep (· != .endOfInput) (decl .standard)) bottom n ()).run s)) ∧
        (s.tokens = if ts.getLast?.map Token.kind = some .endOfInput then ts else ts ++ [s.final]) ∧
        ∀ t, s.LeadsTo t → t.LeadsTo (left ((program .standard).run s)) →
          ∃ k, s.tokens[k]? = some t.current ∧ k ≤ s.tokens.findIdx (·.kind == .endOfInput) := by
  refine ⟨ends, ⟨?_, ?_, ?_, ?_, ?_⟩, fun ts => ⟨fun bottom n hn => ?_, TokenStream.tokens_ofTokens ts,
    fun t hst htu => ?_⟩⟩
  · exact proceeds .decl .decl
  · exact proceeds .varDecl (.varDecl .standard)
  · exact proceeds .stmt .stmt
  · exact proceeds .block .block
  · exact fun power => proceeds (.expr power) (.expr power)
  · rw [ends.declarations bottom n () _ hn, parse_eq]
  · have hplace := (TokenStream.standsAt_zero _).moved ((Careful.program _).between hst htu)
    exact ⟨_, hplace.getElem?, hplace.le_findIdx⟩

end Reader

end BaseLang
