import BaseLang.Proofs.Resolving.Signatures
import BaseLang.Proofs.Typing.Errors

/-
  Where values of no type and texts come from.

  A name never stands for nothing or for a text: what is declared `void` is no symbol, and
  nothing can be declared a text. So nothing comes from calls only and a text from literals
  only, and what the checker does with them elsewhere is never done:

    1. `isCall_of_void`, `isText_of_string` — the expressions of these types;
    2. `checkProgram_of_mem` — what is found in a statement is reported of the program;
    3. `equality_of_void`, `assign_sides`, `write_of_void` — what follows for the rules;
    4. `void_and_string_sources` — the theorem, for every program that was parsed.
-/

namespace BaseLang

namespace Typing
variable {r : Resolution}

/-! ## Expressions -/

theorem uniform_fst_cases (wanted : Ty → Bool) (kind : DiagnosticKind) (result : Ty)
    (operands : List (Expr × Ty)) :
    (uniform wanted kind result operands).1 = .error ∨ (uniform wanted kind result operands).1 = result := by
  rw [uniform]
  split
  · exact .inl rfl
  · cases operandFaults wanted kind operands with
    | nil => exact .inr rfl
    | cons d ds => exact .inl rfl

theorem equality_fst_cases (left right : Expr × Ty) :
    (equality left right).1 = .error ∨ (equality left right).1 = .logical := by
  rw [equality]
  split
  · exact .inl rfl
  · split
    · exact .inl rfl
    · split
      · exact .inr rfl
      · exact .inl rfl

theorem unary_fst_cases (op : UnaryOp) (operand : Expr × Ty) :
    (unary op operand).1 ∈ [Ty.error, .integer, .logical] := by
  have huniform := fun wanted kind result => uniform_fst_cases wanted kind result [operand]
  cases op with
  | negate => rcases huniform Ty.isInteger .arithmeticNonInteger .integer with h | h <;> simp [unary, h]
  | not => rcases huniform Ty.isLogical .logicalNonLogical .logical with h | h <;> simp [unary, h]

theorem binary_fst_cases (op : BinaryOp) (left right : Expr × Ty) :
    (binary op left right).1 ∈ [Ty.error, .integer, .logical] := by
  have huniform := fun wanted kind result => uniform_fst_cases wanted kind result [left, right]
  rw [binary]
  split
  · rcases huniform Ty.isInteger .arithmeticNonInteger .integer with h | h <;> simp [h]
  · split
    · rcases huniform Ty.isInteger .relationalNonInteger .logical with h | h <;> simp [h]
    · split
      · rcases equality_fst_cases left right with h | h <;> simp [h]
      · rcases huniform Ty.isLogical .logicalNonLogical .logical with h | h <;> simp [h]

theorem isError_eq_false {t : Ty} (ht : t ≠ .error) : t.isError = false :=
  Bool.eq_false_iff.2 fun h => ht (Ty.isError_iff.1 h)

theorem not_isError_or {t u : Ty} (ht : t ≠ .error) (hu : u ≠ .error) :
    ¬ (t.isError || u.isError) = true := by
  rw [isError_eq_false ht, isError_eq_false hu]
  exact Bool.false_ne_true

/-- An assignment passes if both sides are integers or both are truth values. -/
theorem assign_ok_iff (l : Loc) {t u type : Ty} (ht : t ≠ .error) (hu : u ≠ .error)
    (hvoid : t ≠ .void) (hstring : t ≠ .string) :
    (assign l t u).2 = [] ∧ (assign l t u).1 = type ↔
      t = u ∧ t ∈ [Ty.integer, .logical] ∧ type = t := by
  rw [assign, if_neg (not_isError_or ht hu)]
  -- tuples and functions have faults of their own, also where both sides are of one type
  cases t with
  | error => exact absurd rfl ht
  | void => exact absurd rfl hvoid
  | string => exact absurd rfl hstring
  | logical | integer => cases u <;> simp [Ty.same, assignFault?, eq_comm]
  | tupleInstance a =>
    cases u with
    | tupleInstance b => by_cases h : a = b <;> simp [Ty.same, assignFault?, h]
    | _ => simp [Ty.same]
  | tupleDef a =>
    cases u with
    | tupleDef b => by_cases h : a = b <;> simp [Ty.same, assignFault?, h]
    | _ => simp [Ty.same]
  | function _ _ => cases u <;> simp [Ty.same, assignFault?]

/-- An assignment is faulty or has the type of its target. -/
theorem assign_fst_cases (l : Loc) (left right : Ty) :
    (assign l left right).1 = .error ∨ (assign l left right).1 = left := by
  rw [assign]
  split
  · exact .inl rfl
  · split
    · exact .inl rfl
    · split
      · exact .inr rfl
      · exact .inl rfl

/-- An expression that is neither a call nor a text has another type than nothing or a text. -/
theorem exprType_ne (hr : r.Sound) {e : Expr} (hcall : e.isCall = false)
    (htext : ∀ text q, e ≠ .string text q) : exprType r e ≠ .void ∧ exprType r e ≠ .string := by
  have hplain : ∀ {t : Ty}, t ∈ [Ty.error, .integer, .logical] → t ≠ .void ∧ t ≠ .string := by
    intro t ht
    constructor <;> rintro rfl <;> simp at ht
  cases e with
  | logical _ _ | int _ _ => exact ⟨nofun, nofun⟩
  | string text q => exact absurd rfl (htext text q)
  | loc l => exact locType_ne hr l
  | assign l v =>
    show (assign l (locType r l) (exprType r v)).1 ≠ .void ∧ (assign l (locType r l) (exprType r v)).1 ≠ .string
    rcases assign_fst_cases l (locType r l) (exprType r v) with h | h
    · rw [h]
      exact ⟨nofun, nofun⟩
    · rw [h]
      exact locType_ne hr l
  | call _ _ => cases hcall
  | unary op v => exact hplain (unary_fst_cases op (v, exprType r v))
  | binary op v w => exact hplain (binary_fst_cases op (v, exprType r v) (w, exprType r w))

/-- Only a call has nothing as its type. -/
theorem isCall_of_void (hr : r.Sound) {e : Expr} (h : exprType r e = .void) : e.isCall = true := by
  cases hcall : e.isCall with
  | true => rfl
  | false =>
    refine absurd h (exprType_ne hr hcall ?_).1
    rintro text q rfl
    cases h

/-- A call has the type of a declared result. -/
theorem call_fst_ne (hr : r.Sound) (f : Ident) (operands : List (Expr × Ty)) :
    (call r f operands).1 ≠ .string := by
  intro h
  rw [call] at h
  cases hs : r.symbolOf f with
  | none =>
    rw [hs] at h
    cases h
  | some s =>
    obtain ⟨id, -, hid⟩ := symbolOf_eq_some_iff.1 hs
    have hkind := hr.symbols id s hid
    rw [hs, Option.map_some] at h
    cases hk : s.kind with
    | function result params =>
      rw [hk] at hkind h
      obtain ⟨⟨t, rfl⟩, -⟩ := hkind
      dsimp only at h
      split at h
      · cases h
      · split at h
        · cases h
        · dsimp only at h
          split at h
          · cases t <;> cases h
          · cases h
    | «variable» _ | tupleInstance _ _ | tupleDef _ =>
      rw [hk] at h
      cases h

/-- Only a text has the type of texts. -/
theorem isText_of_string (hr : r.Sound) {e : Expr} (h : exprType r e = .string) :
    ∃ text q, e = .string text q := by
  cases e with
  | string text q => exact ⟨text, q, rfl⟩
  | call f args => exact absurd h (call_fst_ne hr f _)
  | logical _ _ | int _ _ | loc _ | assign _ _ | unary _ _ | binary _ _ _ =>
    exact absurd h (exprType_ne hr rfl fun _ _ he => by cases he).2

/-! ## Statements -/

mutual

/-- What is found in a statement inside another is reported of that one. -/
theorem checkStmt_of_mem (result : Ty) : ∀ {s t : Stmt}, t ∈ s.statements →
    checkStmt r result t ⊆ checkStmt r result s
  | .ifThen c b, t, ht => by
    rcases List.mem_cons.1 ht with rfl | ht
    · exact List.Subset.refl _
    · exact List.subset_append_of_subset_right _ (checkBlock_of_mem result ht)
  | .ifElse c b b', t, ht => by
    rcases List.mem_cons.1 ht with rfl | ht
    · exact List.Subset.refl _
    · apply List.subset_append_of_subset_right
      rcases List.mem_append.1 ht with ht | ht
      · exact List.subset_append_of_subset_left _ (checkBlock_of_mem result ht)
      · exact List.subset_append_of_subset_right _ (checkBlock_of_mem result ht)
  | .whileDo c b, t, ht => by
    rcases List.mem_cons.1 ht with rfl | ht
    · exact List.Subset.refl _
    · exact List.subset_append_of_subset_right _ (checkBlock_of_mem result ht)
  | .assign _ _, t, ht | .increment _, t, ht | .decrement _, t, ht | .read _, t, ht | .write _, t, ht
  | .call _ _, t, ht | .ret _ _, t, ht => by
    rw [List.mem_singleton.1 ht]
    exact List.Subset.refl _

theorem checkBlock_of_mem (result : Ty) : ∀ {b : Block} {t : Stmt}, t ∈ b.statements →
    checkStmt r result t ⊆ checkBlock r result b
  | .mk _ ss, _, ht => checkStmts_of_mem result (show _ ∈ Stmt.statementsOfAll ss from ht)

theorem checkStmts_of_mem (result : Ty) : ∀ {ss : List Stmt} {t : Stmt}, t ∈ Stmt.statementsOfAll ss →
    checkStmt r result t ⊆ checkStmts r result ss
  | s :: ss, t, ht => by
    rcases List.mem_append.1 ht with ht | ht
    · exact List.subset_append_of_subset_left _ (checkStmt_of_mem result ht)
    · exact List.subset_append_of_subset_right _ (checkStmts_of_mem result ht)

end

/-- What is found in a statement, for the result of its function, is reported of the program. -/
theorem checkProgram_of_mem {p : Program} {t : Stmt} (ht : t ∈ p.statements) :
    ∃ f, .function f ∈ p.decls ∧ t ∈ f.body.statements ∧
      checkStmt r f.result.ty t ⊆ checkProgram r p := by
  obtain ⟨d, hd, ht⟩ := List.mem_flatMap.1 ht
  cases d with
  | var _ | tuple _ => cases ht
  | function f =>
    refine ⟨f, hd, ht, fun fault hfault => List.mem_flatMap.2 ⟨.function f, hd, ?_⟩⟩
    exact checkBlock_of_mem f.result.ty ht hfault

/-! ## What the checker never does -/

/-- Two operands of no type are calls, and reported as such. -/
theorem equality_of_void (hr : r.Sound) {op : BinaryOp} (hop : op.isEquality = true) {v w : Expr}
    (hv : exprType r v = .void) (hw : exprType r w = .void) :
    exprType r (.binary op v w) = .error ∧ ⟨v.position, .equalityVoidCalls⟩ ∈ exprFaults r (.binary op v w) := by
  have hkind : equalityFault? v w .void = some .equalityVoidCalls := by
    rw [equalityFault?, isCall_of_void hr hv, isCall_of_void hr hw]
    rfl
  have hother : op.isArithmetic = false ∧ op.isRelational = false := by
    revert hop
    cases op <;> decide
  have hrule : binary op (v, exprType r v) (w, exprType r w) = (.error, [⟨v.position, .equalityVoidCalls⟩]) := by
    rw [binary, hother.1, hother.2, hop, hv, hw]
    simp [equality, Ty.isError, Ty.same, hkind]
  constructor
  · show (binary op (v, exprType r v) (w, exprType r w)).1 = .error
    rw [hrule]
  · apply List.mem_append_right
    show _ ∈ (binary op (v, exprType r v) (w, exprType r w)).2
    rw [hrule]
    exact List.mem_singleton_self _

/-- An assignment that is not reported is one of truth values or one of integers. -/
theorem assign_sides (hr : r.Sound) {l : Loc} {v : Expr} (h : exprType r (.assign l v) ≠ .error) :
    locType r l = .logical ∧ exprType r v = .logical ∨ locType r l = .integer ∧ exprType r v = .integer := by
  obtain ⟨hvoid, hstring⟩ := locType_ne hr l
  obtain ⟨hsides, hquiet⟩ := not_or.1 (mt (assign_passes l (locType r l) (exprType r v)).2 h)
  rw [List.mem_cons, List.mem_singleton, not_or] at hsides
  obtain ⟨hl, hv⟩ := hsides
  obtain ⟨hsame, htype, -⟩ := (assign_ok_iff l (Ne.symm hl) (Ne.symm hv) hvoid hstring).1
    ⟨Classical.not_not.1 hquiet, rfl⟩
  rcases List.mem_cons.1 htype with hinteger | hlogical
  · exact .inr ⟨hinteger, hsame ▸ hinteger⟩
  · have hlogical := List.mem_singleton.1 hlogical
    exact .inl ⟨hlogical, hsame ▸ hlogical⟩

/-- A written call of a procedure is reported. -/
theorem write_of_void (hr : r.Sound) {p : Program} {v : Expr} (hv : .write v ∈ p.statements)
    (hvoid : exprType r v = .void) : ⟨v.position, .writeVoid⟩ ∈ checkProgram r p := by
  obtain ⟨f, -, -, hsub⟩ := checkProgram_of_mem (r := r) hv
  apply hsub
  apply List.mem_append_right
  show _ ∈ faultAt v.position (writeFault? v (exprType r v))
  rw [hvoid, writeFault?, isCall_of_void hr hvoid]
  exact List.mem_singleton_self _

/-- Nothing and texts cannot hide. In a program that was parsed, variables and formals are
truth values or integers, so that only a call has nothing as its type and only a literal is a
text. Hence two operands of no type that are compared are always reported as calls, an assignment
that is not reported is one of truth values or of integers, and every written expression
of no type is reported. -/
theorem void_and_string_sources {tokens : List Token} {p : Program} {r : Resolution} {ds : Diagnostics}
    (hparse : parse tokens = .ok p) (hnames : resolveNames p = .ok (r, ds)) :
    (∀ id s type, r.symbol? id = some s → s.kind = .variable type → type = .logical ∨ type = .integer) ∧
      (∀ id s result params, r.symbol? id = some s → s.kind = .function result params →
        ∀ t ∈ params, t = .logical ∨ t = .integer) ∧
      (∀ e, exprType r e = .void → ∃ f args, e = .call f args) ∧
      (∀ e, exprType r e = .string → ∃ text q, e = .string text q) ∧
      (∀ op v w, op.isEquality = true → exprType r v = .void → exprType r w = .void →
        exprType r (.binary op v w) = .error ∧
          ⟨v.position, .equalityVoidCalls⟩ ∈ exprFaults r (.binary op v w)) ∧
      (∀ l v, exprType r (.assign l v) ≠ .error →
        locType r l = .logical ∧ exprType r v = .logical ∨
          locType r l = .integer ∧ exprType r v = .integer) ∧
      ∀ v, .write v ∈ p.statements → exprType r v = .void →
        ⟨v.position, .writeVoid⟩ ∈ checkProgram r p := by
  obtain ⟨rfl, rfl⟩ := Prod.mk.inj (Except.ok.inj ((resolveNames_eq p).symm.trans hnames))
  have hr := (resolved_sound p).resolution
  refine ⟨?_, Program.scalar_params hparse, ?_, fun e => isText_of_string hr,
    fun op v w hop => equality_of_void hr hop, fun l v => assign_sides hr, fun v => write_of_void hr⟩
  · intro id s type hs hk
    have hsound := hr.symbols id s hs
    rwa [hk] at hsound
  · intro e he
    have his := isCall_of_void hr he
    cases e with
    | call f args => exact ⟨f, args, rfl⟩
    | logical _ _ | int _ _ | string _ _ | loc _ | assign _ _ | unary _ _ | binary _ _ _ => cases his

/-- A procedure whose result, which is nothing, is written and compared:
`void main {} [write << main(). return main() == main().]`. -/
def voidTokens : List Token :=
  [(.voidWord, "void"), (.identifier, "main"), (.openCurly, "\x7b"), (.closeCurly, "\x7d"), (.openBracket, "["),
    (.writeWord, "write"), (.writeArrow, "<<"), (.identifier, "main"), (.openParen, "("), (.closeParen, ")"),
    (.dot, "."), (.returnWord, "return"), (.identifier, "main"), (.openParen, "("), (.closeParen, ")"),
    (.equals, "=="), (.identifier, "main"), (.openParen, "("), (.closeParen, ")"), (.dot, "."),
    (.closeBracket, "]")].map fun (kind, text) => ⟨kind, text, ⟨.nowhere, .nowhere⟩⟩

def voidCall (id : Nat) : Expr := .call ⟨id, "main", .nowhere⟩ []

def voidProgram : Program :=
  ⟨[.function ⟨.void, ⟨0, "main", .nowhere⟩, [],
    .mk [] [.write (voidCall 1), .ret (some (.binary .equals (voidCall 2) (voidCall 3))) .nowhere]⟩]⟩

theorem void_and_string_sources_procedure :
    parse voidTokens = .ok voidProgram ∧
      ∃ r ds, resolveNames voidProgram = .ok (r, ds) ∧
        ⟨.nowhere, .writeVoid⟩ ∈ checkProgram r voidProgram ∧
        exprType r (.binary .equals (voidCall 2) (voidCall 3)) = .error := by
  have hparse : parse voidTokens = .ok voidProgram := rfl
  have hnames := resolveNames_eq voidProgram
  obtain ⟨-, -, -, -, hequality, -, hwrite⟩ := void_and_string_sources hparse hnames
  refine ⟨hparse, _, _, hnames, ?_, ?_⟩
  · exact hwrite (voidCall 1) List.mem_cons_self rfl
  · exact (hequality .equals (voidCall 2) (voidCall 3) rfl rfl rfl).1

end Typing

end BaseLang
