import BaseLang.Proofs.Typing.OwnFaults
import Mathlib.Data.List.Chain

/-
  Faults do not cascade.

  The report on an expression is that on its operands followed by what its own rule adds.
  A rule adds nothing when an operand has the type `error`, and an expression for which
  something was added has that type itself, so that nothing is added further up either.
  A call of something that is no function is reported in any case. All this holds for
  every resolution whose links lead to symbols, whether it comes from a program or not.

    1. `Expr.operands`, `ownFaults` — what is checked first, and what is then added;
    2. `call_error`, `call_silent` — the rule of calls, for any resolution;
    3. `ruling`, `checkExpr_eq` — the rule of an expression, applied to its operands;
    4. `exprType_of_operand`, `exprType_of_path` — how the type `error` goes up;
    5. `faults_do_not_cascade` — the main theorem.
-/

namespace BaseLang

/-- The expressions that an expression has as operands, in source order. -/
def Expr.operands : Expr → List Expr
  | .assign _ value => [value]
  | .call _ args => args
  | .unary _ operand => [operand]
  | .binary _ left right => [left, right]
  | _ => []

/-- A path down through operands. -/
def Expr.Descends (path : List Expr) : Prop := path.IsChain fun e operand => operand ∈ e.operands

namespace Typing
variable {r : Resolution}

/-- What is left of the report on an expression without those on its operands. -/
def ownFaults (r : Resolution) (e : Expr) : Diagnostics :=
  (exprFaults r e).drop (e.operands.flatMap (exprFaults r)).length

/-- Whether the expression calls something, but no function. -/
def callsOther (r : Resolution) : Expr → Bool
  | .call callee _ =>
    match (r.symbolOf callee).map Symbol.kind with
    | none | some (.function _ _) => false
    | some _ => true
  | _ => false

def callsFunction (r : Resolution) : Expr → Bool
  | .call callee _ =>
    match (r.symbolOf callee).map Symbol.kind with
    | some (.function _ _) => true
    | _ => false
  | _ => false

/-- The place that the expression assigns to has no type, or the name that it calls is not
linked. -/
def Dangles (r : Resolution) : Expr → Prop
  | .assign target _ => locType r target = .error
  | .call callee _ => r.linkOf callee = none
  | _ => False

/-- Whether something is added to the reports on the operands, other than that no
function is called. -/
def adds (r : Resolution) (e : Expr) : Bool := !callsOther r e && !(ownFaults r e).isEmpty

theorem adds_eq_true_iff {e : Expr} :
    adds r e = true ↔ callsOther r e = false ∧ ownFaults r e ≠ [] := by
  rw [adds, Bool.and_eq_true, Bool.not_eq_true', Bool.not_eq_true', List.isEmpty_eq_false_iff]

/-! ## Calls -/

theorem call_of_callsOther {callee : Ident} {args : List Expr} (h : callsOther r (.call callee args) = true)
    (operands : List (Expr × Ty)) :
    call r callee operands = (.error, [⟨callee.position, .callNonFunction⟩]) := by
  rw [callsOther] at h
  rw [call]
  cases hkind : (r.symbolOf callee).map Symbol.kind with
  | none =>
    rw [hkind] at h
    cases h
  | some kind =>
    rw [hkind] at h
    cases kind with
    | function result params => cases h
    | «variable» _ | tupleInstance _ _ | tupleDef _ => rfl

/-- A call with an argument of the type `error`, or with a fault, has that type. -/
theorem call_error {callee : Ident} {operands : List (Expr × Ty)}
    (h : .error ∈ operands.map Prod.snd ∨ (call r callee operands).2 ≠ []) :
    (call r callee operands).1 = .error := by
  rw [call] at h ⊢
  cases hkind : (r.symbolOf callee).map Symbol.kind with
  | none => rfl
  | some kind =>
    rw [hkind] at h
    cases kind with
    | function result params =>
      dsimp only at h ⊢
      by_cases herror : (operands.any fun o => o.2.isError) = true
      · rw [if_pos herror]
      · rw [if_neg herror] at h ⊢
        have hown := h.resolve_left fun hin => herror (any_isError_iff.2 hin)
        split at hown
        · next hlength => rw [if_pos hlength]
        · next hlength =>
          rw [if_neg hlength]
          exact if_neg fun hempty => hown (List.isEmpty_iff.1 hempty)
    | «variable» _ | tupleInstance _ _ | tupleDef _ => rfl

/-- Unless something else is called, a call adds nothing for a name that is not linked, or
when an argument has the type `error`. -/
theorem call_silent {callee : Ident} {args : List Expr} {operands : List (Expr × Ty)}
    (hother : callsOther r (.call callee args) = false)
    (h : .error ∈ operands.map Prod.snd ∨ r.linkOf callee = none) :
    (call r callee operands).2 = [] := by
  rw [callsOther] at hother
  rw [call]
  cases hs : r.symbolOf callee with
  | none => rfl
  | some s =>
    rw [hs, Option.map_some] at hother
    rw [Option.map_some]
    cases hk : s.kind with
    | function result params =>
      have hlinked : r.linkOf callee ≠ none := by
        intro hnone
        rw [Resolution.symbolOf, hnone] at hs
        cases hs
      have herror := any_isError_iff.2 (h.resolve_right hlinked)
      dsimp only
      rw [if_pos herror]
    | «variable» _ | tupleInstance _ _ | tupleDef _ =>
      rw [hk] at hother
      cases hother

/-- What is called is a function, something else or not linked. -/
theorem dangles_of_calls {r : LinkedResolution} {callee : Ident} {args : List Expr}
    (hother : callsOther r (.call callee args) = false)
    (hfunction : callsFunction r (.call callee args) = false) : Dangles r (.call callee args) := by
  rw [Dangles, ← LinkedResolution.symbolOf_eq_none_iff]
  rw [callsOther] at hother
  rw [callsFunction] at hfunction
  cases hs : r.symbolOf callee with
  | none => rfl
  | some s =>
    rw [hs, Option.map_some] at hother hfunction
    cases hk : s.kind with
    | function result params =>
      rw [hk] at hfunction
      cases hfunction
    | «variable» _ | tupleInstance _ _ | tupleDef _ =>
      rw [hk] at hother
      cases hother

/-! ## The rule of an expression -/

/-- The type of an expression and the faults that its own rule finds, by the types of its
operands. -/
def ruling (r : Resolution) : Expr → Ty × Diagnostics
  | .logical _ _ => (.logical, [])
  | .int _ _ => (.integer, [])
  | .string _ _ => (.string, [])
  | .loc place => (locType r place, [])
  | .assign target value => assign target (locType r target) (exprType r value)
  | .call callee args => call r callee (args.map fun e => (e, exprType r e))
  | .unary op operand => unary op (operand, exprType r operand)
  | .binary op left right => binary op (left, exprType r left) (right, exprType r right)

theorem checkExprs_eq (r : Resolution) (es : List Expr) :
    checkExprs r es = (es.map (exprType r), es.flatMap (exprFaults r)) := by
  induction es with
  | nil => rfl
  | cons e es ih =>
    rw [checkExprs, ih]
    rfl

theorem checkExpr_eq (r : Resolution) (e : Expr) :
    checkExpr r e = ((ruling r e).1, e.operands.flatMap (exprFaults r) ++ (ruling r e).2) := by
  cases e with
  | logical _ _ | int _ _ | string _ _ | loc _ => rfl
  | assign target value =>
    rw [Expr.operands, List.flatMap_singleton]
    rfl
  | call callee args =>
    rw [checkExpr, checkExprs_eq]
    dsimp only
    rw [← List.map_prod_left_eq_zip]
    rfl
  | unary op operand =>
    rw [Expr.operands, List.flatMap_singleton]
    rfl
  | binary op left right =>
    rw [Expr.operands, List.flatMap_cons, List.flatMap_singleton]
    rfl

theorem exprType_eq (r : Resolution) (e : Expr) : exprType r e = (ruling r e).1 := by
  rw [exprType, checkExpr_eq]

theorem exprFaults_eq (r : Resolution) (e : Expr) :
    exprFaults r e = e.operands.flatMap (exprFaults r) ++ (ruling r e).2 := by
  rw [exprFaults, checkExpr_eq]

theorem ownFaults_eq (r : Resolution) (e : Expr) : ownFaults r e = (ruling r e).2 := by
  rw [ownFaults, exprFaults_eq, List.drop_left]

/-- An expression with a fault of its own has the type `error`. -/
theorem exprType_of_ownFaults {e : Expr} (h : ownFaults r e ≠ []) : exprType r e = .error := by
  rw [ownFaults_eq] at h
  rw [exprType_eq]
  cases e with
  | logical _ _ | int _ _ | string _ _ | loc _ => exact absurd rfl h
  | assign target value => exact (assign_passes target _ _).2 (.inr h)
  | call callee args => exact call_error (.inr h)
  | unary op operand => exact (unary_passes op _).2 (.inr h)
  | binary op left right => exact (binary_passes op _ _).2 (.inr h)

/-- The type `error` goes up from an operand. -/
theorem exprType_of_operand {e operand : Expr} (hin : operand ∈ e.operands)
    (h : exprType r operand = .error) : exprType r e = .error := by
  rw [exprType_eq]
  cases e with
  | logical _ _ | int _ _ | string _ _ | loc _ => cases hin
  | assign target value =>
    rw [Expr.operands, List.mem_singleton] at hin
    subst hin
    exact (assign_passes target _ _).2 (.inl (by simp [h]))
  | call callee args =>
    refine call_error (.inl ?_)
    rw [List.map_map]
    exact List.mem_map.2 ⟨operand, hin, h⟩
  | unary op v =>
    rw [Expr.operands, List.mem_singleton] at hin
    subst hin
    exact (unary_passes op _).2 (.inl (by simp [h]))
  | binary op left right =>
    rw [Expr.operands, List.mem_pair] at hin
    refine (binary_passes op _ _).2 (.inl ?_)
    rcases hin with rfl | rfl
    · simp [h]
    · simp [h]

/-- Unless something else than a function is called, nothing is added to the fault of an
operand, of the place assigned to or of the name called. -/
theorem ownFaults_silent {e : Expr} (hother : callsOther r e = false)
    (h : .error ∈ e.operands.map (exprType r) ∨ Dangles r e) : ownFaults r e = [] := by
  rw [ownFaults_eq]
  cases e with
  | logical _ _ | int _ _ | string _ _ | loc _ => rfl
  | assign target value =>
    refine (assign_modest target _ _).silent ?_
    rcases h with hvalue | htarget
    · rw [Expr.operands, List.map_singleton] at hvalue
      exact List.mem_cons_of_mem _ hvalue
    · exact List.mem_cons.2 (.inl (Eq.symm htarget))
  | call callee args =>
    refine call_silent hother (h.imp_left fun hin => ?_)
    rw [List.map_map]
    exact hin
  | unary op v => exact (unary_modest op _).silent (h.resolve_right id)
  | binary op left right => exact (binary_modest op _ _).silent (h.resolve_right id)

/-! ## Paths -/

/-- A fault anywhere on the way down gives the topmost expression the type `error`. -/
theorem exprType_of_path {e : Expr} {path : List Expr} (hpath : Expr.Descends (e :: path))
    (h : ∃ e' ∈ e :: path, ownFaults r e' ≠ []) : exprType r e = .error := by
  induction path generalizing e with
  | nil =>
    obtain ⟨e', he', hown⟩ := h
    rw [List.mem_singleton.1 he'] at hown
    exact exprType_of_ownFaults hown
  | cons operand path ih =>
    obtain ⟨hin, hrest⟩ := List.isChain_cons_cons.1 hpath
    obtain ⟨e', he', hown⟩ := h
    rcases List.mem_cons.1 he' with rfl | he'
    · exact exprType_of_ownFaults hown
    · exact exprType_of_operand hin (ih hrest ⟨e', he', hown⟩)

/-- Above an expression that adds something none does. -/
theorem countP_adds_le {path : List Expr} (hpath : Expr.Descends path) : path.countP (adds r) ≤ 1 := by
  induction path with
  | nil => exact Nat.zero_le 1
  | cons e path ih =>
    cases path with
    | nil => exact List.countP_le_length
    | cons operand path =>
      obtain ⟨hin, hrest⟩ := List.isChain_cons_cons.1 hpath
      by_cases hbelow : ∃ e' ∈ operand :: path, ownFaults r e' ≠ []
      · have hsilent : ¬ adds r e = true := by
          rw [adds_eq_true_iff]
          rintro ⟨hother, hown⟩
          exact hown (ownFaults_silent hother (.inl
            (List.mem_map.2 ⟨operand, hin, exprType_of_path hrest hbelow⟩)))
        rw [List.countP_cons_of_neg hsilent]
        exact ih hrest
      · have hnone : (operand :: path).countP (adds r) = 0 := by
          rw [List.countP_eq_zero]
          intro e' he' hadds
          exact hbelow ⟨e', he', (adds_eq_true_iff.1 hadds).2⟩
        rw [List.countP_cons, hnone, Nat.zero_add]
        split
        · exact Nat.le_refl 1
        · exact Nat.zero_le 1

/-- Faults do not cascade, in whatever resolution whose links lead to symbols. The report on
an expression is that on its operands, in source order, and then its own. Its own is empty
when an operand has the type `error`, when the place that it assigns to has, or when the name
that it calls is not linked; only a call of something that is no function is reported
whatever its arguments are. There are no other calls than those of a function, of something
else and of a name that is not linked. So on every way down at most one expression that is no
call of something else adds anything. -/
theorem faults_do_not_cascade (r : LinkedResolution) (e : Expr) :
    exprFaults r e = e.operands.flatMap (exprFaults r) ++ ownFaults r e ∧
      (callsOther r e = false → .error ∈ e.operands.map (exprType r) ∨ Dangles r e →
        ownFaults r e = []) ∧
      (∀ callee args, e = .call callee args → callsOther r e = true →
        ownFaults r e = [⟨callee.position, .callNonFunction⟩]) ∧
      (∀ callee args, e = .call callee args →
        callsOther r e = true ∨ callsFunction r e = true ∨ Dangles r e) ∧
      ∀ path, Expr.Descends (e :: path) →
        (e :: path).countP (adds r) ≤ 1 := by
  refine ⟨?_, ownFaults_silent, ?_, ?_, fun path => countP_adds_le⟩
  · rw [ownFaults_eq]
    exact exprFaults_eq r e
  · rintro callee args rfl hother
    rw [ownFaults_eq, ruling, call_of_callsOther hother]
  · rintro callee args rfl
    cases hother : callsOther r (.call callee args) with
    | true => exact .inl rfl
    | false =>
      cases hfunction : callsFunction r (.call callee args) with
      | true => exact .inr (.inl rfl)
      | false => exact .inr (.inr (dangles_of_calls hother hfunction))

/-- A resolution in which node 0 is an integer variable. -/
def variableTable : LinkedResolution where
  symbols := #[⟨"x", .variable .integer⟩]
  links := ⟨[(0, 0)]⟩
  accesses := .empty
  symbol_of_link i id h := by
    cases i with
    | zero =>
      cases h
      exact ⟨_, rfl⟩
    | succ i => cases h

/-- The argument `True + 1`. -/
def mixedSum : Expr := .binary .plus (.logical true .nowhere) (.int 1 .nowhere)

/-- A call `x(True + 1)` of that variable. -/
def variableCall : Expr := .call ⟨0, "x", .nowhere⟩ [mixedSum]

theorem faults_do_not_cascade_variable :
    ownFaults variableTable variableCall = [⟨.nowhere, .callNonFunction⟩] ∧
      ownFaults variableTable (.unary .negate variableCall) = [] ∧
      [.unary .negate variableCall, variableCall, mixedSum].countP (adds variableTable) ≤ 1 := by
  obtain ⟨-, -, hother, -, -⟩ := faults_do_not_cascade variableTable variableCall
  obtain ⟨-, hsilent, -, -, hpath⟩ := faults_do_not_cascade variableTable (.unary .negate variableCall)
  refine ⟨hother _ _ rfl rfl, hsilent rfl (.inl (List.mem_singleton.2 rfl)), hpath _ ?_⟩
  exact .cons_cons List.mem_cons_self (.cons_cons List.mem_cons_self (.singleton _))

end Typing
end BaseLang
