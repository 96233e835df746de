import BaseLang.Proofs.Typing.Errors

/-
  The faults that a rule finds itself.

  Faults do not cascade: a rule that is given an operand of the type `error` adds nothing
  of its own, and otherwise it adds at most one fault for each of its operands, at the
  position of that operand.

    1. `Modest` — what a rule adds when it behaves so;
    2. `unary_modest`, `binary_modest`, `assign_modest` — the operators;
    3. `call_modest` — calls, except that of a callee that is no function. This is
       reported whatever the arguments are.
-/

namespace BaseLang

/-- A kind of fault that is not about a return with a value where there should be none,
or without one. -/
def DiagnosticKind.IsPlain (k : DiagnosticKind) : Prop :=
  k ≠ .returnValueMissing ∧ k ≠ .returnWithValueInVoid

instance (k : DiagnosticKind) : Decidable k.IsPlain := inferInstanceAs (Decidable (_ ∧ _))

def Diagnostics.places (ds : Diagnostics) : List Position := ds.map Diagnostic.position

namespace Typing
variable {r : Resolution}

/-- What a rule adds to the faults of its operands, which have these types and stand at
these positions. -/
structure Modest (types : List Ty) (positions : List Position) (own : Diagnostics) : Prop where
  silent : .error ∈ types → own = []
  placed : List.Sublist own.places positions
  plain : ∀ d ∈ own, d.kind.IsPlain

namespace Modest
variable {types : List Ty} {positions : List Position}

theorem nothing : Modest types positions [] := ⟨fun _ => rfl, List.nil_sublist _, nofun⟩

/-- One fault at the first position. -/
theorem one {p : Position} {k : DiagnosticKind} (h : .error ∉ types) (hk : k.IsPlain) :
    Modest types (p :: positions) [⟨p, k⟩] where
  silent herror := absurd herror h
  placed := List.singleton_sublist.2 List.mem_cons_self
  plain d hd := by
    rw [List.mem_singleton.1 hd]
    exact hk

end Modest

/-! ## Operators -/

def positionsOf (operands : List (Expr × Ty)) : List Position := operands.map fun o => o.1.position

theorem operandFaults_eq (wanted : Ty → Bool) (kind : DiagnosticKind) (operands : List (Expr × Ty)) :
    operandFaults wanted kind operands =
      (operands.filter fun o => !wanted o.2).map fun o => ⟨o.1.position, kind⟩ := by
  induction operands with
  | nil => rfl
  | cons o operands ih =>
    obtain ⟨e, t⟩ := o
    rw [operandFaults] at ih
    by_cases h : wanted t = true
    · simp [operandFaults, h, ih]
    · simp [operandFaults, h, ih]

theorem operandFaults_places (wanted : Ty → Bool) (kind : DiagnosticKind) (operands : List (Expr × Ty)) :
    List.Sublist (operandFaults wanted kind operands).places (positionsOf operands) := by
  rw [operandFaults_eq, Diagnostics.places, List.map_map]
  exact List.filter_sublist.map _

theorem uniform_modest (wanted : Ty → Bool) {kind : DiagnosticKind} (hkind : kind.IsPlain) (result : Ty)
    (operands : List (Expr × Ty)) :
    Modest (operands.map Prod.snd) (positionsOf operands) (uniform wanted kind result operands).2 := by
  rw [uniform]
  by_cases herror : (operands.any fun o => o.2.isError) = true
  · rw [if_pos herror]
    exact .nothing
  · rw [if_neg herror]
    refine ⟨fun h => absurd (any_isError_iff.2 h) herror, operandFaults_places _ _ _, ?_⟩
    intro d hd
    rw [operandFaults_eq] at hd
    obtain ⟨o, -, rfl⟩ := List.mem_map.1 hd
    exact hkind

theorem unary_modest (op : UnaryOp) (operand : Expr × Ty) :
    Modest [operand.2] [operand.1.position] (unary op operand).2 := by
  cases op with
  | negate => exact uniform_modest _ (by decide) _ [operand]
  | not => exact uniform_modest _ (by decide) _ [operand]

theorem equalityFault?_plain {left right : Expr} {t : Ty} {k : DiagnosticKind}
    (h : equalityFault? left right t = some k) : k.IsPlain := by
  cases t <;> simp only [equalityFault?, reduceCtorEq, Option.some.injEq, Option.ite_none_right_eq_some] at h
  · obtain ⟨-, rfl⟩ := h
    decide
  all_goals
    subst h
    decide

theorem equality_modest (left right : Expr × Ty) :
    Modest [left.2, right.2] [left.1.position, right.1.position] (equality left right).2 := by
  rw [equality]
  by_cases herror : (left.2.isError || right.2.isError) = true
  · rw [if_pos herror]
    exact .nothing
  · rw [if_neg herror]
    have hnot : .error ∉ [left.2, right.2] := fun h => herror (or_isError_iff.2 h)
    split
    · exact .one hnot (by decide)
    · split
      · exact .nothing
      · next k hk => exact .one hnot (equalityFault?_plain hk)

theorem binary_modest (op : BinaryOp) (left right : Expr × Ty) :
    Modest [left.2, right.2] [left.1.position, right.1.position] (binary op left right).2 := by
  rw [binary]
  split
  · exact uniform_modest _ (by decide) _ [left, right]
  · split
    · exact uniform_modest _ (by decide) _ [left, right]
    · split
      · exact equality_modest left right
      · exact uniform_modest _ (by decide) _ [left, right]

theorem assignFault?_plain {t : Ty} {k : DiagnosticKind} (h : assignFault? t = some k) : k.IsPlain := by
  unfold assignFault? at h
  split at h <;> cases h <;> decide

theorem assign_modest (target : Loc) (left right : Ty) :
    Modest [left, right] [target.position] (assign target left right).2 := by
  rw [assign]
  by_cases herror : (left.isError || right.isError) = true
  · rw [if_pos herror]
    exact .nothing
  · rw [if_neg herror]
    have hnot : .error ∉ [left, right] := fun h => herror (or_isError_iff.2 h)
    split
    · exact .one hnot (by decide)
    · split
      · exact .nothing
      · next k hk => exact .one hnot (assignFault?_plain hk)

/-! ## Calls -/

theorem argFaults_places : ∀ (args : List (Expr × Ty)) (params : List Ty),
    List.Sublist (argFaults args params).places (positionsOf args)
  | [], _ => by
    rw [argFaults]
    · exact List.nil_sublist _
    · exact nofun
  | _ :: _, [] => List.nil_sublist _
  | (e, actual) :: args, formal :: params => by
    have ih := argFaults_places args params
    rw [argFaults]
    split
    · exact ih.cons _
    · exact ih.cons_cons e.position

theorem argFaults_kind : ∀ {args : List (Expr × Ty)} {params : List Ty} {d : Diagnostic},
    d ∈ argFaults args params → d.kind = .actualFormalMismatch
  | [], _, _, hd => by
    rw [argFaults] at hd
    · cases hd
    · exact nofun
  | _ :: _, [], _, hd => nomatch hd
  | (e, actual) :: args, formal :: params, d, hd => by
    rw [argFaults] at hd
    split at hd
    · exact argFaults_kind hd
    · rcases List.mem_cons.1 hd with rfl | hd
      · rfl
      · exact argFaults_kind hd

/-- A call of a function, or of a name that stands for nothing, is as modest as an
operator. That anything else is called is reported in any case. -/
theorem call_modest (hr : r.Sound) (callee : Ident) (args : List (Expr × Ty)) :
    Modest (identType r callee :: args.map Prod.snd) (callee.position :: positionsOf args)
        (call r callee args).2 ∨
      identType r callee ≠ .error ∧
        (call r callee args).2 = [⟨callee.position, .callNonFunction⟩] := by
  rw [call]
  rcases identType_cases hr callee with ⟨hnone, -⟩ | ⟨s, hs, hty, hne, -⟩
  · rw [hnone]
    exact .inl .nothing
  · rw [hs, hty, Option.map_some]
    cases s.kind with
    | function result params =>
      apply Or.inl
      dsimp only
      by_cases herror : (args.any fun o => o.2.isError) = true
      · rw [if_pos herror]
        exact .nothing
      · rw [if_neg herror]
        have hnot : .error ∉ s.ty :: args.map Prod.snd := error_not_mem_call hne herror
        split
        · exact .one hnot (by decide)
        · refine ⟨fun h => absurd h hnot, (argFaults_places args params).cons _, ?_⟩
          intro d hd
          rw [argFaults_kind hd]
          decide
    | «variable» _ | tupleInstance _ _ | tupleDef _ => exact .inr ⟨hne, rfl⟩

end Typing

end BaseLang
