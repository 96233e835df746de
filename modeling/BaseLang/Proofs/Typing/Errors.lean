import BaseLang.Proofs.Resolving.Invariant
import BaseLang.Typing

/-
  Where the type `error` comes from.

  For a sound resolution an expression has the type `error` exactly if one of its
  locations has, which name resolution has reported, or the checker has found a fault
  in it (`exprType_eq_error_iff`). Each rule of an operator passes on the error of an
  operand without a fault of its own, and gives no other type when it finds a fault.
-/

namespace BaseLang.Typing

variable {r : Resolution}

/-! ## Types of symbols -/

/-- A type that the symbol of a declaration can have. -/
theorem symbol_ty {id : SymbolId} {s : Symbol} (hr : r.Sound) (hs : r.symbol? id = some s) :
    s.ty ≠ .error ∧ s.ty ≠ .void ∧ s.ty ≠ .string := by
  have hsound := hr.symbols id s hs
  obtain ⟨name, kind⟩ := s
  cases kind with
  | «variable» type => rcases hsound with rfl | rfl <;> exact ⟨nofun, nofun, nofun⟩
  | function _ _ | tupleInstance _ _ | tupleDef _ => exact ⟨nofun, nofun, nofun⟩

theorem symbolOf_eq_some_iff {x : Ident} {s : Symbol} :
    r.symbolOf x = some s ↔ ∃ id, r.linkOf x = some id ∧ r.symbol? id = some s :=
  Option.bind_eq_some_iff

theorem identType_of_symbolOf {x : Ident} {s : Symbol} (h : r.symbolOf x = some s) :
    identType r x = s.ty := by
  rw [identType, h]
  rfl

theorem identType_cases (hr : r.Sound) (x : Ident) :
    r.symbolOf x = none ∧ identType r x = .error ∨
      ∃ s, r.symbolOf x = some s ∧ identType r x = s.ty ∧
        s.ty ≠ .error ∧ s.ty ≠ .void ∧ s.ty ≠ .string := by
  cases hs : r.symbolOf x with
  | none => exact .inl ⟨rfl, by rw [identType, hs]; rfl⟩
  | some s =>
    obtain ⟨id, -, hid⟩ := symbolOf_eq_some_iff.1 hs
    exact .inr ⟨s, rfl, identType_of_symbolOf hs, symbol_ty hr hid⟩

theorem identType_eq_error_iff (hr : r.Sound) {x : Ident} :
    identType r x = .error ↔ r.linkOf x = none := by
  have hlink : r.symbolOf x = none ↔ r.linkOf x = none :=
    LinkedResolution.symbolOf_eq_none_iff (r := ⟨r, hr.links⟩)
  rw [← hlink]
  rcases identType_cases hr x with ⟨hnone, herror⟩ | ⟨s, hs, hty, hne, -⟩
  · exact ⟨fun _ => hnone, fun _ => herror⟩
  · rw [hs, hty]
    exact ⟨fun h => absurd h hne, nofun⟩

/-- No location is of the type of nothing or of a text. -/
theorem locType_ne (hr : r.Sound) (l : Loc) : locType r l ≠ .void ∧ locType r l ≠ .string := by
  have hident : ∀ x, identType r x ≠ .void ∧ identType r x ≠ .string := by
    intro x
    rcases identType_cases hr x with ⟨-, herror⟩ | ⟨s, -, hty, -, hvoid, hstring⟩
    · rw [herror]
      exact ⟨nofun, nofun⟩
    · rw [hty]
      exact ⟨hvoid, hstring⟩
  cases l with
  | ident x => exact hident x
  | access id l f =>
    rw [locType]
    split
    · exact hident f
    · exact ⟨nofun, nofun⟩

/-! ## The rules of the operators -/

/-- A rule passes an error on, and gives another type exactly if it finds no fault. -/
def Passes (operands : List Ty) (result : Ty × Diagnostics) : Prop :=
  result.1 = .error ↔ .error ∈ operands ∨ result.2 ≠ []

theorem operandFaults_eq_nil_iff {wanted : Ty → Bool} {kind : DiagnosticKind}
    {operands : List (Expr × Ty)} :
    operandFaults wanted kind operands = [] ↔ ∀ o ∈ operands, wanted o.2 = true := by
  simp only [operandFaults, List.filterMap_eq_nil_iff, Prod.forall]
  constructor
  · intro h e t ho
    have hnone := h e t ho
    split at hnone
    · next hw => exact hw
    · cases hnone
  · intro h e t ho
    rw [if_pos (h e t ho)]

theorem any_isError_iff {operands : List (Expr × Ty)} :
    (operands.any fun o => o.2.isError) = true ↔ .error ∈ operands.map Prod.snd := by
  rw [List.any_eq_true, List.mem_map]
  constructor
  · rintro ⟨o, ho, herror⟩
    exact ⟨o, ho, Ty.isError_iff.1 herror⟩
  · rintro ⟨o, ho, herror⟩
    exact ⟨o, ho, Ty.isError_iff.2 herror⟩

/-- Neither what is called nor an argument has the error type. -/
theorem error_not_mem_call {callee : Ty} {args : List (Expr × Ty)} (hcallee : callee ≠ .error)
    (hargs : ¬ (args.any fun o => o.2.isError) = true) : .error ∉ callee :: args.map Prod.snd := by
  rw [List.mem_cons, not_or]
  exact ⟨fun h => hcallee h.symm, fun h => hargs (any_isError_iff.2 h)⟩

theorem uniform_passes (wanted : Ty → Bool) (kind : DiagnosticKind) {result : Ty}
    (hresult : result ≠ .error) (operands : List (Expr × Ty)) :
    Passes (operands.map Prod.snd) (uniform wanted kind result operands) := by
  show (uniform wanted kind result operands).1 = .error ↔ _
  rw [uniform]
  by_cases herror : (operands.any fun o => o.2.isError) = true
  · rw [if_pos herror]
    exact ⟨fun _ => .inl (any_isError_iff.1 herror), fun _ => rfl⟩
  · rw [if_neg herror]
    have hnot : .error ∉ operands.map Prod.snd := fun h => herror (any_isError_iff.2 h)
    cases hfaults : operandFaults wanted kind operands with
    | nil => exact ⟨fun h => absurd h hresult, fun h => absurd h (by simp [hnot])⟩
    | cons d ds => exact ⟨fun _ => .inr nofun, fun _ => rfl⟩

theorem unary_passes (op : UnaryOp) (operand : Expr × Ty) : Passes [operand.2] (unary op operand) := by
  cases op with
  | negate => exact uniform_passes _ _ (by nofun) [operand]
  | not => exact uniform_passes _ _ (by nofun) [operand]

theorem or_isError_iff {t u : Ty} : (t.isError || u.isError) = true ↔ .error ∈ [t, u] := by
  rw [Bool.or_eq_true, Ty.isError_iff, Ty.isError_iff]
  simp [eq_comm]

theorem equality_passes (left right : Expr × Ty) : Passes [left.2, right.2] (equality left right) := by
  show (equality left right).1 = .error ↔ _
  rw [equality]
  by_cases herror : (left.2.isError || right.2.isError) = true
  · rw [if_pos herror]
    exact ⟨fun _ => .inl (or_isError_iff.1 herror), fun _ => rfl⟩
  · rw [if_neg herror]
    have hnot : .error ∉ [left.2, right.2] := fun h => herror (or_isError_iff.2 h)
    split
    · exact ⟨fun _ => .inr nofun, fun _ => rfl⟩
    · split
      · exact ⟨nofun, fun h => absurd h (by simp only [ne_eq, not_true_eq_false, or_false]; exact hnot)⟩
      · exact ⟨fun _ => .inr nofun, fun _ => rfl⟩

theorem binary_passes (op : BinaryOp) (left right : Expr × Ty) :
    Passes [left.2, right.2] (binary op left right) := by
  show Passes ([left, right].map Prod.snd) (binary op left right)
  rw [binary]
  split
  · exact uniform_passes _ _ (by nofun) _
  · split
    · exact uniform_passes _ _ (by nofun) _
    · split
      · exact equality_passes left right
      · exact uniform_passes _ _ (by nofun) _

theorem assign_passes (target : Loc) (left right : Ty) : Passes [left, right] (assign target left right) := by
  show (assign target left right).1 = .error ↔ _
  rw [assign]
  by_cases herror : (left.isError || right.isError) = true
  · rw [if_pos herror]
    exact ⟨fun _ => .inl (or_isError_iff.1 herror), fun _ => rfl⟩
  · rw [if_neg herror]
    have hnot : .error ∉ [left, right] := fun h => herror (or_isError_iff.2 h)
    split
    · exact ⟨fun _ => .inr nofun, fun _ => rfl⟩
    · split
      · refine ⟨fun h => ?_, fun h => absurd h (by simp only [ne_eq, not_true_eq_false, or_false]; exact hnot)⟩
        exact absurd (List.mem_cons.2 (.inl h.symm)) hnot
      · exact ⟨fun _ => .inr nofun, fun _ => rfl⟩

/-- A call passes on the error of its callee as well as those of its arguments. -/
theorem call_passes (hr : r.Sound) (callee : Ident) (args : List (Expr × Ty)) :
    Passes (identType r callee :: args.map Prod.snd) (call r callee args) := by
  show (call r callee args).1 = .error ↔ _
  rw [call]
  rcases identType_cases hr callee with ⟨hnone, herror⟩ | ⟨s, hs, hty, hne, -⟩
  · rw [hnone, herror]
    exact ⟨fun _ => .inl List.mem_cons_self, fun _ => rfl⟩
  · rw [hs, hty]
    obtain ⟨id, -, hid⟩ := symbolOf_eq_some_iff.1 hs
    have hkind := hr.symbols id s hid
    dsimp only [Option.map_some]
    cases hk : s.kind with
    | function result params =>
      rw [hk] at hkind
      obtain ⟨⟨t, ht⟩, -⟩ := hkind
      have hresult : result ≠ .error := by rw [ht]; cases t <;> nofun
      dsimp only
      by_cases herror : (args.any fun o => o.2.isError) = true
      · rw [if_pos herror]
        exact ⟨fun _ => .inl (List.mem_cons_of_mem _ (any_isError_iff.1 herror)), fun _ => rfl⟩
      · rw [if_neg herror]
        have hnot : .error ∉ s.ty :: args.map Prod.snd := error_not_mem_call hne herror
        split
        · exact ⟨fun _ => .inr nofun, fun _ => rfl⟩
        · cases hfaults : argFaults args params with
          | nil => exact ⟨fun h => absurd h hresult, fun h => absurd h (by simp [hnot])⟩
          | cons d ds => exact ⟨fun _ => .inr nofun, fun _ => rfl⟩
    | «variable» _ | tupleInstance _ _ | tupleDef _ => exact ⟨fun _ => .inr nofun, fun _ => rfl⟩

/-! ## Expressions -/

def exprTypes (r : Resolution) (es : List Expr) : List Ty := (checkExprs r es).1

def exprsFaults (r : Resolution) (es : List Expr) : Diagnostics := (checkExprs r es).2

theorem length_exprTypes (r : Resolution) (es : List Expr) : (exprTypes r es).length = es.length := by
  induction es with
  | nil => rfl
  | cons e es ih => exact congrArg (· + 1) ih

theorem map_snd_zip_exprTypes (r : Resolution) (es : List Expr) :
    (es.zip (exprTypes r es)).map Prod.snd = exprTypes r es :=
  List.map_snd_zip (Nat.le_of_eq (length_exprTypes r es))

theorem append_ne_nil_iff {xs ys : Diagnostics} : xs ++ ys ≠ [] ↔ xs ≠ [] ∨ ys ≠ [] := by
  rw [ne_eq, List.append_eq_nil_iff, Classical.not_and_iff_not_or_not]

/-- Two parts of an expression, each with its locations and its faults. -/
theorem parts_iff {P : Loc → Prop} {ls ms : List Loc} {ds es : Diagnostics} :
    ((∃ l ∈ ls, P l) ∨ ds ≠ []) ∨ (∃ l ∈ ms, P l) ∨ es ≠ [] ↔
      (∃ l ∈ ls ++ ms, P l) ∨ ds ++ es ≠ [] := by
  rw [append_ne_nil_iff, or_or_or_comm]
  simp only [List.mem_append, or_and_right, exists_or]

/-- A type and faults that come from operands, each with what it depends on. -/
theorem Passes.whole {operands : List Ty} {result : Ty × Diagnostics} (h : Passes operands result)
    {inner : Diagnostics} {places : Prop} (hin : .error ∈ operands ↔ places ∨ inner ≠ []) :
    result.1 = .error ↔ places ∨ inner ++ result.2 ≠ [] := by
  rw [show result.1 = .error ↔ _ from h, hin, append_ne_nil_iff, or_assoc]

mutual

/-- An expression has the type `error` exactly if a location in it has, or the checker
has found a fault in it. -/
theorem exprType_eq_error_iff (hr : r.Sound) : ∀ e : Expr,
    exprType r e = .error ↔ (∃ l ∈ e.places, locType r l = .error) ∨ exprFaults r e ≠ []
  | .logical _ _ | .int _ _ | .string _ _ =>
    ⟨nofun, fun h => h.elim (fun ⟨_, hl, _⟩ => by cases hl) fun h => absurd rfl h⟩
  | .loc l => by
    show locType r l = .error ↔ (∃ l' ∈ [l], locType r l' = .error) ∨ [] ≠ []
    simp
  | .assign l v => by
    refine (assign_passes l (locType r l) (exprType r v)).whole ?_
    rw [List.mem_cons, List.mem_singleton, eq_comm, eq_comm (b := exprType r v),
      exprType_eq_error_iff hr v, Expr.places, ← or_assoc]
    simp only [List.mem_cons, exists_eq_or_imp]
    rfl
  | .call f args => by
    refine (call_passes hr f (args.zip (exprTypes r args))).whole ?_
    rw [map_snd_zip_exprTypes, List.mem_cons, eq_comm, error_mem_exprTypes_iff hr args, Expr.places,
      ← or_assoc]
    simp only [List.mem_cons, exists_eq_or_imp]
    rfl
  | .unary op v => by
    refine (unary_passes op (v, exprType r v)).whole ?_
    rw [List.mem_singleton, eq_comm]
    exact exprType_eq_error_iff hr v
  | .binary op v w => by
    have hfaults : exprFaults r (.binary op v w) = (exprFaults r v ++ exprFaults r w) ++
      (binary op (v, exprType r v) (w, exprType r w)).2 := rfl
    rw [hfaults]
    refine (binary_passes op (v, exprType r v) (w, exprType r w)).whole ?_
    rw [List.mem_cons, List.mem_singleton, eq_comm, eq_comm (b := exprType r w),
      exprType_eq_error_iff hr v, exprType_eq_error_iff hr w]
    exact parts_iff

theorem error_mem_exprTypes_iff (hr : r.Sound) : ∀ es : List Expr,
    .error ∈ exprTypes r es ↔
      (∃ l ∈ Expr.placesOfAll es, locType r l = .error) ∨ exprsFaults r es ≠ []
  | [] => by
    show Ty.error ∈ [] ↔ (∃ l ∈ [], locType r l = .error) ∨ [] ≠ []
    simp
  | e :: es => by
    show .error ∈ exprType r e :: exprTypes r es ↔
      (∃ l ∈ e.places ++ Expr.placesOfAll es, locType r l = .error) ∨
        exprFaults r e ++ exprsFaults r es ≠ []
    rw [List.mem_cons, eq_comm, exprType_eq_error_iff hr e, error_mem_exprTypes_iff hr es]
    exact parts_iff

end

end BaseLang.Typing
