import BaseLang.Proofs.Typing.Judgements
import BaseLang.Proofs.Typing.Reported
import BaseLang.Proofs.Typing.Values

/-
  The checker accepts exactly the well-typed programs.

  Each rule of the checker is compared with the rules of the judgement that speak of the
  same operator; then the two recursions over a tree agree case by case:

    1. `unary_ok_iff`, `binary_ok_iff`, `assign_ok_iff`, `call_ok_iff` — a rule of the
       checker finds no fault exactly for the types that a rule of the judgement asks for;
    2. `hasType_iff` — an expression has a type exactly if the checker finds that type and
       no fault;
    3. `wellTyped_iff` — the same for statements;
    4. `checkProgram_eq_nil_iff_wellTyped` — the theorem, for every program that was parsed
       and whose names are all right.
-/

namespace BaseLang.Typing

/-! ## Types that are the same -/

theorem same_iff {t u : Ty} (h : ∀ result params, u ≠ .function result params) :
    t.same u = true ↔ t = u := by
  cases t <;> cases u <;> simp [Ty.same] at h ⊢

theorem typeName_ty_ne_function (t : TypeName) (result : Ty) (params : List Ty) :
    t.ty ≠ .function result params := by
  cases t <;> nofun

/-! ## The rules of the operators -/

/-- What the judgement asks of the operand of an operator before it. -/
def UnaryRule : UnaryOp → Ty → Ty → Prop
  | .negate, operand, type => operand = .integer ∧ type = .integer
  | .not, operand, type => operand = .logical ∧ type = .logical

/-- What the judgement asks of the operands of an operator between them. -/
def BinaryRule (op : BinaryOp) (left right type : Ty) : Prop :=
  if op.isArithmetic then left = .integer ∧ right = .integer ∧ type = .integer
  else if op.isRelational then left = .integer ∧ right = .integer ∧ type = .logical
  else if op.isEquality then left = right ∧ left ∈ [Ty.integer, .logical, .string] ∧ type = .logical
  else left = .logical ∧ right = .logical ∧ type = .logical

theorem uniform_ok_iff {wanted : Ty → Bool} {kind : DiagnosticKind} {result : Ty}
    {operands : List (Expr × Ty)} (hne : .error ∉ operands.map Prod.snd) {type : Ty} :
    (uniform wanted kind result operands).2 = [] ∧ (uniform wanted kind result operands).1 = type ↔
      (∀ o ∈ operands, wanted o.2 = true) ∧ type = result := by
  rw [uniform, if_neg fun h => hne (any_isError_iff.1 h), ← operandFaults_eq_nil_iff]
  cases hfaults : operandFaults wanted kind operands with
  | nil =>
    show [] = [] ∧ result = type ↔ [] = [] ∧ type = result
    rw [eq_comm (a := result)]
  | cons d ds =>
    have hne := List.cons_ne_nil d ds
    exact ⟨fun h => absurd h.1 hne, fun h => absurd h.1 hne⟩

theorem unary_ok_iff (op : UnaryOp) {v : Expr} {t type : Ty} (ht : t ≠ .error) :
    (unary op (v, t)).2 = [] ∧ (unary op (v, t)).1 = type ↔ UnaryRule op t type := by
  have hne : .error ∉ [(v, t)].map Prod.snd := by simpa using fun h => ht h.symm
  cases op with
  | negate =>
    rw [unary, uniform_ok_iff hne, UnaryRule, List.forall_mem_singleton, Ty.isInteger_iff]
  | not => rw [unary, uniform_ok_iff hne, UnaryRule, List.forall_mem_singleton, Ty.isLogical_iff]

theorem equality_ok_iff {v w : Expr} {t u type : Ty} (ht : t ≠ .error) (hu : u ≠ .error)
    (hcall : t = .void → v.isCall = true) (hcall' : u = .void → w.isCall = true) :
    (equality (v, t) (w, u)).2 = [] ∧ (equality (v, t) (w, u)).1 = type ↔
      t = u ∧ t ∈ [Ty.integer, .logical, .string] ∧ type = .logical := by
  rw [equality]
  dsimp only
  rw [if_neg (not_isError_or ht hu)]
  cases t with
  | error => exact absurd rfl ht
  | void =>
    -- two results of nothing are only calls, and those have a fault of their own
    cases u with
    | void => simp [Ty.same, equalityFault?, hcall rfl, hcall' rfl]
    | _ => simp [Ty.same]
  | logical | integer | string => cases u <;> simp [Ty.same, equalityFault?, eq_comm]
  | tupleInstance a =>
    cases u with
    | tupleInstance b => by_cases h : a = b <;> simp [Ty.same, equalityFault?, h]
    | _ => simp [Ty.same]
  | tupleDef a =>
    cases u with
    | tupleDef b => by_cases h : a = b <;> simp [Ty.same, equalityFault?, h]
    | _ => simp [Ty.same]
  | function _ _ =>
    cases u <;> simp [Ty.same, equalityFault?]

theorem binary_ok_iff (op : BinaryOp) {v w : Expr} {t u type : Ty} (ht : t ≠ .error)
    (hu : u ≠ .error) (hcall : t = .void → v.isCall = true) (hcall' : u = .void → w.isCall = true) :
    (binary op (v, t) (w, u)).2 = [] ∧ (binary op (v, t) (w, u)).1 = type ↔
      BinaryRule op t u type := by
  have hne : .error ∉ [(v, t), (w, u)].map Prod.snd := by
    simpa using ⟨fun h => ht h.symm, fun h => hu h.symm⟩
  rw [binary, BinaryRule]
  split
  · rw [uniform_ok_iff hne]
    simp [Ty.isInteger_iff, and_assoc]
  · split
    · rw [uniform_ok_iff hne]
      simp [Ty.isInteger_iff, and_assoc]
    · split
      · exact equality_ok_iff ht hu hcall hcall'
      · rw [uniform_ok_iff hne]
        simp [Ty.isLogical_iff, and_assoc]

theorem argFaults_eq_nil_iff : ∀ (args : List Expr) (types params : List Ty),
    args.length = types.length → args.length = params.length → (∀ t ∈ params, t.IsParam) →
    (argFaults (args.zip types) params = [] ↔ types = params)
  | [], [], [], _, _, _ => ⟨fun _ => rfl, fun _ => rfl⟩
  | e :: args, t :: types, u :: params, htypes, hparams, hsorts => by
    have ih := argFaults_eq_nil_iff args types params (Nat.succ.inj htypes) (Nat.succ.inj hparams)
      fun t ht => hsorts t (List.mem_cons_of_mem _ ht)
    -- types are compared up to functions, and no formal is one
    have hsame : t.same u = true ↔ t = u := by
      obtain ⟨name, -, rfl⟩ := hsorts u List.mem_cons_self
      exact same_iff (typeName_ty_ne_function name)
    show (if t.same u then argFaults (args.zip types) params
      else ⟨e.position, .actualFormalMismatch⟩ :: argFaults (args.zip types) params) = [] ↔ _
    rw [List.cons.injEq, ← hsame, ← ih]
    by_cases h : t.same u = true
    · simp [h]
    · simp [h]

/-- A call of a function without a faulty argument is right exactly if the types of the
arguments are those of the formals. -/
theorem call_ok_iff {r : Resolution} (hr : r.Sound) {f : Ident} (hf : identType r f ≠ .error)
    {args : List Expr} {types : List Ty} (hlength : types.length = args.length)
    (hne : .error ∉ types) {type : Ty} :
    (call r f (args.zip types)).2 = [] ∧ (call r f (args.zip types)).1 = type ↔
      ∃ s, r.symbolOf f = some s ∧ s.kind = .function type types := by
  rcases identType_cases hr f with ⟨-, herror⟩ | ⟨s, hs, -⟩
  · exact absurd herror hf
  · obtain ⟨id, -, hid⟩ := symbolOf_eq_some_iff.1 hs
    have hkind := hr.symbols id s hid
    have hmap : (args.zip types).map Prod.snd = types := List.map_snd_zip (Nat.le_of_eq hlength)
    rw [call, hs]
    dsimp only [Option.map_some]
    simp only [Option.some.injEq, exists_eq_left']
    cases hk : s.kind with
    | function result params =>
      rw [hk] at hkind
      dsimp only
      rw [if_neg fun h => hne (hmap ▸ any_isError_iff.1 h), List.length_zip, hlength, Nat.min_self,
        SymbolKind.function.injEq]
      by_cases hcount : args.length = params.length
      · have hargs := argFaults_eq_nil_iff args types params hlength.symm hcount hkind.2
        rw [if_neg (not_not_intro hcount), eq_comm (b := types), ← hargs]
        cases argFaults (args.zip types) params with
        | nil => simp
        | cons d ds => simp
      · rw [if_pos hcount]
        refine ⟨fun h => absurd h.1 (List.cons_ne_nil _ _), fun h => absurd ?_ hcount⟩
        rw [h.2, hlength]
    | «variable» _ | tupleInstance _ _ | tupleDef _ =>
      exact ⟨fun h => absurd h.1 (List.cons_ne_nil _ _), fun h => by cases h⟩

/-! ## Expressions -/

section Expressions
variable {r : Resolution}

theorem isArithmetic_iff {op : BinaryOp} :
    op.isArithmetic = true ↔ op ∈ [BinaryOp.plus, .minus, .times, .divide] := by cases op <;> decide

theorem isRelational_iff {op : BinaryOp} :
    op.isRelational = true ↔ op ∈ [BinaryOp.less, .lessEq, .greater, .greaterEq] := by
  cases op <;> decide

theorem isEquality_iff {op : BinaryOp} : op.isEquality = true ↔ op ∈ [BinaryOp.equals, .notEquals] := by
  cases op <;> decide

/-- The rules of the judgement for an operator before its operand. -/
theorem hasType_unary_iff {op : UnaryOp} {v : Expr} {type : Ty} :
    HasType r (.unary op v) type ↔ ∃ t, HasType r v t ∧ UnaryRule op t type := by
  constructor
  · intro h
    cases h with
    | negate h => exact ⟨_, h, rfl, rfl⟩
    | not h => exact ⟨_, h, rfl, rfl⟩
  · rintro ⟨t, h, hrule⟩
    cases op with
    | negate =>
      obtain ⟨rfl, rfl⟩ := hrule
      exact .negate h
    | not =>
      obtain ⟨rfl, rfl⟩ := hrule
      exact .not h

/-- The rules of the judgement for an operator between its operands. -/
theorem hasType_binary_iff {op : BinaryOp} {v w : Expr} {type : Ty} :
    HasType r (.binary op v w) type ↔
      ∃ t u, HasType r v t ∧ HasType r w u ∧ BinaryRule op t u type := by
  constructor
  · intro h
    cases h with
    | arithmetic hop hv hw =>
      exact ⟨_, _, hv, hw, by rw [BinaryRule, if_pos (isArithmetic_iff.2 hop)]; exact ⟨rfl, rfl, rfl⟩⟩
    | comparison hop hv hw =>
      refine ⟨_, _, hv, hw, ?_⟩
      clear hv hw
      revert hop
      cases op <;> simp [BinaryRule, BinaryOp.isArithmetic, BinaryOp.isRelational]
    | connective hop hv hw =>
      refine ⟨_, _, hv, hw, ?_⟩
      clear hv hw
      revert hop
      cases op <;>
        simp [BinaryRule, BinaryOp.isArithmetic, BinaryOp.isRelational, BinaryOp.isEquality]
    | equality hop htype hv hw =>
      refine ⟨_, _, hv, hw, ?_⟩
      clear hv hw
      revert hop htype
      cases op <;>
        simp [BinaryRule, BinaryOp.isArithmetic, BinaryOp.isRelational, BinaryOp.isEquality]
  · rintro ⟨t, u, hv, hw, hrule⟩
    rw [BinaryRule] at hrule
    split at hrule
    · next hop =>
      obtain ⟨rfl, rfl, rfl⟩ := hrule
      exact .arithmetic (isArithmetic_iff.1 hop) hv hw
    · next hother =>
      split at hrule
      · next hop =>
        obtain ⟨rfl, rfl, rfl⟩ := hrule
        exact .comparison (isRelational_iff.1 hop) hv hw
      · next hother' =>
        split at hrule
        · next hop =>
          obtain ⟨rfl, htype, rfl⟩ := hrule
          exact .equality (isEquality_iff.1 hop) htype hv hw
        · next hother'' =>
          obtain ⟨rfl, rfl, rfl⟩ := hrule
          refine .connective ?_ hv hw
          revert hother hother' hother''
          cases op <;> decide

theorem hasType_assign_iff {l : Loc} {v : Expr} {type : Ty} :
    HasType r (.assign l v) type ↔ ∃ t u, HasType r (.loc l) t ∧ HasType r v u ∧
      t = u ∧ t ∈ [Ty.integer, .logical] ∧ type = t := by
  constructor
  · intro h
    cases h with
    | assign htype hl hv => exact ⟨_, _, hl, hv, rfl, htype, rfl⟩
  · rintro ⟨t, u, hl, hv, rfl, htype, rfl⟩
    exact .assign htype hl hv

theorem hasType_call_iff {f : Ident} {args : List Expr} {type : Ty} :
    HasType r (.call f args) type ↔ ∃ types, HasTypes r args types ∧
      ∃ s, r.symbolOf f = some s ∧ s.kind = .function type types := by
  constructor
  · intro h
    cases h with
    | call hs hk hargs => exact ⟨_, hargs, _, hs, hk⟩
  · rintro ⟨types, hargs, s, hs, hk⟩
    exact .call hs hk hargs

/-- A location that was found has the type of its symbol. -/
theorem hasType_loc_iff (hr : r.Sound) {l : Loc} (hl : locType r l ≠ .error) {type : Ty} :
    HasType r (.loc l) type ↔ locType r l = type := by
  have hident : ∀ x : Ident, identType r x ≠ .error →
      ((∃ s, r.symbolOf x = some s ∧ s.ty = type) ↔ identType r x = type) := by
    intro x hx
    rcases identType_cases hr x with ⟨-, herror⟩ | ⟨s, hs, hty, -⟩
    · exact absurd herror hx
    · rw [hs, hty]
      simp
  cases l with
  | ident x =>
    refine Iff.trans ⟨?_, ?_⟩ (hident x hl)
    · intro h
      cases h with
      | name hs => exact ⟨_, hs, rfl⟩
    · rintro ⟨s, hs, rfl⟩
      exact .name hs
  | access id base f =>
    have htype : locType r (.access id base f) = identType r f := by
      rw [locType] at hl ⊢
      split at hl
      · rfl
      · exact absurd rfl hl
    rw [htype] at hl ⊢
    refine Iff.trans ⟨?_, ?_⟩ (hident f hl)
    · intro h
      cases h with
      | field hs => exact ⟨_, hs, rfl⟩
    · rintro ⟨s, hs, rfl⟩
      exact .field hs

/-- An expression whose locations are all found has the type `error` only with a fault. -/
theorem ne_error_of_faults_eq_nil (hr : r.Sound) {e : Expr}
    (hfound : ∀ l ∈ e.places, locType r l ≠ .error) (h : exprFaults r e = []) :
    exprType r e ≠ .error := by
  intro herror
  rcases (exprType_eq_error_iff hr e).1 herror with ⟨l, hl, hlost⟩ | hfault
  · exact hfound l hl hlost
  · exact hfault h

/-- What is found in an operand and in what uses it, when each is decided by a rule. -/
theorem exists_operand_iff {P Q : Ty → Prop} {t : Ty} {clean : Prop}
    (hP : ∀ u, P u ↔ clean ∧ t = u) : (∃ u, P u ∧ Q u) ↔ clean ∧ Q t := by
  constructor
  · rintro ⟨u, hu, hq⟩
    obtain ⟨hc, rfl⟩ := (hP u).1 hu
    exact ⟨hc, hq⟩
  · rintro ⟨hc, hq⟩
    exact ⟨t, (hP t).2 ⟨hc, rfl⟩, hq⟩

mutual

/-- An expression whose locations are all found has a type exactly if the checker finds
that type and no fault. -/
theorem hasType_iff (hr : r.Sound) : ∀ (e : Expr), (∀ l ∈ e.places, locType r l ≠ .error) →
    ∀ type, HasType r e type ↔ exprFaults r e = [] ∧ exprType r e = type
  | .logical _ _, _, type => ⟨fun h => by cases h; exact ⟨rfl, rfl⟩, fun ⟨_, h⟩ => h ▸ .logical⟩
  | .int _ _, _, type => ⟨fun h => by cases h; exact ⟨rfl, rfl⟩, fun ⟨_, h⟩ => h ▸ .int⟩
  | .string _ _, _, type => ⟨fun h => by cases h; exact ⟨rfl, rfl⟩, fun ⟨_, h⟩ => h ▸ .string⟩
  | .loc l, hfound, type => by
    rw [hasType_loc_iff hr (hfound l (List.mem_singleton_self l))]
    exact ⟨fun h => ⟨rfl, h⟩, fun h => h.2⟩
  | .unary op v, hfound, type => by
    have hfaults : exprFaults r (.unary op v) = exprFaults r v ++ (unary op (v, exprType r v)).2 := rfl
    have htype : exprType r (.unary op v) = (unary op (v, exprType r v)).1 := rfl
    rw [hasType_unary_iff, exists_operand_iff (hasType_iff hr v hfound), hfaults, htype,
      List.append_eq_nil_iff, and_assoc]
    -- without a fault in the operand its type is no error, and so the operator decides
    refine and_congr_right fun hclean => (unary_ok_iff op ?_).symm
    exact ne_error_of_faults_eq_nil hr hfound hclean
  | .binary op v w, hfound, type => by
    have hv : ∀ l ∈ v.places, locType r l ≠ .error := fun l hl => hfound l (List.mem_append_left _ hl)
    have hw : ∀ l ∈ w.places, locType r l ≠ .error := fun l hl => hfound l (List.mem_append_right _ hl)
    have hfaults : exprFaults r (.binary op v w) = exprFaults r v ++ exprFaults r w ++
      (binary op (v, exprType r v) (w, exprType r w)).2 := rfl
    have htype : exprType r (.binary op v w) = (binary op (v, exprType r v) (w, exprType r w)).1 := rfl
    rw [hasType_binary_iff, hfaults, htype, List.append_eq_nil_iff, List.append_eq_nil_iff, and_assoc,
      and_assoc]
    simp only [exists_and_left]
    rw [exists_operand_iff (hasType_iff hr v hv)]
    refine and_congr_right fun hcleanv => ?_
    rw [exists_operand_iff (hasType_iff hr w hw)]
    refine and_congr_right fun hcleanw => (binary_ok_iff op ?_ ?_ ?_ ?_).symm
    · exact ne_error_of_faults_eq_nil hr hv hcleanv
    · exact ne_error_of_faults_eq_nil hr hw hcleanw
    · exact isCall_of_void hr
    · exact isCall_of_void hr
  | .assign l v, hfound, type => by
    have hl : locType r l ≠ .error := hfound l List.mem_cons_self
    have hv : ∀ l ∈ v.places, locType r l ≠ .error := fun l hl => hfound l (List.mem_cons_of_mem _ hl)
    have hfaults : exprFaults r (.assign l v) =
      exprFaults r v ++ (assign l (locType r l) (exprType r v)).2 := rfl
    have htype : exprType r (.assign l v) = (assign l (locType r l) (exprType r v)).1 := rfl
    have hloc : ∀ u, HasType r (.loc l) u ↔ True ∧ locType r l = u := fun u => by
      rw [hasType_loc_iff hr hl, true_and]
    rw [hasType_assign_iff, hfaults, htype, List.append_eq_nil_iff, and_assoc]
    simp only [exists_and_left]
    rw [exists_operand_iff hloc, true_and, exists_operand_iff (hasType_iff hr v hv)]
    refine and_congr_right fun hclean => (assign_ok_iff l hl ?_ ?_ ?_).symm
    · exact ne_error_of_faults_eq_nil hr hv hclean
    · exact (locType_ne hr l).1
    · exact (locType_ne hr l).2
  | .call f args, hfound, type => by
    have hf : identType r f ≠ .error := hfound (.ident f) List.mem_cons_self
    have hargs : ∀ l ∈ Expr.placesOfAll args, locType r l ≠ .error :=
      fun l hl => hfound l (List.mem_cons_of_mem _ hl)
    have hfaults : exprFaults r (.call f args) =
      exprsFaults r args ++ (call r f (args.zip (exprTypes r args))).2 := rfl
    have htype : exprType r (.call f args) = (call r f (args.zip (exprTypes r args))).1 := rfl
    have hne : exprsFaults r args = [] → .error ∉ exprTypes r args := by
      intro hclean
      rw [error_mem_exprTypes_iff hr args]
      exact fun h => h.elim (fun ⟨l, hl, hlost⟩ => hargs l hl hlost) fun h => h hclean
    rw [hasType_call_iff, hfaults, htype, List.append_eq_nil_iff, and_assoc]
    constructor
    · rintro ⟨types, htypes, hcall⟩
      obtain ⟨hclean, rfl⟩ := (hasTypes_iff hr args hargs types).1 htypes
      exact ⟨hclean, (call_ok_iff hr hf (length_exprTypes r args) (hne hclean)).2 hcall⟩
    · rintro ⟨hclean, hcall⟩
      exact ⟨_, (hasTypes_iff hr args hargs _).2 ⟨hclean, rfl⟩,
        (call_ok_iff hr hf (length_exprTypes r args) (hne hclean)).1 hcall⟩

theorem hasTypes_iff (hr : r.Sound) : ∀ (es : List Expr),
    (∀ l ∈ Expr.placesOfAll es, locType r l ≠ .error) →
    ∀ types, HasTypes r es types ↔ exprsFaults r es = [] ∧ exprTypes r es = types
  | [], _, types => ⟨fun h => by cases h; exact ⟨rfl, rfl⟩, fun ⟨_, h⟩ => h ▸ .nil⟩
  | e :: es, hfound, types => by
    have he := hasType_iff hr e fun l hl => hfound l (List.mem_append_left _ hl)
    have hes := hasTypes_iff hr es fun l hl => hfound l (List.mem_append_right _ hl)
    show HasTypes r (e :: es) types ↔
      exprFaults r e ++ exprsFaults r es = [] ∧ exprType r e :: exprTypes r es = types
    rw [List.append_eq_nil_iff]
    constructor
    · intro h
      cases h with
      | cons hhead htail =>
        obtain ⟨hclean, rfl⟩ := (he _).1 hhead
        obtain ⟨hcleans, rfl⟩ := (hes _).1 htail
        exact ⟨⟨hclean, hcleans⟩, rfl⟩
    · rintro ⟨⟨hclean, hcleans⟩, rfl⟩
      exact .cons ((he _).2 ⟨hclean, rfl⟩) ((hes _).2 ⟨hcleans, rfl⟩)

end

end Expressions

/-! ## Statements -/

section Statements
variable {r : Resolution} {result : Ty}

/-- The locations of these expressions are all found. -/
def Found (r : Resolution) (es : List Expr) : Prop :=
  ∀ e ∈ es, ∀ l ∈ e.places, locType r l ≠ .error

theorem Found.append {es es' : List Expr} (h : Found r (es ++ es')) : Found r es ∧ Found r es' :=
  ⟨fun e he => h e (List.mem_append_left _ he), fun e he => h e (List.mem_append_right _ he)⟩

theorem Found.cons {e : Expr} {es : List Expr} (h : Found r (e :: es)) :
    (∀ l ∈ e.places, locType r l ≠ .error) ∧ Found r es :=
  ⟨h e List.mem_cons_self, fun e' he => h e' (List.mem_cons_of_mem _ he)⟩

theorem Found.place {l : Loc} {es : List Expr} (h : Found r (.loc l :: es)) : locType r l ≠ .error :=
  h.cons.1 l (List.mem_singleton_self l)

theorem conditionFaults_eq_nil_iff (hr : r.Sound) {kind : DiagnosticKind} {c : Expr}
    (hfound : ∀ l ∈ c.places, locType r l ≠ .error) :
    conditionFaults r kind c = [] ↔ HasType r c .logical := by
  have hfaults : conditionFaults r kind c = exprFaults r c ++
    if (exprType r c).isError || (exprType r c).isLogical then [] else [⟨c.position, kind⟩] := rfl
  rw [hfaults, List.append_eq_nil_iff, hasType_iff hr c hfound]
  refine and_congr_right fun hclean => ?_
  have hne := ne_error_of_faults_eq_nil hr hfound hclean
  rw [ite_eq_left_iff, Bool.not_eq_true, Bool.or_eq_false_iff, ← Ty.isLogical_iff,
    isError_eq_false hne]
  cases (exprType r c).isLogical <;> simp

theorem stepFaults_eq_nil_iff (hr : r.Sound) {l : Loc} (hl : locType r l ≠ .error) :
    stepFaults r l = [] ↔ HasType r (.loc l) .integer := by
  rw [hasType_loc_iff hr hl, stepFaults, ← Ty.isInteger_iff, isError_eq_false hl]
  cases (locType r l).isInteger <;> simp

theorem faultAt_eq_nil_iff {p : Position} {kind : Option DiagnosticKind} :
    faultAt p kind = [] ↔ kind = none := by
  cases kind <;> simp [faultAt]

theorem read_iff (hr : r.Sound) {l : Loc} (hl : locType r l ≠ .error) :
    readFault? (locType r l) = none ↔ ∃ type ∈ [Ty.integer, .logical], HasType r (.loc l) type := by
  obtain ⟨hvoid, hstring⟩ := locType_ne hr l
  simp only [hasType_loc_iff hr hl]
  cases htype : locType r l with
  | error => exact absurd htype hl
  | void => exact absurd htype hvoid
  | string => exact absurd htype hstring
  | logical | integer | tupleInstance _ | tupleDef _ | function _ _ => simp [readFault?]

theorem write_iff (hr : r.Sound) {v : Expr} (hfound : ∀ l ∈ v.places, locType r l ≠ .error) :
    exprFaults r v = [] ∧ writeFault? v (exprType r v) = none ↔
      ∃ type ∈ [Ty.integer, .logical, .string], HasType r v type := by
  simp only [hasType_iff hr v hfound]
  constructor
  · rintro ⟨hclean, hwrite⟩
    have hne := ne_error_of_faults_eq_nil hr hfound hclean
    refine ⟨exprType r v, ?_, hclean, rfl⟩
    have hcall := isCall_of_void (e := v) hr
    cases htype : exprType r v with
    | error => exact absurd htype hne
    | void =>
      -- nothing can only be the result of a call, and writing that is a fault
      rw [htype, writeFault?, if_pos (hcall htype)] at hwrite
      cases hwrite
    | tupleInstance _ | tupleDef _ | function _ _ =>
      rw [htype] at hwrite
      cases hwrite
    | logical | integer | string => simp
  · rintro ⟨type, hmem, hclean, htype⟩
    refine ⟨hclean, ?_⟩
    rw [htype]
    simp only [List.mem_cons, List.not_mem_nil, or_false] at hmem
    rcases hmem with rfl | rfl | rfl <;> rfl

theorem returnFaults_eq_nil_iff (hr : r.Sound) (hresult : ∀ t params, result ≠ .function t params)
    {v : Expr} (hfound : ∀ l ∈ v.places, locType r l ≠ .error) :
    returnFaults r result (some v) = [] ↔ result ≠ .void ∧ HasType r v result := by
  have hfaults : returnFaults r result (some v) = exprFaults r v ++
    if result.isVoid then [⟨v.position, .returnWithValueInVoid⟩]
    else if (exprType r v).isError || (exprType r v).same result then []
    else [⟨v.position, .returnValueWrongType⟩] := rfl
  have hvoid : result.isVoid = true ↔ result = .void := by cases result <;> simp [Ty.isVoid]
  rw [hfaults, List.append_eq_nil_iff, hasType_iff hr v hfound, and_left_comm]
  refine and_congr_right fun hclean => ?_
  have hne := ne_error_of_faults_eq_nil hr hfound hclean
  rw [← same_iff hresult, isError_eq_false hne, Bool.false_or]
  by_cases h : result = .void
  · rw [if_pos (hvoid.2 h)]
    exact ⟨nofun, fun h' => absurd h h'.1⟩
  · rw [if_neg fun h' => h (hvoid.1 h')]
    cases (exprType r v).same result <;> simp [h]

mutual

/-- A statement whose locations are all found is well typed exactly if the checker finds
no fault in it. -/
theorem wellTyped_iff (hr : r.Sound) (hresult : ∀ t params, result ≠ .function t params) :
    ∀ s : Stmt, Found r s.exprs → (checkStmt r result s = [] ↔ WellTyped r result s)
  | .assign l v, hfound => by
    have htyped := hasType_iff hr (.assign l v) hfound.cons.1
    show exprFaults r (.assign l v) = [] ↔ _
    refine ⟨fun h => .assign ((htyped _).2 ⟨h, rfl⟩), fun h => ?_⟩
    cases h with
    | assign h => exact ((htyped _).1 h).1
  | .call f args, hfound => by
    have htyped := hasType_iff hr (.call f args) hfound.cons.1
    show exprFaults r (.call f args) = [] ↔ _
    refine ⟨fun h => .call ((htyped _).2 ⟨h, rfl⟩), fun h => ?_⟩
    cases h with
    | call h => exact ((htyped _).1 h).1
  | .increment l, hfound => by
    refine (stepFaults_eq_nil_iff hr hfound.place).trans ⟨.increment, fun h => ?_⟩
    cases h with
    | increment h => exact h
  | .decrement l, hfound => by
    refine (stepFaults_eq_nil_iff hr hfound.place).trans ⟨.decrement, fun h => ?_⟩
    cases h with
    | decrement h => exact h
  | .ifThen c b, hfound => by
    rw [checkStmt, List.append_eq_nil_iff, conditionFaults_eq_nil_iff hr hfound.cons.1,
      blockWellTyped_iff hr hresult b hfound.cons.2]
    refine ⟨fun ⟨hc, hb⟩ => .ifThen hc hb, fun h => ?_⟩
    cases h with
    | ifThen hc hb => exact ⟨hc, hb⟩
  | .ifElse c b b', hfound => by
    obtain ⟨hthen, helse⟩ := hfound.cons.2.append
    rw [checkStmt, List.append_eq_nil_iff, List.append_eq_nil_iff,
      conditionFaults_eq_nil_iff hr hfound.cons.1, blockWellTyped_iff hr hresult b hthen,
      blockWellTyped_iff hr hresult b' helse]
    refine ⟨fun ⟨hc, hb, hb'⟩ => .ifElse hc hb hb', fun h => ?_⟩
    cases h with
    | ifElse hc hb hb' => exact ⟨hc, hb, hb'⟩
  | .whileDo c b, hfound => by
    rw [checkStmt, List.append_eq_nil_iff, conditionFaults_eq_nil_iff hr hfound.cons.1,
      blockWellTyped_iff hr hresult b hfound.cons.2]
    refine ⟨fun ⟨hc, hb⟩ => .whileDo hc hb, fun h => ?_⟩
    cases h with
    | whileDo hc hb => exact ⟨hc, hb⟩
  | .read l, hfound => by
    rw [checkStmt, faultAt_eq_nil_iff, read_iff hr hfound.place]
    refine ⟨fun ⟨_, htype, h⟩ => .read htype h, fun h => ?_⟩
    cases h with
    | read htype h => exact ⟨_, htype, h⟩
  | .write v, hfound => by
    show exprFaults r v ++ faultAt v.position (writeFault? v (exprType r v)) = [] ↔ _
    rw [List.append_eq_nil_iff, faultAt_eq_nil_iff, write_iff hr hfound.cons.1]
    refine ⟨fun ⟨_, htype, h⟩ => .write htype h, fun h => ?_⟩
    cases h with
    | write htype h => exact ⟨_, htype, h⟩
  | .ret none p, _ => by
    show (if result.isVoid then [] else _) = [] ↔ _
    constructor
    · intro h
      refine .leave ?_
      cases result with
      | void => rfl
      | _ => cases h
    · intro h
      cases h with
      | leave h => rw [h]; rfl
  | .ret (some v) p, hfound => by
    rw [checkStmt, returnFaults_eq_nil_iff hr hresult hfound.cons.1]
    refine ⟨fun ⟨hne, h⟩ => .giveBack hne h, fun h => ?_⟩
    cases h with
    | giveBack hne h => exact ⟨hne, h⟩

theorem blockWellTyped_iff (hr : r.Sound) (hresult : ∀ t params, result ≠ .function t params) :
    ∀ b : Block, Found r b.exprs → (checkBlock r result b = [] ↔ BlockWellTyped r result b)
  | .mk _ ss, hfound => by
    refine (allWellTyped_iff hr hresult ss hfound).trans ⟨.mk, fun h => ?_⟩
    cases h with
    | mk h => exact h

theorem allWellTyped_iff (hr : r.Sound) (hresult : ∀ t params, result ≠ .function t params) :
    ∀ ss : List Stmt, Found r (Stmt.exprsOfAll ss) →
      (checkStmts r result ss = [] ↔ AllWellTyped r result ss)
  | [], _ => ⟨fun _ => .nil, fun _ => rfl⟩
  | s :: ss, hfound => by
    rw [checkStmts, List.append_eq_nil_iff, wellTyped_iff hr hresult s hfound.append.1,
      allWellTyped_iff hr hresult ss hfound.append.2]
    refine ⟨fun ⟨h, hs⟩ => .cons h hs, fun h => ?_⟩
    cases h with
    | cons h hs => exact ⟨h, hs⟩

end

end Statements

/-! ## Programs -/

/-- The checker finds no fault in a program whose locations are all found exactly if
every function body is well typed. -/
theorem checkProgram_eq_nil_iff {r : Resolution} (hr : r.Sound) {p : Program}
    (hfound : Found r p.exprs) : checkProgram r p = [] ↔ p.WellTyped r := by
  have hbody : ∀ d : FunctionDecl, .function d ∈ p.decls →
      (checkBlock r d.result.ty d.body = [] ↔ BlockWellTyped r d.result.ty d.body) := by
    intro d hd
    refine blockWellTyped_iff hr (typeName_ty_ne_function d.result) d.body ?_
    exact fun e he => hfound e (List.mem_flatMap.2 ⟨.function d, hd, he⟩)
  rw [checkProgram, List.flatMap_eq_nil_iff, Program.WellTyped]
  constructor
  · intro h d hd
    exact (hbody d hd).1 (h _ hd)
  · intro h d hd
    cases d with
    | function d => exact (hbody d hd).2 (h d hd)
    | var _ | tuple _ => rfl

/-- A parsed program whose names are all right passes the checker exactly if every
function body is well typed. -/
theorem checkProgram_eq_nil_iff_wellTyped {tokens : List Token} {p : Program} {r : Resolution}
    (hp : parse tokens = .ok p) (hnames : resolveNames p = .ok (r, [])) :
    checkProgram r p = [] ↔ p.WellTyped r := by
  rw [resolveNames_eq, Except.ok.injEq, Prod.mk.injEq] at hnames
  obtain ⟨rfl, hclean⟩ := hnames
  refine checkProgram_eq_nil_iff (resolved_sound p).resolution ?_
  exact fun e he l hl => locType_ne_error (Grammar.parse_nodup hp) hclean he hl

/-- A function that calls itself. -/
def selfTokens : List Token :=
  [(.logicalWord, "logical"), (.identifier, "f"),
    (.openCurly, "\x7b"), (.logicalWord, "logical"), (.identifier, "b"), (.closeCurly, "\x7d"),
    (.openBracket, "["), (.returnWord, "return"), (.tilde, "~"), (.identifier, "f"),
    (.openParen, "("), (.identifier, "b"), (.closeParen, ")"), (.dot, "."), (.closeBracket, "]")].map
    fun (kind, text) => ⟨kind, text, ⟨.nowhere, .nowhere⟩⟩

def selfProgram : Program :=
  ⟨[.function ⟨.logical, ⟨0, "f", .nowhere⟩, [⟨.logical, ⟨1, "b", .nowhere⟩⟩],
    .mk [] [.ret (some (.unary .not (.call ⟨2, "f", .nowhere⟩ [.loc (.ident ⟨3, "b", .nowhere⟩)])))
      .nowhere]⟩]⟩

theorem checkProgram_eq_nil_iff_wellTyped_self :
    parse selfTokens = .ok selfProgram ∧
      ∃ r, resolveNames selfProgram = .ok (r, []) ∧ checkProgram r selfProgram = [] ∧
        selfProgram.WellTyped r := by
  have hp : parse selfTokens = .ok selfProgram := rfl
  have hclean : selfProgram.resolved.diagnostics = [] := by decide +kernel
  have hnames : resolveNames selfProgram = .ok (selfProgram.resolved.resolution, []) := by
    rw [resolveNames_eq, hclean]
  have hcheck : checkProgram selfProgram.resolved.resolution selfProgram = [] := by decide +kernel
  exact ⟨hp, _, hnames, hcheck, (checkProgram_eq_nil_iff_wellTyped hp hnames).1 hcheck⟩

end BaseLang.Typing
