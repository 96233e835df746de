import BaseLang.Symbol.Resolution

/-
  When a program is well typed, as a system of rules.

  The rules speak of the symbols of names and of nothing else that was found out about
  a program; no checker and no fault is in them.

    1. `HasType` — an expression has a type;
    2. `WellTyped` — a statement may stand in a function with a type of result;
    3. `Program.WellTyped` — every function body is well typed.
-/

namespace BaseLang

section
variable (r : Resolution)

mutual

/-- The expression has the type. -/
inductive HasType : Expr → Ty → Prop
  | logical {v p} : HasType (.logical v p) .logical
  | int {v p} : HasType (.int v p) .integer
  | string {t p} : HasType (.string t p) .string
  /-- A name has the type of its symbol. -/
  | name {x s} (hs : r.symbolOf x = some s) : HasType (.loc (.ident x)) s.ty
  /-- So has a field. -/
  | field {id l f s} (hs : r.symbolOf f = some s) : HasType (.loc (.access id l f)) s.ty
  | negate {v} (h : HasType v .integer) : HasType (.unary .negate v) .integer
  | not {v} (h : HasType v .logical) : HasType (.unary .not v) .logical
  | arithmetic {op v w} (hop : op ∈ [BinaryOp.plus, .minus, .times, .divide])
      (hv : HasType v .integer) (hw : HasType w .integer) : HasType (.binary op v w) .integer
  | comparison {op v w} (hop : op ∈ [BinaryOp.less, .lessEq, .greater, .greaterEq])
      (hv : HasType v .integer) (hw : HasType w .integer) : HasType (.binary op v w) .logical
  | connective {op v w} (hop : op ∈ [BinaryOp.and, .or])
      (hv : HasType v .logical) (hw : HasType w .logical) : HasType (.binary op v w) .logical
  | equality {op v w type} (hop : op ∈ [BinaryOp.equals, .notEquals])
      (htype : type ∈ [Ty.integer, .logical, .string]) (hv : HasType v type) (hw : HasType w type) :
      HasType (.binary op v w) .logical
  | assign {l v type} (htype : type ∈ [Ty.integer, .logical]) (hl : HasType (.loc l) type)
      (hv : HasType v type) : HasType (.assign l v) type
  | call {f args s result params} (hs : r.symbolOf f = some s) (hk : s.kind = .function result params)
      (hargs : HasTypes args params) : HasType (.call f args) result

inductive HasTypes : List Expr → List Ty → Prop
  | nil : HasTypes [] []
  | cons {e type es types} (he : HasType e type) (hes : HasTypes es types) :
      HasTypes (e :: es) (type :: types)

end

mutual

/-- The statement is well typed in a function with this type of result. -/
inductive WellTyped (result : Ty) : Stmt → Prop
  | assign {l v type} (h : HasType r (.assign l v) type) : WellTyped result (.assign l v)
  | call {f args type} (h : HasType r (.call f args) type) : WellTyped result (.call f args)
  | increment {l} (h : HasType r (.loc l) .integer) : WellTyped result (.increment l)
  | decrement {l} (h : HasType r (.loc l) .integer) : WellTyped result (.decrement l)
  | ifThen {c b} (hc : HasType r c .logical) (hb : BlockWellTyped result b) :
      WellTyped result (.ifThen c b)
  | ifElse {c b b'} (hc : HasType r c .logical) (hb : BlockWellTyped result b)
      (hb' : BlockWellTyped result b') : WellTyped result (.ifElse c b b')
  | whileDo {c b} (hc : HasType r c .logical) (hb : BlockWellTyped result b) :
      WellTyped result (.whileDo c b)
  | read {l type} (htype : type ∈ [Ty.integer, .logical]) (h : HasType r (.loc l) type) :
      WellTyped result (.read l)
  | write {v type} (htype : type ∈ [Ty.integer, .logical, .string]) (h : HasType r v type) :
      WellTyped result (.write v)
  | leave {p} (hresult : result = .void) : WellTyped result (.ret none p)
  | giveBack {v p} (hresult : result ≠ .void) (h : HasType r v result) :
      WellTyped result (.ret (some v) p)

/-- The block is well typed: all of its statements are. -/
inductive BlockWellTyped (result : Ty) : Block → Prop
  | mk {ds ss} (h : AllWellTyped result ss) : BlockWellTyped result (.mk ds ss)

inductive AllWellTyped (result : Ty) : List Stmt → Prop
  | nil : AllWellTyped result []
  | cons {s ss} (h : WellTyped result s) (hs : AllWellTyped result ss) : AllWellTyped result (s :: ss)

end

end

/-- Every function body is well typed, for the result that the function declares. -/
def Program.WellTyped (r : Resolution) (p : Program) : Prop :=
  ∀ d, .function d ∈ p.decls → BlockWellTyped r d.result.ty d.body

end BaseLang
