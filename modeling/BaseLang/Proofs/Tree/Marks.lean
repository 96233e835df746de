import BaseLang.Proofs.Tree.Relabelling
import BaseLang.Token

/-
  The places of a tree.

  A tree keeps the positions of some of the tokens that it was read from: of all
  identifiers and literals, and of the words that begin a return. They are its marks.

    1. `Program.marks` — the marks of a program, in source order;
    2. `Program.marks_moving` — moving a program moves its marks;
    3. `Program.eq_moving` — a program that is like another up to positions is that program
       moved, by any map that takes the marks of the one to the marks of the other.
-/

namespace BaseLang

/-- A token whose position a tree keeps: its kind and its position. -/
abbrev Mark := TokenKind × Position

def Mark.move (f : Position → Position) (m : Mark) : Mark := (m.1, f m.2)

/-- Other positions in the place of those of a tree. -/
def Relabelling.moving (f : Position → Position) : Relabelling where
  ident x := ⟨x.id, x.name, f x.position⟩
  access id := id
  position := f

theorem unplacing_eq_moving : Relabelling.unplacing = .moving fun _ => .nowhere := rfl

/-! ## The marks of a tree -/

def Ident.mark (x : Ident) : Mark := (.identifier, x.position)

def Loc.marks : Loc → List Mark
  | .ident x => [x.mark]
  | .access _ base f => base.marks ++ [f.mark]

def TypeName.marks (t : TypeName) : List Mark := t.idents.map Ident.mark

def VarDecl.marks (d : VarDecl) : List Mark := d.type.marks ++ [d.name.mark]

mutual

def Expr.marks : Expr → List Mark
  | .logical true p => [(.trueWord, p)]
  | .logical false p => [(.falseWord, p)]
  | .int _ p => [(.intLiteral, p)]
  | .string _ p => [(.stringLiteral, p)]
  | .loc l => l.marks
  | .assign l v => l.marks ++ v.marks
  | .call f args => f.mark :: Expr.marksOfAll args
  | .unary _ v => v.marks
  | .binary _ v w => v.marks ++ w.marks

def Expr.marksOfAll : List Expr → List Mark
  | [] => []
  | e :: es => e.marks ++ Expr.marksOfAll es

end

mutual

def Stmt.marks : Stmt → List Mark
  | .assign l v => l.marks ++ v.marks
  | .increment l | .decrement l | .read l => l.marks
  | .ifThen c b | .whileDo c b => c.marks ++ b.marks
  | .ifElse c b b' => c.marks ++ (b.marks ++ b'.marks)
  | .write v => v.marks
  | .call f args => f.mark :: Expr.marksOfAll args
  | .ret none p => [(.returnWord, p)]
  | .ret (some v) p => (.returnWord, p) :: v.marks

def Block.marks : Block → List Mark
  | .mk ds ss => ds.flatMap VarDecl.marks ++ Stmt.marksOfAll ss

def Stmt.marksOfAll : List Stmt → List Mark
  | [] => []
  | s :: ss => s.marks ++ Stmt.marksOfAll ss

end

def Decl.marks : Decl → List Mark
  | .var d => d.marks
  | .function d => d.result.marks ++ (d.name.mark :: (d.formals.flatMap VarDecl.marks ++ d.body.marks))
  | .tuple d => d.name.mark :: d.fields.flatMap VarDecl.marks

def Program.marks (p : Program) : List Mark := p.decls.flatMap Decl.marks

/-! ## Moving a tree moves its marks -/

section Moving
variable (f : Position → Position)

theorem Loc.marks_moving : ∀ l : Loc, (l.relabel (.moving f)).marks = l.marks.map (Mark.move f)
  | .ident _ => rfl
  | .access _ base _ => by
    rw [Loc.relabel, Loc.marks, Loc.marks, List.map_append, marks_moving base]
    rfl

theorem VarDecl.marks_moving (d : VarDecl) : (d.relabel (.moving f)).marks = d.marks.map (Mark.move f) := by
  obtain ⟨t, x⟩ := d
  cases t <;> rfl

theorem marks_moving_varDecls (ds : List VarDecl) :
    (ds.map (VarDecl.relabel (.moving f))).flatMap VarDecl.marks =
      (ds.flatMap VarDecl.marks).map (Mark.move f) := by
  rw [List.flatMap_map, List.map_flatMap]
  exact congrArg (List.flatMap · ds) (funext (VarDecl.marks_moving f))

mutual

theorem Expr.marks_moving : ∀ e : Expr, (e.relabel (.moving f)).marks = e.marks.map (Mark.move f)
  | .logical true _ | .logical false _ | .int _ _ | .string _ _ => rfl
  | .loc l => l.marks_moving f
  | .assign l v => by
    rw [Expr.relabel, Expr.marks, Expr.marks, List.map_append, l.marks_moving, marks_moving v]
  | .call _ args => by
    rw [Expr.relabel, Expr.marks, Expr.marks, List.map_cons, marksOfAll_moving args]
    rfl
  | .unary _ v => marks_moving v
  | .binary _ v w => by
    rw [Expr.relabel, Expr.marks, Expr.marks, List.map_append, marks_moving v, marks_moving w]

theorem Expr.marksOfAll_moving : ∀ es : List Expr,
    Expr.marksOfAll (Expr.relabelAll (.moving f) es) = (Expr.marksOfAll es).map (Mark.move f)
  | [] => rfl
  | e :: es => by
    rw [Expr.relabelAll, Expr.marksOfAll, Expr.marksOfAll, List.map_append, marks_moving e,
      marksOfAll_moving es]

end

mutual

theorem Stmt.marks_moving : ∀ s : Stmt, (s.relabel (.moving f)).marks = s.marks.map (Mark.move f)
  | .assign l v => by
    rw [Stmt.relabel, Stmt.marks, Stmt.marks, List.map_append, l.marks_moving, v.marks_moving]
  | .increment l | .decrement l | .read l => l.marks_moving f
  | .ifThen c b | .whileDo c b => by
    rw [Stmt.relabel, Stmt.marks, Stmt.marks, List.map_append, c.marks_moving, Block.marks_moving b]
  | .ifElse c b b' => by
    rw [Stmt.relabel, Stmt.marks, Stmt.marks, List.map_append, List.map_append, c.marks_moving,
      Block.marks_moving b, Block.marks_moving b']
  | .write v => v.marks_moving f
  | .call g args => (Expr.call g args).marks_moving f
  | .ret none _ => rfl
  | .ret (some v) _ => congrArg (List.cons _) (v.marks_moving f)

theorem Block.marks_moving : ∀ b : Block, (b.relabel (.moving f)).marks = b.marks.map (Mark.move f)
  | .mk ds ss => by
    rw [Block.relabel, Block.marks, Block.marks, List.map_append, marks_moving_varDecls,
      Stmt.marksOfAll_moving ss]

theorem Stmt.marksOfAll_moving : ∀ ss : List Stmt,
    Stmt.marksOfAll (Stmt.relabelAll (.moving f) ss) = (Stmt.marksOfAll ss).map (Mark.move f)
  | [] => rfl
  | s :: ss => by
    rw [Stmt.relabelAll, Stmt.marksOfAll, Stmt.marksOfAll, List.map_append, Stmt.marks_moving s,
      Stmt.marksOfAll_moving ss]

end

theorem Decl.marks_moving (d : Decl) : (d.relabel (.moving f)).marks = d.marks.map (Mark.move f) := by
  cases d with
  | var d => exact d.marks_moving f
  | function d =>
    have hresult : (d.result.relabel (.moving f)).marks = d.result.marks.map (Mark.move f) := by
      cases d.result <;> rfl
    simp only [Decl.relabel, FunctionDecl.relabel, Decl.marks, List.map_append, List.map_cons, hresult,
      marks_moving_varDecls, Block.marks_moving]
    rfl
  | tuple d =>
    simp only [Decl.relabel, TupleDecl.relabel, Decl.marks, List.map_cons, marks_moving_varDecls]
    rfl

/-- Moving a program moves its marks. -/
theorem Program.marks_moving (p : Program) : (p.relabel (.moving f)).marks = p.marks.map (Mark.move f) := by
  rw [Program.marks, Program.relabel, List.flatMap_map, Program.marks, List.map_flatMap]
  exact congrArg (List.flatMap · p.decls) (funext (Decl.marks_moving f))

end Moving

/-! ## Trees that are alike up to positions

Each lemma takes the marks of two trees together with whatever follows them, so that
nothing has to be known about the number of marks. -/

section Alike
variable {f : Position → Position} {xs ys : List Mark}

/-- The first tree moved is the second, and what follows the marks is mapped as well. -/
def Alike (f : Position → Position) (xs ys : List Mark) : Prop := xs.map (Mark.move f) = ys

theorem Ident.eq_moving {x y : Ident} (h : Relabelling.unplacing.ident x = Relabelling.unplacing.ident y)
    (hm : Alike f (x.mark :: xs) (y.mark :: ys)) :
    (Relabelling.moving f).ident x = y ∧ Alike f xs ys := by
  obtain ⟨i, n, p⟩ := x
  obtain ⟨j, m, q⟩ := y
  simp only [Relabelling.unplacing, Ident.mk.injEq] at h
  simp only [Alike, List.map_cons, List.cons.injEq, Mark.move, Ident.mark, Prod.mk.injEq] at hm
  obtain ⟨rfl, rfl, -⟩ := h
  obtain ⟨⟨-, rfl⟩, hrest⟩ := hm
  exact ⟨rfl, hrest⟩

theorem Loc.eq_moving : ∀ {l l' : Loc} {xs ys : List Mark}, l.relabel .unplacing = l'.relabel .unplacing →
    Alike f (l.marks ++ xs) (l'.marks ++ ys) → l.relabel (.moving f) = l' ∧ Alike f xs ys
  | .ident x, .ident y, _, _, h, hm => by
    simp only [Loc.relabel, Loc.ident.injEq] at h
    obtain ⟨hx, hrest⟩ := Ident.eq_moving h hm
    exact ⟨congrArg Loc.ident hx, hrest⟩
  | .access i base x, .access j base' y, _, _, h, hm => by
    simp only [Loc.relabel, Loc.access.injEq] at h
    obtain ⟨hid, hbase, hx⟩ := h
    simp only [Loc.marks, List.append_assoc, List.singleton_append] at hm
    obtain ⟨hbase, hm⟩ := eq_moving hbase hm
    obtain ⟨hx, hrest⟩ := Ident.eq_moving hx hm
    refine ⟨?_, hrest⟩
    rw [Loc.relabel, hbase, hx]
    exact congrArg (Loc.access · base' y) hid
  | .ident _, .access _ _ _, _, _, h, _ => nomatch h
  | .access _ _ _, .ident _, _, _, h, _ => nomatch h

theorem TypeName.eq_moving {t t' : TypeName} (h : t.relabel .unplacing = t'.relabel .unplacing)
    (hm : Alike f (t.marks ++ xs) (t'.marks ++ ys)) : t.relabel (.moving f) = t' ∧ Alike f xs ys := by
  cases t <;> cases t' <;> try cases h
  · exact ⟨rfl, hm⟩
  · exact ⟨rfl, hm⟩
  · exact ⟨rfl, hm⟩
  · next x y =>
    simp only [TypeName.relabel, TypeName.tuple.injEq] at h
    obtain ⟨hx, hrest⟩ := Ident.eq_moving h hm
    exact ⟨congrArg TypeName.tuple hx, hrest⟩

theorem VarDecl.eq_moving {d d' : VarDecl} (h : d.relabel .unplacing = d'.relabel .unplacing)
    (hm : Alike f (d.marks ++ xs) (d'.marks ++ ys)) : d.relabel (.moving f) = d' ∧ Alike f xs ys := by
  simp only [VarDecl.relabel, VarDecl.mk.injEq] at h
  simp only [VarDecl.marks, List.append_assoc, List.singleton_append] at hm
  obtain ⟨ht, hm⟩ := TypeName.eq_moving h.1 hm
  obtain ⟨hx, hrest⟩ := Ident.eq_moving h.2 hm
  refine ⟨?_, hrest⟩
  rw [VarDecl.relabel, ht, hx]

theorem eq_moving_varDecls : ∀ {ds ds' : List VarDecl} {xs ys : List Mark},
    ds.map (VarDecl.relabel .unplacing) = ds'.map (VarDecl.relabel .unplacing) →
    Alike f (ds.flatMap VarDecl.marks ++ xs) (ds'.flatMap VarDecl.marks ++ ys) →
    ds.map (VarDecl.relabel (.moving f)) = ds' ∧ Alike f xs ys
  | [], [], _, _, _, hm => ⟨rfl, hm⟩
  | d :: ds, d' :: ds', _, _, h, hm => by
    simp only [List.map_cons, List.cons.injEq] at h
    simp only [List.flatMap_cons, List.append_assoc] at hm
    obtain ⟨hd, hm⟩ := VarDecl.eq_moving h.1 hm
    obtain ⟨hds, hrest⟩ := eq_moving_varDecls h.2 hm
    refine ⟨?_, hrest⟩
    rw [List.map_cons, hd, hds]
  | [], _ :: _, _, _, h, _ => nomatch h
  | _ :: _, [], _, _, h, _ => nomatch h

mutual

theorem Expr.eq_moving : ∀ {e e' : Expr} {xs ys : List Mark},
    e.relabel .unplacing = e'.relabel .unplacing → Alike f (e.marks ++ xs) (e'.marks ++ ys) →
    e.relabel (.moving f) = e' ∧ Alike f xs ys
  | .logical v p, e', _, _, h, hm => by
    cases e' <;> simp only [Expr.relabel, Expr.logical.injEq, reduceCtorEq] at h
    obtain ⟨rfl, -⟩ := h
    cases v <;>
      simp only [Expr.marks, Alike, List.singleton_append, List.map_cons, List.cons.injEq, Mark.move,
        Prod.mk.injEq, true_and] at hm <;>
      exact ⟨congrArg (Expr.logical _) hm.1, hm.2⟩
  | .int v p, e', _, _, h, hm => by
    cases e' <;> simp only [Expr.relabel, Expr.int.injEq, reduceCtorEq] at h
    obtain ⟨rfl, -⟩ := h
    simp only [Expr.marks, Alike, List.singleton_append, List.map_cons, List.cons.injEq, Mark.move,
      Prod.mk.injEq, true_and] at hm
    exact ⟨congrArg (Expr.int v) hm.1, hm.2⟩
  | .string t p, e', _, _, h, hm => by
    cases e' <;> simp only [Expr.relabel, Expr.string.injEq, reduceCtorEq] at h
    obtain ⟨rfl, -⟩ := h
    simp only [Expr.marks, Alike, List.singleton_append, List.map_cons, List.cons.injEq, Mark.move,
      Prod.mk.injEq, true_and] at hm
    exact ⟨congrArg (Expr.string t) hm.1, hm.2⟩
  | .loc l, e', _, _, h, hm => by
    cases e' <;> simp only [Expr.relabel, Expr.loc.injEq, reduceCtorEq] at h
    obtain ⟨hl, hrest⟩ := Loc.eq_moving h hm
    exact ⟨congrArg Expr.loc hl, hrest⟩
  | .assign l v, e', _, _, h, hm => by
    cases e' <;> simp only [Expr.relabel, Expr.assign.injEq, reduceCtorEq] at h
    simp only [Expr.marks, List.append_assoc] at hm
    obtain ⟨hl, hm⟩ := Loc.eq_moving h.1 hm
    obtain ⟨hv, hrest⟩ := eq_moving h.2 hm
    refine ⟨?_, hrest⟩
    rw [Expr.relabel, hl, hv]
  | .call g args, e', _, _, h, hm => by
    cases e' <;> simp only [Expr.relabel, Expr.call.injEq, reduceCtorEq] at h
    simp only [Expr.marks, List.cons_append] at hm
    obtain ⟨hg, hm⟩ := Ident.eq_moving h.1 hm
    obtain ⟨hargs, hrest⟩ := eq_movingAll h.2 hm
    refine ⟨?_, hrest⟩
    rw [Expr.relabel, hg, hargs]
  | .unary op v, e', _, _, h, hm => by
    cases e' <;> simp only [Expr.relabel, Expr.unary.injEq, reduceCtorEq] at h
    obtain ⟨rfl, hv⟩ := h
    obtain ⟨hv, hrest⟩ := eq_moving hv hm
    exact ⟨congrArg (Expr.unary op) hv, hrest⟩
  | .binary op v w, e', _, _, h, hm => by
    cases e' <;> simp only [Expr.relabel, Expr.binary.injEq, reduceCtorEq] at h
    obtain ⟨rfl, hv, hw⟩ := h
    simp only [Expr.marks, List.append_assoc] at hm
    obtain ⟨hv, hm⟩ := eq_moving hv hm
    obtain ⟨hw, hrest⟩ := eq_moving hw hm
    refine ⟨?_, hrest⟩
    rw [Expr.relabel, hv, hw]

theorem Expr.eq_movingAll : ∀ {es es' : List Expr} {xs ys : List Mark},
    Expr.relabelAll .unplacing es = Expr.relabelAll .unplacing es' →
    Alike f (Expr.marksOfAll es ++ xs) (Expr.marksOfAll es' ++ ys) →
    Expr.relabelAll (.moving f) es = es' ∧ Alike f xs ys
  | [], es', _, _, h, hm => by
    cases es' <;> simp only [Expr.relabelAll, reduceCtorEq] at h
    exact ⟨rfl, hm⟩
  | e :: es, es', _, _, h, hm => by
    cases es' <;> simp only [Expr.relabelAll, List.cons.injEq, reduceCtorEq] at h
    simp only [Expr.marksOfAll, List.append_assoc] at hm
    obtain ⟨he, hm⟩ := eq_moving h.1 hm
    obtain ⟨hes, hrest⟩ := eq_movingAll h.2 hm
    refine ⟨?_, hrest⟩
    rw [Expr.relabelAll, he, hes]

end

mutual

theorem Stmt.eq_moving : ∀ {s s' : Stmt} {xs ys : List Mark},
    s.relabel .unplacing = s'.relabel .unplacing → Alike f (s.marks ++ xs) (s'.marks ++ ys) →
    s.relabel (.moving f) = s' ∧ Alike f xs ys
  | .assign l v, s', _, _, h, hm => by
    cases s' <;> simp only [Stmt.relabel, Stmt.assign.injEq, reduceCtorEq] at h
    simp only [Stmt.marks, List.append_assoc] at hm
    obtain ⟨hl, hm⟩ := Loc.eq_moving h.1 hm
    obtain ⟨hv, hrest⟩ := Expr.eq_moving h.2 hm
    refine ⟨?_, hrest⟩
    rw [Stmt.relabel, hl, hv]
  | .increment l, s', _, _, h, hm => by
    cases s' <;> simp only [Stmt.relabel, Stmt.increment.injEq, reduceCtorEq] at h
    obtain ⟨hl, hrest⟩ := Loc.eq_moving h hm
    exact ⟨congrArg Stmt.increment hl, hrest⟩
  | .decrement l, s', _, _, h, hm => by
    cases s' <;> simp only [Stmt.relabel, Stmt.decrement.injEq, reduceCtorEq] at h
    obtain ⟨hl, hrest⟩ := Loc.eq_moving h hm
    exact ⟨congrArg Stmt.decrement hl, hrest⟩
  | .read l, s', _, _, h, hm => by
    cases s' <;> simp only [Stmt.relabel, Stmt.read.injEq, reduceCtorEq] at h
    obtain ⟨hl, hrest⟩ := Loc.eq_moving h hm
    exact ⟨congrArg Stmt.read hl, hrest⟩
  | .ifThen c b, s', _, _, h, hm => by
    cases s' <;> simp only [Stmt.relabel, Stmt.ifThen.injEq, reduceCtorEq] at h
    simp only [Stmt.marks, List.append_assoc] at hm
    obtain ⟨hc, hm⟩ := Expr.eq_moving h.1 hm
    obtain ⟨hb, hrest⟩ := Block.eq_moving h.2 hm
    refine ⟨?_, hrest⟩
    rw [Stmt.relabel, hc, hb]
  | .whileDo c b, s', _, _, h, hm => by
    cases s' <;> simp only [Stmt.relabel, Stmt.whileDo.injEq, reduceCtorEq] at h
    simp only [Stmt.marks, List.append_assoc] at hm
    obtain ⟨hc, hm⟩ := Expr.eq_moving h.1 hm
    obtain ⟨hb, hrest⟩ := Block.eq_moving h.2 hm
    refine ⟨?_, hrest⟩
    rw [Stmt.relabel, hc, hb]
  | .ifElse c b b₂, s', _, _, h, hm => by
    cases s' <;> simp only [Stmt.relabel, Stmt.ifElse.injEq, reduceCtorEq] at h
    simp only [Stmt.marks, List.append_assoc] at hm
    obtain ⟨hc, hm⟩ := Expr.eq_moving h.1 hm
    obtain ⟨hb, hm⟩ := Block.eq_moving h.2.1 hm
    obtain ⟨hb₂, hrest⟩ := Block.eq_moving h.2.2 hm
    refine ⟨?_, hrest⟩
    rw [Stmt.relabel, hc, hb, hb₂]
  | .write v, s', _, _, h, hm => by
    cases s' <;> simp only [Stmt.relabel, Stmt.write.injEq, reduceCtorEq] at h
    obtain ⟨hv, hrest⟩ := Expr.eq_moving h hm
    exact ⟨congrArg Stmt.write hv, hrest⟩
  | .call g args, s', _, _, h, hm => by
    cases s' <;> simp only [Stmt.relabel, Stmt.call.injEq, reduceCtorEq] at h
    simp only [Stmt.marks, List.cons_append] at hm
    obtain ⟨hg, hm⟩ := Ident.eq_moving h.1 hm
    obtain ⟨hargs, hrest⟩ := Expr.eq_movingAll h.2 hm
    refine ⟨?_, hrest⟩
    rw [Stmt.relabel, hg, hargs]
  | .ret none p, s', _, _, h, hm => by
    cases s' with
    | ret value q =>
      cases value with
      | some v => cases h
      | none =>
        simp only [Stmt.marks, Alike, List.singleton_append, List.map_cons, List.cons.injEq, Mark.move,
          Prod.mk.injEq, true_and] at hm
        exact ⟨congrArg (Stmt.ret none) hm.1, hm.2⟩
    | _ => cases h
  | .ret (some v) p, s', _, _, h, hm => by
    cases s' with
    | ret value q =>
      cases value with
      | none => cases h
      | some v' =>
        simp only [Stmt.relabel, Option.map_some, Stmt.ret.injEq, Option.some.injEq] at h
        simp only [Stmt.marks, List.cons_append, Alike, List.map_cons, List.cons.injEq, Mark.move,
          Prod.mk.injEq, true_and] at hm
        obtain ⟨hv, hrest⟩ := Expr.eq_moving h.1 hm.2
        refine ⟨?_, hrest⟩
        rw [Stmt.relabel, Option.map_some, hv]
        exact congrArg (Stmt.ret (some v')) hm.1
    | _ => cases h

theorem Block.eq_moving : ∀ {b b' : Block} {xs ys : List Mark},
    b.relabel .unplacing = b'.relabel .unplacing → Alike f (b.marks ++ xs) (b'.marks ++ ys) →
    b.relabel (.moving f) = b' ∧ Alike f xs ys
  | .mk ds ss, .mk ds' ss', _, _, h, hm => by
    simp only [Block.relabel, Block.mk.injEq] at h
    simp only [Block.marks, List.append_assoc] at hm
    obtain ⟨hds, hm⟩ := eq_moving_varDecls h.1 hm
    obtain ⟨hss, hrest⟩ := Stmt.eq_movingAll h.2 hm
    refine ⟨?_, hrest⟩
    rw [Block.relabel, hds, hss]

theorem Stmt.eq_movingAll : ∀ {ss ss' : List Stmt} {xs ys : List Mark},
    Stmt.relabelAll .unplacing ss = Stmt.relabelAll .unplacing ss' →
    Alike f (Stmt.marksOfAll ss ++ xs) (Stmt.marksOfAll ss' ++ ys) →
    Stmt.relabelAll (.moving f) ss = ss' ∧ Alike f xs ys
  | [], ss', _, _, h, hm => by
    cases ss' <;> simp only [Stmt.relabelAll, reduceCtorEq] at h
    exact ⟨rfl, hm⟩
  | s :: ss, ss', _, _, h, hm => by
    cases ss' <;> simp only [Stmt.relabelAll, List.cons.injEq, reduceCtorEq] at h
    simp only [Stmt.marksOfAll, List.append_assoc] at hm
    obtain ⟨hs, hm⟩ := Stmt.eq_moving h.1 hm
    obtain ⟨hss, hrest⟩ := Stmt.eq_movingAll h.2 hm
    refine ⟨?_, hrest⟩
    rw [Stmt.relabelAll, hs, hss]

end

theorem Decl.eq_moving {d d' : Decl} (h : d.relabel .unplacing = d'.relabel .unplacing)
    (hm : Alike f (d.marks ++ xs) (d'.marks ++ ys)) : d.relabel (.moving f) = d' ∧ Alike f xs ys := by
  cases d with
  | var d =>
    cases d' <;> simp only [Decl.relabel, Decl.var.injEq, reduceCtorEq] at h
    obtain ⟨hd, hrest⟩ := VarDecl.eq_moving h hm
    exact ⟨congrArg Decl.var hd, hrest⟩
  | function d =>
    cases d' <;> simp only [Decl.relabel, Decl.function.injEq, reduceCtorEq] at h
    simp only [FunctionDecl.relabel, FunctionDecl.mk.injEq] at h
    simp only [Decl.marks, List.append_assoc, List.cons_append] at hm
    obtain ⟨ht, hm⟩ := TypeName.eq_moving h.1 hm
    obtain ⟨hx, hm⟩ := Ident.eq_moving h.2.1 hm
    obtain ⟨hformals, hm⟩ := eq_moving_varDecls h.2.2.1 hm
    obtain ⟨hbody, hrest⟩ := Block.eq_moving h.2.2.2 hm
    refine ⟨?_, hrest⟩
    rw [Decl.relabel, FunctionDecl.relabel, ht, hx, hformals, hbody]
  | tuple d =>
    cases d' <;> simp only [Decl.relabel, Decl.tuple.injEq, reduceCtorEq] at h
    simp only [TupleDecl.relabel, TupleDecl.mk.injEq] at h
    simp only [Decl.marks, List.cons_append] at hm
    obtain ⟨hx, hm⟩ := Ident.eq_moving h.1 hm
    obtain ⟨hfields, hrest⟩ := eq_moving_varDecls h.2 hm
    refine ⟨?_, hrest⟩
    rw [Decl.relabel, TupleDecl.relabel, hx, hfields]

theorem Decl.eq_movingAll : ∀ {ds ds' : List Decl},
    ds.map (Decl.relabel .unplacing) = ds'.map (Decl.relabel .unplacing) →
    Alike f (ds.flatMap Decl.marks) (ds'.flatMap Decl.marks) → ds.map (Decl.relabel (.moving f)) = ds'
  | [], [], _, _ => rfl
  | d :: ds, d' :: ds', h, hm => by
    simp only [List.map_cons, List.cons.injEq] at h
    obtain ⟨hd, hm⟩ := Decl.eq_moving h.1 hm
    rw [List.map_cons, hd, eq_movingAll h.2 hm]
  | [], _ :: _, h, _ => nomatch h
  | _ :: _, [], h, _ => nomatch h

end Alike

/-- A program that is like another up to positions is that program moved, by any map that
takes the marks of the one to those of the other. -/
theorem Program.eq_moving {p q : Program} {f : Position → Position} (h : p.unplaced = q.unplaced)
    (hm : p.marks.map (Mark.move f) = q.marks) : p.relabel (.moving f) = q := by
  obtain ⟨ds⟩ := p
  obtain ⟨ds'⟩ := q
  exact congrArg Program.mk (Decl.eq_movingAll (congrArg Program.decls h) hm)

/-- The marks of programs that are alike up to positions are of the same kinds. -/
theorem Program.marks_kinds {p q : Program} (h : p.unplaced = q.unplaced) :
    p.marks.map Prod.fst = q.marks.map Prod.fst := by
  have hkinds : ∀ p : Program, p.unplaced.marks.map Prod.fst = p.marks.map Prod.fst := by
    intro p
    rw [Program.unplaced, unplacing_eq_moving, Program.marks_moving, List.map_map]
    rfl
  rw [← hkinds p, h, hkinds q]

end BaseLang
