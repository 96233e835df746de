import BaseLang.Proofs.Grammar.Derivation
import BaseLang.Proofs.Parsing.OperatorLoop
import BaseLang.Proofs.Parsing.StatementBounds

/-
  Everything read has a derivation.

  `Recognizes bound r G` says that whatever the reader `r` takes off the front of a
  stream of at most that many tokens has the form `G`. The bound is there for the
  induction over expressions and statements, whose parts are shorter.

    1. `expr_recognizes` — expressions, with `continued_recognizes` for the loop over
       the operators: what stands before an operator binds at least as strongly.
    2. `stmt_recognizes` — statements and their blocks.
    3. `program_recognizes` — whole programs.
-/

namespace BaseLang.Grammar
open Reader

variable {α : Type} {bound : Nat}

/-- Whatever the reader takes off a stream of at most that many tokens has the form. -/
def Recognizes (bound : Nat) (r : Reader α) (G : Form α) : Prop :=
  ∀ (ahead : List Token) (x : String) (sp : Span) (n : NodeId) (a : α) (u : TokenStream),
    ahead.length ≤ bound → r.run ⟨ahead, x, sp, n⟩ = .ok a u →
      ∃ used rest m, ahead = used ++ rest ∧ u = ⟨rest, x, sp, m⟩ ∧ G n used a m

theorem Recognizes.mono {r : Reader α} {G H : Form α} (h : Recognizes bound r G)
    (hGH : ∀ n ts a m, G n ts a m → H n ts a m) : Recognizes bound r H := by
  intro ahead x sp n a u hlen hrun
  obtain ⟨used, rest, m, hts, hu, hG⟩ := h ahead x sp n a u hlen hrun
  exact ⟨used, rest, m, hts, hu, hGH _ _ _ _ hG⟩

/-! ## Lists -/

section Lists
variable {item : Reader α} {G : Form α} {goesOn : TokenKind → Bool}

/-- Items that are recognised where they begin as `goesOn` demands are recognised
one after the other. -/
theorem many_recognizes (hc : Consumes item) : ∀ {bound : Nat},
    (∀ (ahead : List Token) (x : String) (sp : Span) (n : NodeId) (a : α) (u : TokenStream),
      ahead.length ≤ bound → goesOn (nextKind ahead) = true → item.run ⟨ahead, x, sp, n⟩ = .ok a u →
      ∃ used rest m, ahead = used ++ rest ∧ u = ⟨rest, x, sp, m⟩ ∧ G n used a m) →
    Recognizes bound (many goesOn item) (Repeated G) := by
  intro bound
  induction bound with
  | zero =>
    intro _ ahead x sp n as u hlen hrun
    rw [many_run hc] at hrun
    split at hrun
    · obtain ⟨first, t, hfirst, _⟩ := bind_eq_ok hrun
      have hlt : t.ahead.length < ahead.length := hc _ _ _ hfirst
      omega
    · cases hrun
      exact ⟨[], ahead, n, rfl, rfl, .nil⟩
  | succ bound ih =>
    intro h ahead x sp n as u hlen hrun
    rw [many_run hc, current_kind] at hrun
    split at hrun
    · next hgo =>
      obtain ⟨first, t, hfirst, hrun⟩ := bind_eq_ok hrun
      obtain ⟨others, v, hothers, hrun⟩ := bind_eq_ok hrun
      cases hrun
      -- an item takes a token, so that what is left falls under the smaller bound
      have hlt : t.ahead.length < ahead.length := hc _ _ _ hfirst
      obtain ⟨used, rest, k, rfl, rfl, hG⟩ := h _ _ _ _ _ _ hlen hgo hfirst
      obtain ⟨used', rest', m, rfl, rfl, hGs⟩ :=
        ih (fun ahead x sp n a u hle => h ahead x sp n a u (Nat.le_succ_of_le hle)) rest x sp k others u
          (by simp only [List.length_append] at hlen hlt ⊢; omega) hothers
      exact ⟨used ++ used', rest', m, by rw [List.append_assoc], rfl, .cons hG hGs⟩
    · cases hrun
      exact ⟨[], ahead, n, rfl, rfl, .nil⟩

/-- Items are taken up to a token with which, as `goesOn` has it, none begins. -/
theorem many_stops (hc : Consumes item) : ∀ {len : Nat} {s u : TokenStream} {as : List α},
    s.ahead.length ≤ len → (many goesOn item).run s = .ok as u → goesOn u.current.kind = false := by
  intro len
  induction len with
  | zero =>
    intro s u as hlen hrun
    rw [many_run hc] at hrun
    split at hrun
    · obtain ⟨first, t, hfirst, _⟩ := bind_eq_ok hrun
      have hlt : t.ahead.length < s.ahead.length := hc _ _ _ hfirst
      omega
    · next hstop =>
      cases hrun
      exact Bool.eq_false_iff.2 hstop
  | succ len ih =>
    intro s u as hlen hrun
    rw [many_run hc] at hrun
    split at hrun
    · obtain ⟨first, t, hfirst, hrun⟩ := bind_eq_ok hrun
      obtain ⟨others, v, hothers, hrun⟩ := bind_eq_ok hrun
      cases hrun
      have hlt : t.ahead.length < s.ahead.length := hc _ _ _ hfirst
      exact ih (by omega) hothers
    · next hstop =>
      cases hrun
      exact Bool.eq_false_iff.2 hstop

def AfterComma (G : Form α) : Form α := fun n ts a m =>
  ∃ c us, ts = c :: us ∧ c.kind = .comma ∧ G n us a m

theorem Commas.ofRepeated {n k m : NodeId} {ts us : List Token} {a : α} {as : List α}
    (h : G n ts a k) (hs : Repeated (AfterComma G) k us as m) : Commas G n (ts ++ us) (a :: as) m := by
  induction hs generalizing n ts a with
  | nil => rw [List.append_nil]; exact .one h
  | cons hfirst _ ih =>
    obtain ⟨c, vs, rfl, hc, hG⟩ := hfirst
    exact .more h hc (ih hG)

theorem many_comma_recognizes (hc : Consumes item) (h : Recognizes bound item G) :
    Recognizes bound (many (· == .comma) (do let _ ← advance; item)) (Repeated (AfterComma G)) := by
  refine many_recognizes (.afterComma hc) fun ahead x sp n a u hlen hgo hrun => ?_
  cases ahead with
  | nil => cases hgo
  | cons c rest =>
    rw [run_bind_ok (run_advance _ _)] at hrun
    obtain ⟨used, rest', m, rfl, rfl, hG⟩ := h rest x sp n a u (Nat.le_of_succ_le hlen) hrun
    exact ⟨c :: used, rest', m, rfl, rfl, c, used, rfl, eq_of_beq hgo, hG⟩

theorem commaList_recognizes (hc : Consumes item) (h : Recognizes bound item G) :
    Recognizes bound (commaList item) (Commas G) := by
  intro ahead x sp n as u hlen hrun
  obtain ⟨first, t, hfirst, hrun⟩ := bind_eq_ok hrun
  obtain ⟨others, v, hothers, hrun⟩ := bind_eq_ok hrun
  cases hrun
  obtain ⟨used, rest, k, rfl, rfl, hG⟩ := h _ _ _ _ _ _ hlen hfirst
  obtain ⟨used', rest', m, rfl, rfl, hGs⟩ := many_comma_recognizes hc h rest x sp k others u
    (by simp only [List.length_append] at hlen; omega) hothers
  exact ⟨used ++ used', rest', m, by rw [List.append_assoc], rfl, .ofRepeated hG hGs⟩

/-- A list with commas, or nothing where a token of that kind follows at once. -/
theorem separated_recognizes {β : Type} {close : TokenKind} {f : List α → Reader β}
    (hc : Consumes item) (h : Recognizes bound item G) {ahead : List Token} {x : String} {sp : Span}
    {n : NodeId} {b : β} {u : TokenStream} (hlen : ahead.length ≤ bound)
    (hrun : (do if (← kind) = close then f [] else commaList item >>= f : Reader β).run
      ⟨ahead, x, sp, n⟩ = .ok b u) :
    ∃ used rest m as, ahead = used ++ rest ∧ (f as).run ⟨rest, x, sp, m⟩ = .ok b u ∧
      Separated G n used as m := by
  rw [run_bind_ok (run_kind _)] at hrun
  split at hrun
  · exact ⟨[], ahead, n, [], rfl, hrun, .none⟩
  · obtain ⟨as, v, has, hrun⟩ := bind_eq_ok hrun
    obtain ⟨used, rest, m, rfl, rfl, h⟩ := commaList_recognizes hc h _ _ _ _ _ _ hlen has
    exact ⟨used, rest, m, as, rfl, hrun, .some h⟩

theorem bind_pure_recognizes {β : Type} {r : Reader α} {H : Form β} {f : α → β}
    (h : Recognizes bound r (fun n ts a m => H n ts (f a) m)) :
    Recognizes bound (r >>= fun a => pure (f a)) H := by
  intro ahead x sp n b u hlen hrun
  obtain ⟨a, v, ha, hrun⟩ := bind_eq_ok hrun
  cases hrun
  exact h _ _ _ _ _ _ hlen ha

end Lists

/-! ## Expressions -/

/-- An expression whose operators between operands bind more strongly than the given
power. An operator before an operand may follow another. -/
def Tighter (q : BindingPower) : Form Expr := fun n ts e m =>
  ∃ p : BindingPower, (p.level ≤ 7 → q.level < p.level) ∧ 2 ≤ p.level ∧ Phrase p n ts e m

theorem Tighter.assignment {q : BindingPower} {n : NodeId} {ts : List Token} {e : Expr} {m : NodeId}
    (h : Tighter q n ts e m) : Phrase .assignment n ts e m := by
  obtain ⟨p, _, hp, h⟩ := h
  exact .weaken hp h

/-- A location needs no operator outside parentheses. -/
theorem Phrase.of_place {p : BindingPower} {n : NodeId} {ts : List Token} {e : Expr} {m : NodeId} :
    Phrase p n ts e m → e.place?.isSome → Phrase .call n ts e m
  | .name ht, _ => .name ht
  | .group ho h hc, _ => .group ho h hc
  | .access h hc hf, _ => .access h hc hf
  | .weaken _ h, hp => h.of_place hp
  | .int _ _, hp | .string _, hp | .true _, hp | .false _, hp => nomatch hp
  | .call _ _ _ _, hp => nomatch hp
  | .unary _ _, hp => nomatch hp
  | .binary _ _ _ _ _, hp => nomatch hp
  | .assign _ _ _, hp => nomatch hp

theorem Tighter.operand {n : NodeId} {ts : List Token} {e : Expr} {m : NodeId}
    (h : Tighter .unary n ts e m) : Phrase .unary n ts e m := by
  obtain ⟨p, hp, _, h⟩ := h
  refine .weaken (Nat.lt_of_not_le fun h7 => ?_) h
  exact absurd (Nat.lt_of_lt_of_le (hp h7) h7) (by decide)

/-- An expression before a token of that kind: an operator that binds more strongly than
all of its own operators does not follow. -/
def Fits (p : BindingPower) (k : TokenKind) : Prop :=
  p.level ≤ 8 → (Rules.standard.powerOf k).level ≤ p.level

theorem Fits.call (k : TokenKind) : Fits .call k := fun h => absurd h (by decide)

theorem operator_eq_binary {k : TokenKind} (h : Rules.standard.operator k = some .binary) :
    ∃ op : BinaryOp, k = op.kind := by
  cases k <;> first | exact ⟨_, BinaryOp.ofKind?_eq_some_iff.1 rfl⟩ | cases h

theorem operator_eq_assign {k : TokenKind} (h : Rules.standard.operator k = some .assign) :
    k = .assignment := by
  cases k <;> first | rfl | cases h

theorem operator_eq_call {k : TokenKind} (h : Rules.standard.operator k = some .call) :
    k = .openParen := by
  cases k <;> first | rfl | cases h

theorem operator_eq_access {k : TokenKind} (h : Rules.standard.operator k = some .access) :
    k = .colon := by
  cases k <;> first | rfl | cases h

/-- An assignment binds the least of all operators. -/
theorem operator_power {k : TokenKind} {rule : OperatorRule}
    (h : Rules.standard.operator k = some rule) : 2 ≤ (Rules.standard.powerOf k).level := by
  cases k <;> first | decide | cases h

theorem start_eq_unary {k : TokenKind} (h : Rules.standard.start k = some .unary) :
    unaryOp? k = some (if k = .tilde then .not else .negate) := by
  cases k <;> first | rfl | cases h

theorem start_eq_group {k : TokenKind} (h : Rules.standard.start k = some .group) :
    k = .openParen := by
  cases k <;> first | rfl | cases h

theorem target_eq_ok {e : Expr} {place : Loc} {s u : TokenStream}
    (h : (target e).run s = .ok place u) : e = .loc place ∧ u = s := by
  unfold target at h
  split at h
  · next heq =>
    cases h
    exact ⟨Expr.place?_eq_some_iff.1 heq, rfl⟩
  · cases h

section Operators
variable (ih : ∀ q : BindingPower, q.level ≤ 8 → Recognizes bound (expr .standard q) (Tighter q))
  {ahead : List Token} {x : String} {sp : Span} {n k : NodeId} {t : Token} {u : TokenStream}
  {left longer : Expr} {p : BindingPower} {ts : List Token}
include ih

/-- A binary operator takes the expression before it as its left side, and groups to the left. -/
theorem binary_recognizes {op : BinaryOp} (hlen : ahead.length ≤ bound) (hleft : Phrase p n ts left k)
    (hk : t.kind = op.kind) (hfits : Fits p t.kind)
    (hrun : (afterOperator (expr .standard) left (Rules.standard.powerOf t.kind) .binary t).run
      ⟨ahead, x, sp, k⟩ = .ok longer u) :
    ∃ used rest m, ahead = used ++ rest ∧ u = ⟨rest, x, sp, m⟩ ∧
      Phrase (Rules.standard.powerOf t.kind) n (ts ++ t :: used) longer m ∧
      Fits (Rules.standard.powerOf t.kind) (nextKind rest) := by
  have hpow : 3 ≤ (Rules.standard.powerOf t.kind).level ∧
      (Rules.standard.powerOf t.kind).level ≤ 7 := by
    rw [hk]
    exact (binary_power op).2
  dsimp only [afterOperator] at hrun
  rw [hk, BinaryOp.ofKind?_eq_some_iff.2 rfl, ← hk] at hrun
  obtain ⟨right, v, hright, hrun⟩ := bind_eq_ok hrun
  cases hrun
  have hstop := expr_stops hright
  obtain ⟨used, rest, m, rfl, rfl, p₂, hp, _, hr⟩ := ih _ (by omega) _ _ _ _ _ _ hlen hright
  rw [current_kind] at hstop
  -- the right side is read with the power of the operator, and so binds more strongly
  have hlt : (Rules.standard.powerOf t.kind).level < p₂.level := by
    by_cases h7 : p₂.level ≤ 7
    · exact hp h7
    · omega
  -- the left side ends before the operator, and so binds at least as strongly
  have hl : Phrase (Rules.standard.powerOf t.kind) n ts left k := by
    refine .weaken ?_ hleft
    by_cases h8 : p.level ≤ 8
    · exact hfits h8
    · omega
  exact ⟨used, rest, m, rfl, rfl, .binary hl hk rfl hlt hr, fun _ => hstop⟩

/-- What an operator makes of the expression before it: the longer expression ends as its
operator demands. -/
theorem afterOperator_recognizes {rule : OperatorRule} (hlen : ahead.length ≤ bound)
    (hleft : Phrase p n ts left k) (ho : Rules.standard.operator t.kind = some rule)
    (hfits : Fits p t.kind)
    (hrun : (afterOperator (expr .standard) left (Rules.standard.powerOf t.kind) rule t).run
      ⟨ahead, x, sp, k⟩ = .ok longer u) :
    ∃ used rest m p', ahead = used ++ rest ∧ u = ⟨rest, x, sp, m⟩ ∧
      Phrase p' n (ts ++ t :: used) longer m ∧ Fits p' (nextKind rest) ∧
      (p' = Rules.standard.powerOf t.kind ∨ p' = .call) := by
  cases rule with
  | binary =>
    obtain ⟨op, hk⟩ := operator_eq_binary ho
    obtain ⟨used, rest, m, hahead, hu, h, hrest⟩ := binary_recognizes ih hlen hleft hk hfits hrun
    exact ⟨used, rest, m, _, hahead, hu, h, hrest, .inl rfl⟩
  | assign =>
    have hk := operator_eq_assign ho
    obtain ⟨place, v, hplace, hrun⟩ := bind_eq_ok hrun
    obtain ⟨value, w, hvalue, hrun⟩ := bind_eq_ok hrun
    cases hrun
    obtain ⟨rfl, rfl⟩ := target_eq_ok hplace
    have hstop := expr_stops hvalue
    obtain ⟨used, rest, m, rfl, rfl, hv⟩ := ih .comma (by decide) _ _ _ _ _ _ hlen hvalue
    rw [current_kind] at hstop
    refine ⟨used, rest, m, .assignment, rfl, rfl, .assign (hleft.of_place rfl) hk hv.assignment, ?_,
      .inl (by rw [hk]; rfl)⟩
    exact fun _ => Nat.le_succ_of_le hstop
  | call =>
    have hk := operator_eq_call ho
    dsimp only [afterOperator] at hrun
    split at hrun
    · next callee =>
      have hitem := (ih .default (by decide)).mono fun _ _ _ _ h => h.assignment
      obtain ⟨used, rest, m, args, rfl, hrun, hargs⟩ :=
        separated_recognizes (.expr .default) hitem hlen hrun
      obtain ⟨c, v, hclose, hrun⟩ := bind_eq_ok hrun
      cases hrun
      obtain ⟨rest, rfl, hc, rfl⟩ := expect_eq_ok (by decide) hclose
      refine ⟨used ++ [c], rest, m, .call, by simp, rfl, .call (hleft.of_place rfl) hk hargs hc, .call _,
        .inr rfl⟩
    · cases hrun
  | access =>
    have hk := operator_eq_access ho
    dsimp only [afterOperator] at hrun
    split at hrun
    · cases hrun
    · next base hbase =>
      rw [Expr.place?_eq_some_iff] at hbase
      subst hbase
      obtain ⟨id, v, hid, hrun⟩ := bind_eq_ok hrun
      cases hid
      obtain ⟨field, w, hfield, hrun⟩ := bind_eq_ok hrun
      cases hrun
      obtain ⟨f, rest, rfl, hf, rfl, rfl⟩ := ident_eq_ok hfield
      exact ⟨[f], rest, _, .call, rfl, rfl, .access (hleft.of_place rfl) hk hf, .call _, .inr rfl⟩

/-- The loop over the operators: what is read so far ends where the next operator binds
less strongly than its own. -/
theorem continued_recognizes {q : BindingPower} : ∀ {len : Nat}
    {ahead : List Token} {ts : List Token} {left : Expr} {k : NodeId} {p : BindingPower}
    {e : Expr} {u : TokenStream}, ahead.length ≤ len → len ≤ bound + 1 → Phrase p n ts left k →
      Fits p (nextKind ahead) → (p.level ≤ 7 → q.level < p.level) → 2 ≤ p.level →
      (continued q left).run ⟨ahead, x, sp, k⟩ = .ok e u →
      ∃ used rest m, ahead = used ++ rest ∧ u = ⟨rest, x, sp, m⟩ ∧ Tighter q n (ts ++ used) e m := by
  intro len
  induction len with
  | zero =>
    intro ahead ts left k p e u hlen _ hleft _ hqp hp hrun
    have hs := kind_of_length_le_zero (s := ⟨ahead, x, sp, k⟩) hlen
    rw [continued_run, hs, if_pos (standard_powerOf_endOfInput q)] at hrun
    cases hrun
    exact ⟨[], ahead, k, rfl, rfl, p, hqp, hp, by rwa [List.append_nil]⟩
  | succ len ihlen =>
    intro ahead ts left k p e u hlen hbound hleft hfits hqp hp hrun
    rw [continued_run, current_kind] at hrun
    split at hrun
    · cases hrun
      exact ⟨[], ahead, k, rfl, rfl, p, hqp, hp, by rwa [List.append_nil]⟩
    · next hpow =>
      cases ho : Rules.standard.operator (nextKind ahead) with
      | none => exact absurd (powerOf_of_operator_eq_none ho q) hpow
      | some rule =>
        cases ahead with
        | nil => cases ho
        | cons t ahead =>
          rw [ho] at hrun
          obtain ⟨longer, v, hlonger, hrun⟩ := bind_eq_ok hrun
          rw [continuation_eq, run_bind_ok (run_advance _ _)] at hlonger
          have hlen' : ahead.length ≤ len := Nat.le_of_succ_le_succ hlen
          obtain ⟨used, rest, m, p', rfl, rfl, hlonger, hfits', hp'⟩ :=
            afterOperator_recognizes ih (Nat.le_trans hlen' (Nat.le_of_succ_le_succ hbound)) hleft ho
              hfits hlonger
          -- the operator was taken because it binds more strongly than `q`
          have hlt : (p'.level ≤ 7 → q.level < p'.level) ∧ 2 ≤ p'.level := by
            have hq' : q.level < (Rules.standard.powerOf t.kind).level := Nat.lt_of_not_le hpow
            rcases hp' with rfl | rfl
            · exact ⟨fun _ => hq', operator_power ho⟩
            · exact ⟨fun h7 => absurd h7 (by decide), by decide⟩
          have hrest : rest.length ≤ len := by simp only [List.length_append] at hlen'; omega
          obtain ⟨used', rest', m', rfl, rfl, h⟩ := ihlen hrest (Nat.le_of_succ_le hbound) hlonger hfits'
            hlt.1 hlt.2 hrun
          exact ⟨t :: (used ++ used'), rest', m', by simp, rfl, by simpa using h⟩

end Operators

/-- What an expression begins with. -/
theorem start_recognizes (ih : ∀ q : BindingPower, q.level ≤ 8 →
      Recognizes bound (expr .standard q) (Tighter q)) {rule : StartRule} {t : Token}
    {ahead : List Token} {x : String} {sp : Span} {n : NodeId} {e : Expr} {u : TokenStream}
    (hlen : ahead.length ≤ bound) (ho : Rules.standard.start t.kind = some rule)
    (hrun : (afterStart (expr .standard) rule t).run ⟨ahead, x, sp, n⟩ = .ok e u) :
    ∃ used rest m p, ahead = used ++ rest ∧ u = ⟨rest, x, sp, m⟩ ∧ Phrase p n (t :: used) e m ∧
      Fits p (nextKind rest) ∧ 8 ≤ p.level := by
  cases rule with
  | primary =>
    dsimp only [afterStart] at hrun
    split at hrun
    · next hk =>
      split at hrun
      · next v hv =>
        cases hrun
        exact ⟨[], ahead, n, .call, rfl, rfl, .int hk hv, .call _, by decide⟩
      · cases hrun
    · next hk => cases hrun; exact ⟨[], ahead, n, .call, rfl, rfl, .string hk, .call _, by decide⟩
    · next hk => cases hrun; exact ⟨[], ahead, n, .call, rfl, rfl, .true hk, .call _, by decide⟩
    · next hk => cases hrun; exact ⟨[], ahead, n, .call, rfl, rfl, .false hk, .call _, by decide⟩
    · next hk => cases hrun; exact ⟨[], ahead, n + 1, .call, rfl, rfl, .name hk, .call _, by decide⟩
    · cases hrun
  | unary =>
    obtain ⟨value, v, hvalue, hrun⟩ := bind_eq_ok hrun
    cases hrun
    have hstop := expr_stops hvalue
    obtain ⟨used, rest, m, rfl, rfl, hv⟩ := ih .unary (by decide) _ _ _ _ _ _ hlen hvalue
    rw [current_kind] at hstop
    exact ⟨used, rest, m, .unary, rfl, rfl, .unary (start_eq_unary ho) hv.operand, fun _ => hstop,
      by decide⟩
  | group =>
    obtain ⟨value, v, hvalue, hrun⟩ := bind_eq_ok hrun
    obtain ⟨c, w, hclose, hrun⟩ := bind_eq_ok hrun
    cases hrun
    obtain ⟨used, rest, m, rfl, rfl, hv⟩ := ih .default (by decide) _ _ _ _ _ _ hlen hvalue
    obtain ⟨rest, rfl, hc, rfl⟩ := expect_eq_ok (by decide) hclose
    exact ⟨used ++ [c], rest, m, .call, by simp, rfl, .group (start_eq_group ho) hv.assignment hc,
      .call _, by decide⟩

/-- Every expression read has a derivation, with operators that bind more strongly than
what stands before it. -/
theorem expr_recognizes : ∀ (bound : Nat) (q : BindingPower), q.level ≤ 8 →
    Recognizes bound (expr .standard q) (Tighter q) := by
  intro bound
  induction bound with
  | zero =>
    intro q _ ahead x sp n e u hlen hrun
    have hs := kind_of_length_le_zero (s := ⟨ahead, x, sp, n⟩) hlen
    rw [expr_run, hs] at hrun
    cases hrun
  | succ bound ih =>
    intro q hq ahead x sp n e u hlen hrun
    rw [expr_run, current_kind] at hrun
    cases ho : Rules.standard.start (nextKind ahead) with
    | none => rw [ho] at hrun; cases hrun
    | some rule =>
      rw [ho] at hrun
      cases ahead with
      | nil => cases ho
      | cons t ahead =>
        obtain ⟨first, v, hfirst, hrun⟩ := bind_eq_ok hrun
        rw [start_eq, run_bind_ok (run_advance _ _)] at hfirst
        have hlen' : ahead.length ≤ bound := Nat.le_of_succ_le_succ hlen
        obtain ⟨used, rest, m, p, rfl, rfl, hfirst, hfits, hp⟩ := start_recognizes ih hlen' ho hfirst
        obtain ⟨used', rest', m', rfl, rfl, h⟩ := continued_recognizes ih (Nat.le_refl _)
          (by simp only [List.length_append] at hlen'; omega) hfirst hfits
          (fun h7 => absurd (Nat.le_trans hp h7) (by decide)) (Nat.le_trans (by decide) hp) hrun
        exact ⟨t :: (used ++ used'), rest', m', by simp, rfl, h⟩

/-- An expression that no operator continues. -/
theorem phrase_recognizes (bound : Nat) :
    Recognizes bound (expr .standard .default) (Phrase .assignment) :=
  (expr_recognizes bound .default (by decide)).mono fun _ _ _ _ h => h.assignment

/-! ## Types and declarations of names -/

theorem wordType_eq_ok {t : Token} {ahead : List Token} {x : String} {sp : Span} {n : NodeId}
    {type : TypeName} {u : TokenStream}
    (h : wordType.run ⟨t :: ahead, x, sp, n⟩ = .ok type u) :
    SimpleType t type ∧ u = ⟨ahead, x, sp, n⟩ := by
  rw [wordType, run_bind_ok (run_advance _ _)] at h
  split at h
  · next hk => cases h; exact ⟨.logical hk, rfl⟩
  · next hk => cases h; exact ⟨.integer hk, rfl⟩
  · next hk => cases h; exact ⟨.void hk, rfl⟩
  · cases h

theorem type_eq_word {k : TokenKind} (h : k.isSimpleType = true) :
    Rules.standard.type k = some .word := by
  cases k <;> first | rfl | cases h

theorem typeName_recognizes (bound : Nat) : Recognizes bound (typeName .standard) Typed := by
  intro ahead x sp n type u _ hrun
  rw [typeName, run_bind_ok (run_kind _)] at hrun
  cases ahead with
  | nil => cases hrun
  | cons t ahead =>
    split at hrun
    · next rule ho =>
      cases rule with
      | word =>
        obtain ⟨h, rfl⟩ := wordType_eq_ok hrun
        exact ⟨[t], ahead, n, rfl, rfl, .simple h⟩
      | tuple =>
        obtain ⟨w, v, hword, hrun⟩ := bind_eq_ok hrun
        obtain ⟨rest, heq, hw, rfl⟩ := expect_eq_ok (by decide) hword
        cases heq
        obtain ⟨name, v, hname, hrun⟩ := bind_eq_ok hrun
        cases hrun
        obtain ⟨y, rest, rfl, hy, rfl, rfl⟩ := ident_eq_ok hname
        exact ⟨[t, y], rest, n + 1, rfl, rfl, .tuple hw hy⟩
    · cases hrun

def SimpleTyped : Form TypeName := fun n ts type m => ∃ t, ts = [t] ∧ m = n ∧ SimpleType t type

theorem simpleType_recognizes (bound : Nat) :
    Recognizes bound (simpleType .standard) SimpleTyped := by
  intro ahead x sp n type u _ hrun
  rw [simpleType, run_bind_ok (run_kind _)] at hrun
  cases ahead with
  | nil => cases hrun
  | cons t ahead =>
    split at hrun
    · next hsimple =>
      rw [typeName, run_bind_ok (run_kind _), type_eq_word hsimple] at hrun
      obtain ⟨h, rfl⟩ := wordType_eq_ok hrun
      exact ⟨[t], ahead, n, rfl, rfl, t, rfl, rfl, h⟩
    · cases hrun

theorem varDecl_recognizes (bound : Nat) : Recognizes bound (varDecl .standard) Variable := by
  intro ahead x sp n d u hlen hrun
  obtain ⟨type, v, htype, hrun⟩ := bind_eq_ok hrun
  obtain ⟨name, w, hname, hrun⟩ := bind_eq_ok hrun
  obtain ⟨dot, w', hdot, hrun⟩ := bind_eq_ok hrun
  cases hrun
  obtain ⟨used, rest, k, rfl, rfl, h⟩ := typeName_recognizes bound _ _ _ _ _ _ hlen htype
  obtain ⟨y, rest, rfl, hy, rfl, rfl⟩ := ident_eq_ok hname
  obtain ⟨rest, rfl, hd, rfl⟩ := expect_eq_ok (by decide) hdot
  exact ⟨used ++ [y, dot], rest, k + 1, by simp, rfl, .mk h hy hd⟩

theorem formal_recognizes (bound : Nat) : Recognizes bound (formal .standard) Formal := by
  intro ahead x sp n d u hlen hrun
  obtain ⟨type, v, htype, hrun⟩ := bind_eq_ok hrun
  obtain ⟨name, w, hname, hrun⟩ := bind_eq_ok hrun
  cases hrun
  obtain ⟨used, rest, k, rfl, rfl, t, rfl, rfl, h⟩ :=
    simpleType_recognizes bound _ _ _ _ _ _ hlen htype
  obtain ⟨y, rest, rfl, hy, rfl, rfl⟩ := ident_eq_ok hname
  exact ⟨[t, y], rest, k + 1, rfl, rfl, .mk h hy⟩

/-! ## Statements and blocks -/

theorem unlessAtEnd_recognizes {item : Reader α} {G : Form α} {note : String}
    (h : Recognizes bound item G) :
    Recognizes bound (do if (← kind) = .endOfInput then unexpectedWith note else item) G := by
  intro ahead x sp n a u hlen hrun
  rw [run_bind_ok (run_kind _)] at hrun
  split at hrun
  · cases hrun
  · exact h _ _ _ _ _ _ hlen hrun

theorem blockOf_recognizes (h : Recognizes bound (stmt .standard) Sentence) :
    Recognizes bound (blockOf .standard (stmt .standard)) Body := by
  intro ahead x sp n b u hlen hrun
  obtain ⟨o, v, hopen, hrun⟩ := bind_eq_ok hrun
  obtain ⟨decls, w, hdecls, hrun⟩ := bind_eq_ok hrun
  obtain ⟨stmts, w', hstmts, hrun⟩ := bind_eq_ok hrun
  obtain ⟨c, v', hclose, hrun⟩ := bind_eq_ok hrun
  cases hrun
  obtain ⟨rest, rfl, ho, rfl⟩ := expect_eq_ok (by decide) hopen
  simp only [List.length_cons] at hlen
  obtain ⟨used, rest, k, rfl, rfl, hd⟩ := many_recognizes (.varDecl .standard)
    (fun _ _ _ _ _ _ hle _ => varDecl_recognizes bound _ _ _ _ _ _ hle) _ _ _ _ _ _ (by omega) hdecls
  simp only [List.length_append] at hlen
  obtain ⟨used', rest, m, rfl, rfl, hs⟩ := many_recognizes (.unlessAtEnd _ .stmt)
    (fun _ _ _ _ _ _ hle _ => unlessAtEnd_recognizes h _ _ _ _ _ _ hle) _ _ _ _ _ _
    (by omega) hstmts
  obtain ⟨rest, rfl, hc, rfl⟩ := expect_eq_ok (by decide) hclose
  exact ⟨o :: (used ++ (used' ++ [c])), rest, m, by simp, rfl, .mk ho hd hs hc⟩

section Statements
variable {ahead : List Token} {x : String} {sp : Span} {n : NodeId} {u : TokenStream}

/-- An expression and a dot after it. -/
theorem phrase_dot {f : Expr → Reader α} {a : α}
    (hrun : (expr .standard .default >>= fun e => expect .dot >>= fun _ => f e).run
      ⟨ahead, x, sp, n⟩ = .ok a u) :
    ∃ used d rest m e, ahead = used ++ d :: rest ∧ d.kind = .dot ∧ Phrase .assignment n used e m ∧
      (f e).run ⟨rest, x, sp, m⟩ = .ok a u := by
  obtain ⟨e, v, he, hrun⟩ := bind_eq_ok hrun
  obtain ⟨d, w, hdot, hrun⟩ := bind_eq_ok hrun
  obtain ⟨used, rest, m, rfl, rfl, h⟩ := phrase_recognizes _ _ _ _ _ _ _ (Nat.le_refl _) he
  obtain ⟨rest, rfl, hd, rfl⟩ := expect_eq_ok (by decide) hdot
  exact ⟨used, d, rest, m, e, rfl, hd, h, hrun⟩

/-- A condition and the block after it. -/
theorem phrase_block (ih : Recognizes bound (stmt .standard) Sentence)
    (hlen : ahead.length ≤ bound) {f : Expr → Block → Reader α} {a : α}
    (hrun : (expr .standard .default >>= fun e => blockOf .standard (stmt .standard) >>= f e).run
      ⟨ahead, x, sp, n⟩ = .ok a u) :
    ∃ used used' rest k m cond body, ahead = used ++ (used' ++ rest) ∧
      Phrase .assignment n used cond k ∧ Body k used' body m ∧
      (f cond body).run ⟨rest, x, sp, m⟩ = .ok a u := by
  obtain ⟨cond, v, hcond, hrun⟩ := bind_eq_ok hrun
  obtain ⟨body, w, hbody, hrun⟩ := bind_eq_ok hrun
  obtain ⟨used, rest, k, rfl, rfl, hc⟩ := phrase_recognizes _ _ _ _ _ _ _ (Nat.le_refl _) hcond
  simp only [List.length_append] at hlen
  obtain ⟨used', rest, m, rfl, rfl, hb⟩ := blockOf_recognizes ih _ _ _ _ _ _ (by omega) hbody
  exact ⟨used, used', rest, k, m, cond, body, rfl, hc, hb, hrun⟩

/-- The two statements that end with a step: the token of the step, a dot, and before
them a location. -/
theorem step_eq_ok {F : Loc → Stmt} {e : Expr} {k : TokenKind} (hk : nextKind ahead = k)
    (hend : k ≠ .endOfInput) {s : Stmt}
    (hrun : (advance >>= fun _ => expect .dot >>= fun _ => target e >>= fun place => pure (F place)).run
      ⟨ahead, x, sp, n⟩ = .ok s u) :
    ∃ o d rest place, ahead = o :: d :: rest ∧ o.kind = k ∧ d.kind = .dot ∧ e = .loc place ∧
      s = F place ∧ u = ⟨rest, x, sp, n⟩ := by
  obtain ⟨o, v, ho, hrun⟩ := bind_eq_ok hrun
  obtain ⟨d, w, hdot, hrun⟩ := bind_eq_ok hrun
  obtain ⟨place, w', hplace, hrun⟩ := bind_eq_ok hrun
  cases hrun
  cases ahead with
  | nil => exact absurd hk.symm hend
  | cons o rest =>
    cases ho
    obtain ⟨rest, rfl, hd, rfl⟩ := expect_eq_ok (by decide) hdot
    obtain ⟨rfl, rfl⟩ := target_eq_ok hplace
    exact ⟨o, d, rest, place, rfl, hk, hd, rfl, rfl, rfl⟩

theorem exprStmt_recognizes (bound : Nat) : Recognizes bound (exprStmt .standard) Sentence := by
  intro ahead x sp n s u hlen hrun
  obtain ⟨e, v, he, hrun⟩ := bind_eq_ok hrun
  obtain ⟨used, rest, m, rfl, rfl, h⟩ := phrase_recognizes bound _ _ _ _ _ _ hlen he
  obtain ⟨k, v, hk, hrun⟩ := bind_eq_ok hrun
  rw [run_kind] at hk
  cases hk
  split at hrun
  · next hk =>
    obtain ⟨o, d, rest, place, rfl, ho, hd, rfl, rfl, rfl⟩ := step_eq_ok (F := .increment) hk (by decide) hrun
    exact ⟨used ++ [o, d], rest, m, by simp, rfl, .increment h ho hd⟩
  · next hk =>
    obtain ⟨o, d, rest, place, rfl, ho, hd, rfl, rfl, rfl⟩ := step_eq_ok (F := .decrement) hk (by decide) hrun
    exact ⟨used ++ [o, d], rest, m, by simp, rfl, .decrement h ho hd⟩
  · next hk =>
    obtain ⟨d, v, hd, hrun⟩ := bind_eq_ok hrun
    cases rest with
    | nil => cases hk
    | cons d rest =>
      cases hd
      split at hrun
      · cases hrun
        exact ⟨used ++ [d], rest, m, by simp, rfl, .assign h hk⟩
      · cases hrun
        exact ⟨used ++ [d], rest, m, by simp, rfl, .call h hk⟩
      · cases hrun
  · cases hrun

theorem stmt_eq_word {k : TokenKind} {rule : StmtRule} (h : Rules.standard.stmt k = some rule) :
    k = match rule with
      | .ifElse => .ifWord
      | .whileDo => .whileWord
      | .read => .readWord
      | .write => .writeWord
      | .ret => .returnWord := by
  cases k <;> cases h <;> rfl

/-- What a statement is made of after its first word. -/
theorem afterWord_recognizes (ih : Recognizes bound (stmt .standard) Sentence) {rule : StmtRule}
    {t : Token} {s : Stmt} (hlen : ahead.length ≤ bound)
    (ho : Rules.standard.stmt t.kind = some rule)
    (hrun : (afterWord .standard (stmt .standard) rule t).run ⟨ahead, x, sp, n⟩ = .ok s u) :
    ∃ used rest m, ahead = used ++ rest ∧ u = ⟨rest, x, sp, m⟩ ∧ Sentence n (t :: used) s m := by
  have hk := stmt_eq_word ho
  cases rule with
  | ifElse =>
    obtain ⟨used, used', rest, k, m, cond, body, rfl, hc, hb, hrun⟩ := phrase_block ih hlen hrun
    rw [run_bind_ok (run_kind _)] at hrun
    split at hrun
    · next helse =>
      cases rest with
      | nil => cases helse
      | cons v rest =>
        rw [run_bind_ok (run_advance _ _)] at hrun
        obtain ⟨other, w, hother, hrun⟩ := bind_eq_ok hrun
        cases hrun
        simp only [List.length_append, List.length_cons] at hlen
        obtain ⟨vs, rest, j, rfl, rfl, ho⟩ := blockOf_recognizes ih _ _ _ _ _ _ (by omega) hother
        exact ⟨used ++ (used' ++ v :: vs), rest, j, by simp, rfl, .ifElse hk hc hb helse ho⟩
    · cases hrun
      exact ⟨used ++ used', rest, m, by simp, rfl, .ifThen hk hc hb⟩
  | whileDo =>
    obtain ⟨used, used', rest, k, m, cond, body, rfl, hc, hb, hrun⟩ := phrase_block ih hlen hrun
    cases hrun
    exact ⟨used ++ used', rest, m, by simp, rfl, .whileDo hk hc hb⟩
  | read =>
    obtain ⟨a, v, harrow, hrun⟩ := bind_eq_ok hrun
    obtain ⟨rest, rfl, ha, rfl⟩ := expect_eq_ok (by decide) harrow
    obtain ⟨used, d, rest, m, e, rfl, hd, h, hrun⟩ := phrase_dot hrun
    obtain ⟨place, w, hplace, hrun⟩ := bind_eq_ok hrun
    cases hrun
    obtain ⟨rfl, rfl⟩ := target_eq_ok hplace
    exact ⟨a :: (used ++ [d]), rest, m, by simp, rfl, .read hk ha h hd⟩
  | write =>
    obtain ⟨a, v, harrow, hrun⟩ := bind_eq_ok hrun
    obtain ⟨rest, rfl, ha, rfl⟩ := expect_eq_ok (by decide) harrow
    obtain ⟨used, d, rest, m, e, rfl, hd, h, hrun⟩ := phrase_dot hrun
    cases hrun
    exact ⟨a :: (used ++ [d]), rest, m, by simp, rfl, .write hk ha h hd⟩
  | ret =>
    dsimp only [afterWord] at hrun
    rw [run_bind_ok (run_kind _)] at hrun
    split at hrun
    · rw [pure_bind] at hrun
      obtain ⟨d, v, hdot, hrun⟩ := bind_eq_ok hrun
      cases hrun
      obtain ⟨rest, rfl, hd, rfl⟩ := expect_eq_ok (by decide) hdot
      exact ⟨[d], rest, n, rfl, rfl, .leave hk hd⟩
    · rw [bind_map_left] at hrun
      obtain ⟨used, d, rest, m, e, rfl, hd, h, hrun⟩ := phrase_dot hrun
      cases hrun
      exact ⟨used ++ [d], rest, m, by simp, rfl, .giveBack hk h hd⟩

end Statements

/-- Every statement read has a derivation. -/
theorem stmt_recognizes : ∀ bound : Nat, Recognizes bound (stmt .standard) Sentence := by
  intro bound
  induction bound with
  | zero =>
    intro ahead x sp n s u hlen hrun
    have hlt : u.ahead.length < ahead.length := Consumes.stmt _ _ _ hrun
    omega
  | succ bound ih =>
    intro ahead x sp n s u hlen hrun
    rw [stmt_run, current_kind] at hrun
    cases ho : Rules.standard.stmt (nextKind ahead) with
    | none =>
      rw [ho] at hrun
      exact exprStmt_recognizes _ _ _ _ _ _ _ hlen hrun
    | some rule =>
      rw [ho] at hrun
      cases ahead with
      | nil => cases ho
      | cons t ahead =>
        dsimp only at hrun
        rw [run_bind_ok (run_advance _ _)] at hrun
        obtain ⟨used, rest, m, rfl, rfl, h⟩ :=
          afterWord_recognizes ih (Nat.le_of_succ_le_succ hlen) ho hrun
        exact ⟨t :: used, rest, m, rfl, rfl, h⟩

/-! ## Declarations and programs -/

theorem functionDecl_recognizes (bound : Nat) :
    Recognizes bound (functionDecl .standard) (fun n ts d m => Declared n ts (.function d) m) := by
  intro ahead x sp n d u hlen hrun
  obtain ⟨result, v, hresult, hrun⟩ := bind_eq_ok hrun
  obtain ⟨name, w, hname, hrun⟩ := bind_eq_ok hrun
  obtain ⟨o, w', hopen, hrun⟩ := bind_eq_ok hrun
  obtain ⟨used, rest, k, rfl, rfl, t, rfl, rfl, ht⟩ :=
    simpleType_recognizes bound _ _ _ _ _ _ hlen hresult
  obtain ⟨y, rest, rfl, hy, rfl, rfl⟩ := ident_eq_ok hname
  obtain ⟨rest, rfl, ho, rfl⟩ := expect_eq_ok (by decide) hopen
  obtain ⟨used, rest, k, formals, rfl, hrun, hf⟩ :=
    separated_recognizes (.formal .standard) (formal_recognizes _) (Nat.le_refl _) hrun
  obtain ⟨c, v, hclose, hrun⟩ := bind_eq_ok hrun
  obtain ⟨body, v, hbody, hrun⟩ := bind_eq_ok hrun
  cases hrun
  obtain ⟨rest, rfl, hc, rfl⟩ := expect_eq_ok (by decide) hclose
  rw [block_run] at hbody
  obtain ⟨us, rest, m, rfl, rfl, hb⟩ :=
    blockOf_recognizes (stmt_recognizes _) _ _ _ _ _ _ (Nat.le_refl _) hbody
  exact ⟨t :: y :: o :: (used ++ c :: us), rest, m, by simp, rfl, .function ht hy ho hf hc hb⟩

theorem tupleDecl_recognizes (bound : Nat) :
    Recognizes bound (tupleDecl .standard) (fun n ts d m => Declared n ts (.tuple d) m) := by
  intro ahead x sp n d u hlen hrun
  obtain ⟨w, v, hword, hrun⟩ := bind_eq_ok hrun
  obtain ⟨name, w', hname, hrun⟩ := bind_eq_ok hrun
  obtain ⟨o, v', hopen, hrun⟩ := bind_eq_ok hrun
  obtain ⟨fields, v, hfields, hrun⟩ := bind_eq_ok hrun
  obtain ⟨c, v, hclose, hrun⟩ := bind_eq_ok hrun
  obtain ⟨dot, v, hdot, hrun⟩ := bind_eq_ok hrun
  cases hrun
  obtain ⟨rest, rfl, ht, rfl⟩ := expect_eq_ok (by decide) hword
  obtain ⟨y, rest, rfl, hy, rfl, rfl⟩ := ident_eq_ok hname
  obtain ⟨rest, rfl, ho, rfl⟩ := expect_eq_ok (by decide) hopen
  obtain ⟨used, rest, m, rfl, rfl, hf⟩ := many_recognizes (.unlessAtEnd _ (.varDecl .standard))
    (fun _ _ _ _ _ _ hle _ => unlessAtEnd_recognizes (varDecl_recognizes _) _ _ _ _ _ _ hle)
    _ _ _ _ _ _ (Nat.le_refl _) hfields
  obtain ⟨rest, rfl, hc, rfl⟩ := expect_eq_ok (by decide) hclose
  obtain ⟨rest, rfl, hd, rfl⟩ := expect_eq_ok (by decide) hdot
  exact ⟨w :: y :: o :: (used ++ [c, dot]), rest, m, by simp, rfl, .tuple ht hy ho hf hc hd⟩

theorem decl_recognizes (bound : Nat) : Recognizes bound (decl .standard) Declared := by
  intro ahead x sp n d u hlen hrun
  have hvar := (varDecl_recognizes bound).mono fun _ _ _ _ h => Declared.var h
  obtain ⟨k, v, hk, hrun⟩ := bind_eq_ok hrun
  rw [run_kind] at hk
  cases hk
  obtain ⟨k, v, hk, hrun⟩ := bind_eq_ok hrun
  cases hk
  split at hrun <;> dsimp only at hrun
  · split at hrun
    · exact bind_pure_recognizes (tupleDecl_recognizes bound) _ _ _ _ _ _ hlen hrun
    · exact bind_pure_recognizes hvar _ _ _ _ _ _ hlen hrun
  · split at hrun
    · split at hrun
      · exact bind_pure_recognizes (functionDecl_recognizes bound) _ _ _ _ _ _ hlen hrun
      · exact bind_pure_recognizes hvar _ _ _ _ _ _ hlen hrun
    · cases hrun

theorem program_recognizes (bound : Nat) : Recognizes bound (Reader.program .standard)
    (fun n ts p m => Repeated Declared n ts p.decls m) :=
  bind_pure_recognizes (many_recognizes .decl fun _ _ _ _ _ _ hle _ => decl_recognizes bound _ _ _ _ _ _ hle)

/-- What is left after a program is the end of the input. -/
theorem program_stops {s u : TokenStream} {p : Program} (h : (Reader.program .standard).run s = .ok p u) :
    u.current.kind = .endOfInput := by
  obtain ⟨ds, v, hds, hrun⟩ := bind_eq_ok h
  cases hrun
  exact bne_eq_false_iff_eq.1 (many_stops .decl (Nat.le_refl _) hds)

/-- Every program parsed has a derivation from the tokens up to an end of the input. -/
theorem parse_reads {tokens : List Token} {p : Program} (h : parse tokens = .ok p) :
    ∃ used rest m, (TokenStream.ofTokens tokens).ahead = used ++ rest ∧ nextKind rest = .endOfInput ∧
      Derives used p m := by
  unfold parse at h
  have hid := TokenStream.nextId_ofTokens tokens
  generalize TokenStream.ofTokens tokens = s at h hid ⊢
  obtain ⟨ahead, x, sp, n⟩ := s
  split at h
  · next u hrun =>
    cases h
    have hstop := program_stops hrun
    obtain ⟨used, rest, m, hts, rfl, h⟩ := program_recognizes _ _ _ _ _ _ _ (Nat.le_refl _) hrun
    rw [current_kind] at hstop
    cases hid
    exact ⟨used, rest, m, hts, hstop, h⟩
  · cases h

theorem parse_derives {tokens : List Token} {p : Program} (h : parse tokens = .ok p) :
    ∃ used rest m, (TokenStream.ofTokens tokens).ahead = used ++ rest ∧ Derives used p m := by
  obtain ⟨used, rest, m, hahead, _, hd⟩ := parse_reads h
  exact ⟨used, rest, m, hahead, hd⟩

end BaseLang.Grammar
