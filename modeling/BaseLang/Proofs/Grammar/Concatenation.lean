import BaseLang.Proofs.Grammar.Completeness
import BaseLang.Proofs.Grammar.Numbering
import BaseLang.Proofs.Parsing.LaterNumbers

/-
  One program after another.

  The tokens of a program have a derivation, and what has a derivation is read alike whatever
  comes after it: no declaration, and nothing inside one, reacts to the tokens that follow. So in
  a list of tokens that goes on after a program, reading stands at what follows with nothing
  left over from the program but the count of its nodes. What follows is then read as on its own,
  under later numbers.

    1. `many_append` — a loop over items that are read whatever follows;
    2. `Repeated.program_run` — a program before other tokens;
    3. `parse_append` — the parse of one list of tokens after another.
-/

namespace BaseLang

/-- The declarations of one program, then those of the other. -/
instance : Append Program := ⟨fun p q => ⟨p.decls ++ q.decls⟩⟩

/-- A list of tokens stops where the tokens after it do, if there are any. -/
theorem TokenStream.ofTokens_append (ts : List Token) {us : List Token} (h : us ≠ []) :
    ofTokens (ts ++ us) = { ofTokens us with ahead := ts ++ (ofTokens us).ahead } := by
  cases hlast : us.getLast? with
  | none => exact absurd (List.getLast?_eq_none_iff.1 hlast) h
  | some last =>
    unfold ofTokens
    rw [List.getLast?_append, hlast]
    dsimp only [Option.or]
    split
    · rw [List.dropLast_append_of_ne_nil h]
    · rfl

namespace Grammar

open Reader

/-- A loop takes items that are read alike whatever follows, and then goes on. -/
theorem many_append {α : Type} (goesOn : TokenKind → Bool) {item : Reader α} (hc : Consumes item)
    {n m : NodeId} {ts : List Token} {as : List α}
    (h : Repeated (fun n ts a m => Begins (fun k => goesOn k = true) ts ∧ ReadBy item Anything n ts a m)
      n ts as m) (rest : List Token) (x : String) (sp : Span) :
    (many goesOn item).run ⟨ts ++ rest, x, sp, n⟩ =
      ((as ++ ·) <$> many goesOn item).run ⟨rest, x, sp, m⟩ := by
  induction h with
  | nil =>
    have hnone : (([] : List α) ++ ·) <$> many goesOn item = many goesOn item := id_map _
    rw [List.nil_append, hnone]
  | cons h hs ih =>
    obtain ⟨hbegins, hread⟩ := h
    rw [List.append_assoc, many_run hc, current_kind, if_pos (hbegins.nextKind _),
      run_bind_ok (hread _ x sp trivial), EStateM.run_bind, ih, map_eq_pure_bind, map_eq_pure_bind,
      EStateM.run_bind, EStateM.run_bind]
    cases (many goesOn item).run ⟨rest, x, sp, _⟩ with
    | ok bs t => rfl
    | error e t => rfl

/-- Before other tokens, a program is read as it is anywhere. -/
theorem Repeated.program_run {n m : NodeId} {ts : List Token} {p : Program}
    (h : Repeated Declared n ts p.decls m) (rest : List Token) (x : String) (sp : Span) :
    (program .standard).run ⟨ts ++ rest, x, sp, n⟩ =
      ((p ++ ·) <$> program .standard).run ⟨rest, x, sp, m⟩ := by
  have hdecls := many_append (· != .endOfInput) .decl
    (h.mono fun _ _ _ _ h => ⟨h.begins.mono fun _ hk => bne_iff_ne.2 hk, h.readBy⟩) rest x sp
  rw [map_eq_pure_bind] at hdecls ⊢
  rw [program, EStateM.run_bind, hdecls, EStateM.run_bind, EStateM.run_bind, EStateM.run_bind]
  cases (many (· != .endOfInput) (decl .standard)).run ⟨rest, x, sp, m⟩ with
  | ok ds t => rfl
  | error e t => rfl

/-- Reading a program takes all tokens of a list that holds no end of the input. -/
theorem run_takes_all {ts : List Token} {p : Program} (hts : ∀ t ∈ ts, t.kind ≠ .endOfInput)
    (hp : parse ts = .ok p) :
    ∃ t, (program .standard).run (.ofTokens ts) = .ok p t ∧ Derives ts p t.nextId := by
  have hahead : (TokenStream.ofTokens ts).ahead = ts := by
    rw [TokenStream.ahead_ofTokens, if_neg]
    intro hlast
    obtain ⟨last, hlast, hend⟩ := Option.map_eq_some_iff.1 hlast
    exact hts last (List.mem_of_getLast? hlast) hend
  have hid := TokenStream.nextId_ofTokens ts
  unfold parse at hp
  generalize TokenStream.ofTokens ts = s at hp hahead hid ⊢
  obtain ⟨ahead, x, sp, n⟩ := s
  cases hahead
  cases hid
  cases hrun : (program .standard).run ⟨ahead, x, sp, 0⟩ with
  | error e t => rw [hrun] at hp; cases hp
  | ok q t =>
    rw [hrun] at hp
    cases hp
    have hstop := program_stops hrun
    obtain ⟨used, rest, m, rfl, rfl, h⟩ := program_recognizes _ _ _ _ _ _ _ (Nat.le_refl _) hrun
    -- what is left begins with an end of the input, of which there is none in the list
    cases rest with
    | cons t rest => exact absurd hstop (hts t (List.mem_append_right _ List.mem_cons_self))
    | nil =>
      rw [List.append_nil]
      exact ⟨_, rfl, h⟩

/-- One program after another. The first list of tokens is a program and holds no end of the input.
Then the parse of both lists is that of the second: it has the declarations of the first program before
its own, in which all numbers are later by those that were handed out for the first, or it fails with
the same error. -/
theorem parse_append {ts₁ : List Token} {p₁ : Program} (h₁ : ∀ t ∈ ts₁, t.kind ≠ .endOfInput)
    (hp : parse ts₁ = .ok p₁) :
    ∃ t, (program .standard).run (.ofTokens ts₁) = .ok p₁ t ∧ t.nextId = p₁.nodes.length ∧
      ∀ ts₂, parse (ts₁ ++ ts₂) = (parse ts₂).map fun p₂ => p₁ ++ p₂.relabel (.later t.nextId) := by
  obtain ⟨t, hrun, h⟩ := run_takes_all h₁ hp
  refine ⟨t, hrun, by rw [h.nodes_eq, List.length_range], fun ts₂ => ?_⟩
  by_cases h₂ : ts₂ = []
  · rw [h₂, List.append_nil, hp]
    exact congrArg Except.ok (congrArg Program.mk (List.append_nil p₁.decls).symm)
  have hid := TokenStream.nextId_ofTokens ts₂
  rw [parse, parse, TokenStream.ofTokens_append ts₁ h₂]
  generalize TokenStream.ofTokens ts₂ = s at hid ⊢
  obtain ⟨ahead, x, sp, n⟩ := s
  cases hid
  -- the second list is read from the number at which the count stands
  have hsecond := Shifts.program (n := t.nextId) .standard ⟨ahead, x, sp, 0⟩
  rw [TokenStream.later, Nat.zero_add] at hsecond
  rw [Repeated.program_run h ahead x sp, map_eq_pure_bind, EStateM.run_bind, hsecond]
  cases (program .standard).run ⟨ahead, x, sp, 0⟩ with
  | ok p₂ u => rfl
  | error e u => rfl

def variableNamed (name : String) : List Token :=
  [⟨.integerWord, "integer", ⟨⟨1, 1⟩, ⟨1, 8⟩⟩⟩, ⟨.identifier, name, ⟨⟨1, 9⟩, ⟨1, 10⟩⟩⟩,
    ⟨.dot, ".", ⟨⟨1, 10⟩, ⟨1, 11⟩⟩⟩]

def variableUnder (id : NodeId) (name : String) : Decl := .var ⟨.integer, ⟨id, name, ⟨1, 9⟩⟩⟩

theorem parse_append_variables :
    parse (variableNamed "a" ++ variableNamed "b") = .ok ⟨[variableUnder 0 "a", variableUnder 1 "b"]⟩ ∧
      parse (variableNamed "a" ++ [.endOfInput ⟨1, 11⟩]) = .ok ⟨[variableUnder 0 "a"]⟩ ∧
      parse (variableNamed "a" ++ (variableNamed "b").tail) =
        .error ⟨.unexpectedWith "b" "expected a declaration", ⟨1, 9⟩⟩ := by
  have hfirst : parse (variableNamed "a") = .ok ⟨[variableUnder 0 "a"]⟩ := rfl
  have hsecond : parse (variableNamed "b") = .ok ⟨[variableUnder 0 "b"]⟩ := rfl
  obtain ⟨t, hrun, hcount, happend⟩ := parse_append (by decide) hfirst
  have hone : t.nextId = 1 := hcount
  rw [hone] at happend
  refine ⟨?_, happend _, happend _⟩
  rw [happend, hsecond]
  rfl

end Grammar
end BaseLang
