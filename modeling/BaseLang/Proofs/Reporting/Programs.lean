import BaseLang.Proofs.Renaming.Moving
import BaseLang.Proofs.Reporting.Statements

/-
  One diagnostic for each place in the source.

    1. `Program.tells` — both passes report of a program what may stand at its marks;
    2. `MayShare`, `Tells.mayShare`, `Tells.nodup` — what entries of a list of diagnostics may
       share a position, and that no others do;
    3. `placed_of_nodup`, `placed_of_source` — every diagnostic stands at an identifier or a
       literal, except that a return without a value has no place;
    4. `analyze_places` — so it is for every source; and at each position there are only
       entries that may share it, if 32 bits are enough for the columns.
-/

namespace BaseLang

/-- What entries of a list of diagnostics about a program may stand at one position. -/
inductive MayShare (p : Program) (ds : Diagnostics) (x : Position) : Prop
  /-- Returns without a value, which have no place in the text. -/
  | missing (h : ∀ d ∈ ds.standing x, d.kind = .returnValueMissing)
  | single (h : (ds.standing x).length ≤ 1)
  /-- A name that is declared `void` and is besides taken already. -/
  | twice (d : Declaration) (hd : .declares d ∈ p.mentions) (hrole : d.role = .value .void)
      (hx : d.name.position = x) (pre post : Diagnostics)
      (hnext : ds = pre ++ ⟨x, .nonFunctionVoid⟩ :: ⟨x, .multiplyDeclared⟩ :: post)
      (h : ds.standing x = [⟨x, .nonFunctionVoid⟩, ⟨x, .multiplyDeclared⟩])
  /-- A value that is returned from a function without a result and is besides wrong. -/
  | returned (v : Expr) (hv : v ∈ p.unwanted) (hx : v.position = x) (d : Diagnostic)
      (hd : d.kind ≠ .returnWithValueInVoid)
      (h : ds.standing x = [d, ⟨x, .returnWithValueInVoid⟩])

/-- What both passes report of a program whose marks are at different places. -/
theorem Program.tells {p : Program} (hnodes : p.nodes.Nodup) (hmarks : (placesOf p.marks).Nodup) :
    Tells p.marks p.mentions p.unwanted p.resolved.diagnostics
      (Typing.checkProgram p.resolved.resolution p) := by
  rw [p.resolved_diagnostics]
  exact Decl.tells_all (resolved_sound p).resolution (Program.settles hnodes) hmarks

/-! ## From a position to the whole list -/

theorem Clear.nodup {mentions : List Mention} {values : List Expr} {N T : Diagnostics} {x : Position}
    (h : Clear mentions values N T x) : (N.standing x ++ T.standing x).Nodup := by
  cases h with
  | single h =>
    match N.standing x ++ T.standing x, h with
    | [], _ => exact List.nodup_nil
    | [d], _ => exact List.nodup_singleton d
  | twice d hd hrole hx pre post hnext h =>
    rw [h]
    simp
  | returned v hv hx d hd h =>
    rw [h]
    have hne : d ≠ ⟨x, .returnWithValueInVoid⟩ := fun heq => hd (congrArg Diagnostic.kind heq)
    simpa using hne

/-- A list has no repetitions if none of its entries is repeated at its position. -/
theorem Diagnostics.nodup_of_standing {ds : Diagnostics} {wanted : Diagnostic → Bool}
    (h : ∀ d ∈ ds, wanted d = true → (ds.standing d.position).Nodup) : (ds.filter wanted).Nodup := by
  rw [List.nodup_iff_count_le_one]
  intro d
  by_cases hd : d ∈ ds.filter wanted
  · obtain ⟨hmem, hwanted⟩ := List.mem_filter.1 hd
    calc (ds.filter wanted).count d
        = ds.count d := List.count_filter hwanted
      _ = (ds.standing d.position).count d := (List.count_filter (by simp)).symm
      _ ≤ 1 := List.nodup_iff_count_le_one.1 (h d hmem hwanted) d
  · rw [List.count_eq_zero_of_not_mem hd]
    exact Nat.zero_le 1

theorem placesOf_nodup {ms : List Mark} (h : (ms.map Prod.snd).Nodup) : (placesOf ms).Nodup :=
  h.sublist (List.filter_sublist.map _)

theorem isTerm_of_mem_placesOf {ms : List Mark} {x : Position} (h : x ∈ placesOf ms) :
    ∃ m ∈ ms, m.1.isTerm = true ∧ m.2 = x := by
  obtain ⟨m, hm, rfl⟩ := List.mem_map.1 h
  obtain ⟨hmem, hterm⟩ := List.mem_filter.1 hm
  exact ⟨m, hmem, hterm, rfl⟩

section Entries
variable {p : Program} {N T : Diagnostics} (h : Tells p.marks p.mentions p.unwanted N T)
  (hplaces : ∀ x ∈ placesOf p.marks, x ≠ .nowhere)
include h hplaces

theorem Tells.mayShare (x : Position) : MayShare p (N ++ T) x := by
  by_cases hx : x = .nowhere
  · -- every other diagnostic has a place in the text
    apply MayShare.missing
    intro d hd
    obtain ⟨hmem, hposition⟩ := Diagnostics.mem_standing.1 hd
    rcases h.placed d hmem with ⟨hkind, -⟩ | ⟨-, hplace⟩
    · exact hkind
    · exact absurd (hposition.trans hx) (hplaces _ hplace)
  · cases h.clear x hx with
    | single h =>
      rw [← Diagnostics.standing_append] at h
      exact .single h
    | twice d hd hrole hposition pre post hnext h =>
      rw [← Diagnostics.standing_append] at h
      refine .twice d hd hrole hposition pre (post ++ T) ?_ h
      rw [hnext, List.append_assoc]
      rfl
    | returned v hv hposition d hd h =>
      rw [← Diagnostics.standing_append] at h
      exact .returned v hv hposition d hd h

theorem Tells.nodup : ((N ++ T).filter fun d => d.kind ≠ .returnValueMissing).Nodup := by
  apply Diagnostics.nodup_of_standing
  intro d hd hkind
  rw [Diagnostics.standing_append]
  rcases h.placed d hd with ⟨hmissing, -⟩ | ⟨-, hplace⟩
  · simp [hmissing] at hkind
  · exact (h.clear d.position (hplaces _ hplace)).nodup

end Entries

/-- The diagnostic stands at an identifier or a literal of the program, or it is about a
missing value and stands nowhere. -/
def Diagnostic.IsPlaced (d : Diagnostic) (p : Program) : Prop :=
  d.kind = .returnValueMissing ∧ d.position = .nowhere ∨
    d.kind ≠ .returnValueMissing ∧ ∃ m ∈ p.marks, m.1.isTerm = true ∧ m.2 = d.position

theorem placed_of_nodup {p : Program} {a : Analysis} (hnodes : p.nodes.Nodup)
    (hmarks : (p.marks.map Prod.snd).Nodup) (ha : analyze p = .ok a) {d : Diagnostic}
    (hd : d ∈ a.diagnostics) : d.IsPlaced p := by
  have htells := Program.tells hnodes (placesOf_nodup hmarks)
  rw [analyze, resolveNames_eq] at ha
  cases ha
  exact (htells.placed d hd).imp id fun hplaced => ⟨hplaced.1, isTerm_of_mem_placesOf hplaced.2⟩

/-- The places of marks do not have to be different for that: there is a program in which
they are, and which is moved. -/
theorem placed_of_source {source : String} {p : Program} {a : Analysis}
    (h : Program.ofSource? source = .ok p) (ha : analyze p = .ok a) {d : Diagnostic}
    (hd : d ∈ a.diagnostics) : d.IsPlaced p := by
  obtain ⟨u, f, hnodes, hmarks, -, hp, -⟩ := exists_spread h
  obtain ⟨b, hb, hmoved⟩ := analyze_moving f u
  rw [← hp, ha] at hmoved
  cases hmoved
  obtain ⟨e, he, rfl⟩ := List.mem_map.1 hd
  rcases placed_of_nodup hnodes hmarks hb he with ⟨hkind, hnowhere⟩ | ⟨hkind, m, hm, hterm, hposition⟩
  · rw [if_pos hkind]
    exact .inl ⟨hkind, hnowhere⟩
  · rw [if_neg hkind, hp]
    refine .inr ⟨hkind, m.move f, ?_, hterm, congrArg f hposition⟩
    rw [Program.marks_moving]
    exact List.mem_map_of_mem hm

/-- The diagnostics of a program that was parsed from a source: each stands at the start of
an identifier or a literal, and only returns without a value stand nowhere. If the source has
fewer than `2 ^ 32 - 1` bytes, entries share a position only in the cases of `MayShare`, and
nothing but those returns is reported twice. -/
theorem analyze_places {source : String} {tokens : List Token} {p : Program}
    (hscan : scan source = .ok tokens) (hparse : parse tokens = .ok p) :
    ∃ a, analyze p = .ok a ∧
      (∀ d ∈ a.diagnostics, (d.kind = .returnValueMissing → d.position = .nowhere) ∧
        (d.kind ≠ .returnValueMissing → ∃ t ∈ tokens, t.kind.isTerm = true ∧ t.start = d.position)) ∧
      (utf8Length source.toList < 2 ^ 32 - 1 →
        (∀ x, MayShare p a.diagnostics x) ∧
          (a.diagnostics.filter fun d => d.kind ≠ .returnValueMissing).Nodup) := by
  have hsource := ofSource?_eq_ok_iff.2 ⟨tokens, hscan, hparse⟩
  refine ⟨_, analyze_eq p, fun d hd => ?_, fun hsize => ?_⟩
  · rcases placed_of_source hsource (analyze_eq p) hd with ⟨hkind, hnowhere⟩ | ⟨hkind, m, hm, hterm, hposition⟩
    · exact ⟨fun _ => hnowhere, fun hne => absurd hkind hne⟩
    · refine ⟨fun heq => absurd heq hkind, fun _ => ?_⟩
      obtain ⟨t, ht, htkind, hstart⟩ := mem_tokens_of_mark hparse hm
      exact ⟨t, ht, by rw [htkind]; exact hterm, hstart.trans hposition⟩
  obtain ⟨hmarks, hsome⟩ := marks_nodup hsize hsource
  have htells := Program.tells (Grammar.parse_nodup hparse) (placesOf_nodup hmarks)
  have hplaces : ∀ x ∈ placesOf p.marks, x ≠ .nowhere := by
    intro x hx
    obtain ⟨m, hm, -, rfl⟩ := isTerm_of_mem_placesOf hx
    exact hsome m hm
  exact ⟨htells.mayShare hplaces, htells.nodup hplaces⟩

/-- A name that is declared `void` and taken, and two returns, of nothing and of a faulty
value, each where it should not be. -/
def sharedSource : String :=
  "logical x. void x. integer g \x7b \x7d [ return. ] void f \x7b \x7d [ return g + x. ]"

def sharedTokens : List Token :=
  [(.logicalWord, "logical", 1), (.identifier, "x", 9), (.dot, ".", 10), (.voidWord, "void", 12),
    (.identifier, "x", 17), (.dot, ".", 18), (.integerWord, "integer", 20), (.identifier, "g", 28),
    (.openCurly, "\x7b", 30), (.closeCurly, "\x7d", 32), (.openBracket, "[", 34), (.returnWord, "return", 36),
    (.dot, ".", 42), (.closeBracket, "]", 44), (.voidWord, "void", 46), (.identifier, "f", 51),
    (.openCurly, "\x7b", 53), (.closeCurly, "\x7d", 55), (.openBracket, "[", 57), (.returnWord, "return", 59),
    (.identifier, "g", 66), (.plus, "+", 68), (.identifier, "x", 70), (.dot, ".", 71), (.closeBracket, "]", 73)].map
    (fun (kind, text, column) => ⟨kind, text, ⟨⟨1, column⟩, ⟨1, column + text.length⟩⟩⟩) ++
  [⟨.endOfInput, "EOF", .empty ⟨1, 74⟩⟩]

def sharedProgram : Program :=
  ⟨[.var ⟨.logical, ⟨0, "x", ⟨1, 9⟩⟩⟩, .var ⟨.void, ⟨1, "x", ⟨1, 17⟩⟩⟩,
    .function ⟨.integer, ⟨2, "g", ⟨1, 28⟩⟩, [], .mk [] [.ret none ⟨1, 36⟩]⟩,
    .function ⟨.void, ⟨3, "f", ⟨1, 51⟩⟩, [],
      .mk [] [.ret (some (.binary .plus (.loc (.ident ⟨4, "g", ⟨1, 66⟩⟩)) (.loc (.ident ⟨5, "x", ⟨1, 70⟩⟩))))
        ⟨1, 59⟩]⟩]⟩

theorem analyze_places_shared :
    scan sharedSource = .ok sharedTokens ∧ parse sharedTokens = .ok sharedProgram ∧
      utf8Length sharedSource.toList < 2 ^ 32 - 1 ∧ ∃ a, analyze sharedProgram = .ok a ∧
        (∀ d ∈ a.diagnostics, (d.kind = .returnValueMissing → d.position = .nowhere) ∧
          (d.kind ≠ .returnValueMissing →
            ∃ t ∈ sharedTokens, t.kind.isTerm = true ∧ t.start = d.position)) ∧
        (∀ x, MayShare sharedProgram a.diagnostics x) ∧
        (a.diagnostics.filter fun d => d.kind ≠ .returnValueMissing).Nodup := by
  have hscan : scan sharedSource = .ok sharedTokens := by decide +kernel
  have hparse : parse sharedTokens = .ok sharedProgram := rfl
  have hsize : utf8Length sharedSource.toList < 2 ^ 32 - 1 := by decide +kernel
  obtain ⟨a, ha, hplaced, hshared⟩ := analyze_places hscan hparse
  exact ⟨hscan, hparse, hsize, a, ha, hplaced, hshared hsize⟩

/-- In a longer source one fault can be reported twice at one position: here the second name is
`2 ^ 32` bytes after the first one. -/
theorem analyze_places_repeated :
    ∃ tokens p a, scan (spacedSource (2 ^ 32 - 7)) = .ok tokens ∧ parse tokens = .ok p ∧ analyze p = .ok a ∧
      a.diagnostics = [⟨⟨1, 6⟩, .nonFunctionVoid⟩, ⟨⟨1, 6⟩, .nonFunctionVoid⟩] ∧
      ¬ MayShare p a.diagnostics ⟨1, 6⟩ ∧
      ¬ (a.diagnostics.filter fun d => d.kind ≠ .returnValueMissing).Nodup := by
  obtain ⟨tokens, hscan, hparse⟩ := parse_spaced (2 ^ 32 - 7)
  have hplaces : twoVoids (.narrow ⟨1, 6⟩) (.narrow ⟨1, 13 + (2 ^ 32 - 7)⟩) = twoVoids ⟨1, 6⟩ ⟨1, 6⟩ := rfl
  have hrun : analyze (twoVoids ⟨1, 6⟩ ⟨1, 6⟩) =
      .ok ⟨.empty, [⟨⟨1, 6⟩, .nonFunctionVoid⟩, ⟨⟨1, 6⟩, .nonFunctionVoid⟩]⟩ := rfl
  refine ⟨tokens, _, _, hscan, hparse.trans (congrArg _ hplaces), hrun, rfl, ?_, by decide⟩
  intro hshare
  cases hshare with
  | missing h => cases h _ List.mem_cons_self
  | single h => exact absurd h (by decide)
  | twice d hd hrole hx pre post hnext h => cases h
  | returned v hv hx d hd h => cases h

end BaseLang
