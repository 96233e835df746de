import BaseLang.Proofs.Reporting.Programs

/-
  Formatting a source keeps what the analysis finds out.

  The canonical text of a program is parsed to the same program at other positions
  (`ofSource?_text_unplaced`), and what is found out about a program that is moved is moved
  with it. So formatting changes the places of diagnostics, and nothing else
  (`analyze_text`).
-/

namespace BaseLang

/-- The canonical text of a program that was parsed is parsed to the same program at other
positions. -/
theorem ofSource?_text_unplaced {source : String} {p : Program} (h : Program.ofSource? source = .ok p) :
    ∃ q, Program.ofSource? p.text = .ok q ∧ p.unplaced = q.unplaced := by
  obtain ⟨tokens, hscan, hparse⟩ := ofSource?_eq_ok h
  obtain ⟨q, hq, herase, hnodes⟩ := ofSource?_text (printable_of_parse hscan hparse)
  exact ⟨q, hq, Program.unplaced_of_numbered herase.symm (Grammar.parse_nodes hparse) hnodes⟩

/-- Formatting keeps the analysis. The program that a source was parsed to and the one that
its canonical text is parsed to are one program `u` at two sets of positions: in `u` each
mark has a place of its own, and `f` and `g` take it to where the same part of the tree
stands in the two texts. The same symbols, links and accesses are found in both, and the same
is reported, in the same order, each time about the same mark of `u`, or nowhere.

Where 32 bits are enough for the columns of the source, `u` is the program that was parsed
and `g` alone leads from the one text to the other. -/
theorem analyze_text {source : String} {p : Program} (h : Program.ofSource? source = .ok p) :
    ∃ q u f g a, Program.ofSource? p.text = .ok q ∧
      p = u.relabel (.moving f) ∧ q = u.relabel (.moving g) ∧
      p.marks = u.marks.map (Mark.move f) ∧ q.marks = u.marks.map (Mark.move g) ∧
      (u.marks.map Prod.snd).Nodup ∧ analyze u = .ok a ∧
      analyze p = .ok ⟨a.resolution, a.diagnostics.move f⟩ ∧
      analyze q = .ok ⟨a.resolution, a.diagnostics.move g⟩ ∧
      (a.diagnostics.move g).kinds = (a.diagnostics.move f).kinds ∧
      (∀ d ∈ a.diagnostics, d.kind = .returnValueMissing ∧ d.position = .nowhere ∨
        d.kind ≠ .returnValueMissing ∧ d.position ∈ u.marks.map Prod.snd) ∧
      (utf8Length source.toList < 2 ^ 32 - 1 → u = p ∧ f = id) ∧
      (utf8Length p.text.toList < 2 ^ 32 - 1 → (q.marks.map Prod.snd).Nodup) := by
  obtain ⟨q, hq, hsame⟩ := ofSource?_text_unplaced h
  obtain ⟨u, f, hnodes, hmarks, hspread, hp, hshort⟩ := exists_spread h
  obtain ⟨g, hg⟩ := Program.exists_moving (hspread.trans hsame) hmarks
  obtain ⟨a, ha, hap⟩ := analyze_moving f u
  obtain ⟨a', ha', haq⟩ := analyze_moving g u
  obtain rfl : a = a' := Except.ok.inj (ha.symm.trans ha')
  rw [← hp] at hap
  rw [hg] at haq
  refine ⟨q, u, f, g, a, hq, hp, hg.symm, ?_, ?_, hmarks, ha, hap, haq, ?_, ?_, hshort, ?_⟩
  · rw [hp, Program.marks_moving]
  · rw [← hg, Program.marks_moving]
  · rw [Diagnostics.kinds_move, Diagnostics.kinds_move]
  · intro d hd
    refine (placed_of_nodup hnodes hmarks ha hd).imp id fun hplaced => ⟨hplaced.1, ?_⟩
    obtain ⟨m, hm, -, hposition⟩ := hplaced.2
    rw [← hposition]
    exact List.mem_map_of_mem hm
  · exact fun hlt => (marks_nodup hlt hq).1

/-- A sum whose operands need no parentheses, and whose second one is not declared. -/
def looseSource : String := "integer f \x7b\x7d [return (1)+(y).]"

def looseTokens : List Token :=
  [(.integerWord, "integer", 1), (.identifier, "f", 9), (.openCurly, "\x7b", 11), (.closeCurly, "\x7d", 12),
    (.openBracket, "[", 14), (.returnWord, "return", 15), (.openParen, "(", 22), (.intLiteral, "1", 23),
    (.closeParen, ")", 24), (.plus, "+", 25), (.openParen, "(", 26), (.identifier, "y", 27),
    (.closeParen, ")", 28), (.dot, ".", 29), (.closeBracket, "]", 30)].map
    (fun (kind, text, column) => ⟨kind, text, ⟨⟨1, column⟩, ⟨1, column + text.length⟩⟩⟩) ++
  [⟨.endOfInput, "EOF", .empty ⟨1, 31⟩⟩]

def looseProgram : Program :=
  ⟨[.function ⟨.integer, ⟨0, "f", ⟨1, 9⟩⟩, [],
    .mk [] [.ret (some (.binary .plus (.int 1 ⟨1, 23⟩) (.loc (.ident ⟨1, "y", ⟨1, 27⟩⟩)))) ⟨1, 15⟩]⟩]⟩

theorem analyze_text_loose :
    Program.ofSource? looseSource = .ok looseProgram ∧
      ∃ q u f g a, Program.ofSource? looseProgram.text = .ok q ∧
        looseProgram = u.relabel (.moving f) ∧ q = u.relabel (.moving g) ∧
        looseProgram.marks = u.marks.map (Mark.move f) ∧ q.marks = u.marks.map (Mark.move g) ∧
        (u.marks.map Prod.snd).Nodup ∧ analyze u = .ok a ∧
        analyze looseProgram = .ok ⟨a.resolution, a.diagnostics.move f⟩ ∧
        analyze q = .ok ⟨a.resolution, a.diagnostics.move g⟩ ∧
        (a.diagnostics.move g).kinds = (a.diagnostics.move f).kinds ∧
        (∀ d ∈ a.diagnostics, d.kind = .returnValueMissing ∧ d.position = .nowhere ∨
          d.kind ≠ .returnValueMissing ∧ d.position ∈ u.marks.map Prod.snd) ∧
        (utf8Length looseSource.toList < 2 ^ 32 - 1 → u = looseProgram ∧ f = id) ∧
        (utf8Length looseProgram.text.toList < 2 ^ 32 - 1 → (q.marks.map Prod.snd).Nodup) := by
  have hscan : scan looseSource = .ok looseTokens := by decide +kernel
  have hsource : Program.ofSource? looseSource = .ok looseProgram := by
    rw [Program.ofSource?, hscan]
    rfl
  exact ⟨hsource, analyze_text hsource⟩

end BaseLang
