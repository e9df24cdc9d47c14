import JumpCode.Proofs.Syntax.StmtCompleteness
import JumpCode.Proofs.Syntax.StmtSoundness

/-!
# The texts that are accepted

A script is read as a program exactly if its text is a rendering of the program.  What the grammar
reads is a rendering, and a rendering is read; between the two stands the evaluator of the grammar,
whose bound on the depth is never reached.  As a script is read in one way only, no text is a
rendering of two programs.
-/

namespace JumpCode

open Peg Grammar

/-! ### Reading a text -/

theorem parse_program_eq_ok {text : String} {ps : List (Pair Rule)} :
    scriptGrammar.parse .program text = .ok ps ↔
      ∃ c', Rule.program.Reads (.ofString text) (some (c', ps)) :=
  scriptRanking.parse_eq_ok (bounded_rule _) (Nat.le_refl _)

/-- A rendering is not blank, as it holds the word that begins a function. -/
theorem Program.Renders.isBlank {p : Program} {text : String} (h : p.Renders text) :
    Text.isBlank text = false := by
  obtain ⟨ts, g, rest, hspells, hlayout, -, htext⟩ := h
  have hmem : 'f' ∈ text.toList := by
    rw [htext]
    cases hspells with
    | intro functions hne hspells =>
      obtain ⟨⟨f, us⟩, functions, rfl⟩ := List.exists_cons_of_ne_nil hne
      have hf : f.Spells us := hspells _ List.mem_cons_self
      cases hf
      obtain ⟨x, xs, rfl, hhead, -⟩ := hlayout.exists_head
      obtain rfl : 'f' = x := Option.some.inj hhead
      exact List.mem_append_right _ List.mem_cons_self
  rw [Text.isBlank, List.all_eq_false]
  exact ⟨'f', hmem, by decide⟩

/-- The script of a rendering is read as the program. -/
theorem Program.Renders.exists_ofScript {p : Program} {s : Script} (h : p.Renders s.content) :
    ∃ q, Program.ofScript s = .ok q ∧ q.bare = p.bare := by
  obtain ⟨c', ps, fs, j, hread, hfs, hbare⟩ := reads_of_renders s.name h
  refine ⟨⟨fs⟩, ?_, congrArg Program.mk hbare⟩
  have hblank : s.isBlank = false := h.isBlank
  have hrun : (Reader.readFunctions s.name (ps.flatMap Pair.inner)).run 1 = .ok (fs, j) := hfs
  rw [Program.ofScript, hblank, parse_program_eq_ok.mpr ⟨c', hread⟩]
  cases fs with
  | nil =>
    obtain ⟨ts, -, -, hspells, -⟩ := h
    cases hspells with
    | intro functions hne _ =>
      have hnil : functions = [] := by simpa using hbare.symm
      exact absurd hnil hne
  | cons f fs => simp only [Bool.false_eq_true, if_false, hrun]

theorem Program.renders_of_ofScript {s : Script} {q : Program} (h : Program.ofScript s = .ok q) :
    q.Renders s.content := by
  obtain ⟨ps, j, hparse, hfs, hne⟩ := Program.exists_readFunctions_of_ofScript h
  obtain ⟨c', hread⟩ := parse_program_eq_ok.mp hparse
  exact renders_of_reads hread hfs hne

/-- **A script is read as a program exactly if its text is a rendering of the program**, whatever
    the origins and the numbers in the program are. -/
theorem Program.ofScript_accepts_renderings (s : Script) (p : Program) :
    (∃ q, Program.ofScript s = .ok q ∧ q.bare = p.bare) ↔ p.Renders s.content := by
  constructor
  · rintro ⟨q, hq, hbare⟩
    exact (Program.renders_of_ofScript hq).of_bare hbare.symm
  · intro h
    exact h.exists_ofScript

/-- **No text is a rendering of two programs.** -/
theorem Program.Renders.bare_unique {p q : Program} {text : String} (hp : p.Renders text)
    (hq : q.Renders text) : p.bare = q.bare := by
  obtain ⟨p', hp', hpbare⟩ := Program.Renders.exists_ofScript (s := .ofSource "" text) hp
  obtain ⟨q', hq', hqbare⟩ := Program.Renders.exists_ofScript (s := .ofSource "" text) hq
  obtain rfl : p' = q' := Except.ok.inj (hp'.symm.trans hq')
  rw [← hpbare, ← hqbare]

end JumpCode
