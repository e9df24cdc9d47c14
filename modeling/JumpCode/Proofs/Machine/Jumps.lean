import JumpCode.Proofs.Lowering.Places
import JumpCode.Proofs.Machine.Frames

/-!
# Jumps of verified code

A routine that was built with its labels looked through is safe to jump in, whatever its code is and
however it came about.  Looking for mistakes goes over the code once; here it is tied to every state
of a run.  A frame runs one of the routines, so the label that it jumps to stands in the code of that
very routine, at one place, and this is the place that the routine has noted for it.

For the machine to find every label less is needed: each routine has to know a place for each label
that it jumps to (`Routine.JumpsPlaced`).
-/

namespace JumpCode

/-- The routine knows a place for every label that it jumps to. -/
def Routine.JumpsPlaced (r : Routine) : Prop :=
  ∀ i ∈ r.code.toList, ∀ l, i.target? = some l → r.positionOf l ≠ none

/-- The instruction that the frame runs next takes it to the label `l`. -/
def Frame.JumpsTo (f : Frame) (l : Label) : Prop :=
  f.instr? = some (.jump l) ∨
    ∃ c, f.instr? = some (.branchFalse c l) ∧ (f.reg c).isZero = true

namespace Machine

variable {rs : List Routine} {D : Nat} {entry : String} {args : List Value}

/-- If the routines know the places of the labels they jump to, no step goes astray. -/
theorem InRun.step_ne_unknownLabel (hrs : ∀ r ∈ rs, r.JumpsPlaced) {m : Machine}
    (h : InRun rs D entry args m) (l : Label) (site : Site) :
    step rs D m ≠ .failed ⟨.unknownLabel l, site⟩ := by
  intro hstep
  rcases h.fault_of_step hstep with hzero | ⟨i, l', hi, htarget, hnone, -⟩ | ⟨d, name, regs, -, hcall⟩
  · simp at hzero
  · exact hrs _ h.routine_mem i (Frame.mem_code_of_instr hi) l' htarget hnone
  · cases isAboutCall_of_call hcall

theorem run_ne_unknownLabel (hrs : ∀ r ∈ rs, r.JumpsPlaced) (options : RunOptions) (l : Label) :
    ¬(run rs entry args options).FailsWith (.unknownLabel l) := by
  rintro ⟨site, hsite⟩
  rcases fault_of_run hsite with ⟨hcall, -⟩ | ⟨m, -, hlimit⟩ | ⟨m, hm, hstep⟩
  · cases isAboutCall_of_call hcall
  · simp at hlimit
  · exact hm.step_ne_unknownLabel hrs l site hstep

/-- A frame that jumps to a label goes on at the place that its routine knows for it. -/
theorem step_of_jumpsTo {m : Machine} {l : Label} (h : m.top.JumpsTo l) :
    step rs D m = goTo m.top m.callers l := by
  obtain ⟨f, cs⟩ := m
  rcases h with hjump | ⟨c, hbranch, hzero⟩
  · rw [step_of_instr hjump]
    rfl
  · rw [step_of_instr hbranch]
    simp [exec, hzero]

end Machine

/-! ### Verified routines -/

namespace Routine

variable {r : Routine} {b : Builder} {name : String}

/-- In a routine that was looked through for mistakes, a label that is jumped to stands at one place,
    and the routine knows it. -/
theorem place_of_target (h : b.finish name true = .ok r) {i : Instr} (hi : i ∈ r.code.toList)
    {l : Label} (hl : i.target? = some l) :
    ∃ j, r.positionOf l = some j ∧ ∀ k, r.code[k]? = some (.label l) ↔ k = j := by
  have hsound := Builder.soundLabels_of_finish h
  have hplace {k : Nat} (hk : r.code.toList[k]? = some (.label l)) : r.positionOf l = some k := by
    obtain ⟨-, -, -, -, hcode, hposition⟩ := Builder.finish_eq_ok h
    rw [hposition, ← hcode]
    exact idxOf?_eq_of_once (hsound.once l) hk
  obtain ⟨j, hj⟩ := List.getElem?_of_mem (hsound.targets i hi l hl)
  refine ⟨j, hplace hj, fun k => ?_⟩
  rw [← Array.getElem?_toList]
  constructor
  · intro hk
    have hsame := (hplace hk).symm.trans (hplace hj)
    exact Option.some.inj hsame
  · rintro rfl
    exact hj

theorem jumpsPlaced_of_finish (h : b.finish name true = .ok r) : r.JumpsPlaced := by
  intro i hi l hl hnone
  obtain ⟨j, hj, -⟩ := place_of_target h hi hl
  rw [hj] at hnone
  cases hnone

end Routine

open Machine

/-- **Jumps of verified code land at their labels.**  Take routines that were built from any code,
    with mistakes in their labels looked for.  No run of them ends at a label that is not there, and
    whenever an instruction takes a frame to a label, the frame goes on at the one and only place
    where the label stands in its routine. -/
theorem verified_jumps_land {rs : List Routine}
    (hrs : ∀ r ∈ rs, ∃ b name, Builder.finish b name true = .ok r) (entry : String)
    (args : List Value) (options : RunOptions) :
    (∀ l, ¬(run rs entry args options).FailsWith (.unknownLabel l)) ∧
    ∀ m l, InRun rs options.maxDepth entry args m → m.top.JumpsTo l →
      ∃ j, (∀ k, m.top.routine.code[k]? = some (.label l) ↔ k = j) ∧
        step rs options.maxDepth m = .running ⟨{ m.top with pc := j }, m.callers⟩ := by
  have hplaced : ∀ r ∈ rs, r.JumpsPlaced := by
    intro r hr
    obtain ⟨b, name, hb⟩ := hrs r hr
    exact Routine.jumpsPlaced_of_finish hb
  refine ⟨run_ne_unknownLabel hplaced options, ?_⟩
  intro m l hm hjump
  obtain ⟨b, name, hb⟩ := hrs _ hm.routine_mem
  obtain ⟨i, hi, htarget⟩ : ∃ i, m.top.instr? = some i ∧ i.target? = some l := by
    rcases hjump with h | ⟨c, h, -⟩
    · exact ⟨_, h, rfl⟩
    · exact ⟨_, h, rfl⟩
  obtain ⟨j, hj, honly⟩ := Routine.place_of_target hb (Frame.mem_code_of_instr hi) htarget
  refine ⟨j, honly, ?_⟩
  have hlabel : ({ m.top with pc := j } : Frame).instr? = some (.label l) := (honly j).mpr rfl
  rw [step_of_jumpsTo hjump, goTo, hj]
  exact rest_of_instr hlabel

/-- Code that calls `skip` from inside a loop and then leaves the loop. -/
def callingLoop : Builder where
  nextReg := 1
  nextLabel := 2
  paramCount := 0
  names := []
  code := #[.label ⟨0⟩, .call 0 "skip" [], .branchFalse 0 ⟨1⟩, .jump ⟨0⟩, .label ⟨1⟩, .retVoid]

/-- Code that jumps over an instruction to a label of the same number. -/
def skipping : Builder where
  nextReg := 0
  nextLabel := 1
  paramCount := 0
  names := []
  code := #[.jump ⟨0⟩, .retVoid, .label ⟨0⟩]

theorem verified_jumps_land_callingLoop :
    ∃ r s, callingLoop.finish "loop" true = .ok r ∧ skipping.finish "skip" true = .ok s ∧
      (run [r, s] "loop" [] {}).outcome = .ok none ∧
      (∀ l, ¬(run [r, s] "loop" [] {}).FailsWith (.unknownLabel l)) ∧
      ∃ m, InRun [r, s] 256 "loop" [] m ∧ m.top.routine = s ∧ m.top.JumpsTo ⟨0⟩ ∧
        step [r, s] 256 m = .running ⟨{ m.top with pc := 2 }, m.callers⟩ := by
  obtain ⟨r, hr⟩ : ∃ r, callingLoop.finish "loop" true = .ok r := ⟨_, rfl⟩
  obtain ⟨s, hs⟩ : ∃ s, skipping.finish "skip" true = .ok s := ⟨_, rfl⟩
  have hrs : ∀ x ∈ [r, s], ∃ b name, Builder.finish b name true = .ok x := by
    intro x hx
    rcases List.mem_cons.mp hx with rfl | hx
    · exact ⟨_, _, hr⟩
    · rw [List.mem_singleton.mp hx]
      exact ⟨_, _, hs⟩
  obtain ⟨hnever, hland⟩ := verified_jumps_land hrs "loop" [] {}
  cases hr
  cases hs
  refine ⟨_, _, rfl, rfl, rfl, hnever, ?_⟩
  refine ⟨_, ⟨2, rfl⟩, rfl, Or.inl rfl, ?_⟩
  obtain ⟨j, honly, hstep⟩ := hland _ _ ⟨2, rfl⟩ (Or.inl rfl)
  rw [hstep, ← (honly 2).mp rfl]

end JumpCode
