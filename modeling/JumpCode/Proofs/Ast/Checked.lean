import JumpCode.Ast.Analysis

/-!
# Programs that were accepted

A program is accepted if nothing is found wrong with it.  Then its functions have different names,
the parameters of each function have, and every break has a loop around it.
-/

namespace JumpCode

theorem nodup_of_repeatsAfter {seen xs : List String} (h : repeatsAfter seen xs = []) :
    xs.Nodup ∧ ∀ x ∈ xs, x ∉ seen := by
  induction xs generalizing seen with
  | nil => exact ⟨List.nodup_nil, nofun⟩
  | cons x xs ih =>
    rw [repeatsAfter] at h
    split at h
    · cases h
    · next hx =>
      obtain ⟨hnodup, hnew⟩ := ih h
      constructor
      · refine List.nodup_cons.mpr ⟨fun hmem => hnew x hmem List.mem_cons_self, hnodup⟩
      · intro y hy hseen
        rcases List.mem_cons.mp hy with rfl | hy
        · exact hx hseen
        · exact hnew y hy (List.mem_cons_of_mem x hseen)

namespace Function

variable {f : Function} {taken : Bool}

theorem not_taken_of_findings (h : f.findings taken = []) : taken = false := by
  cases taken with
  | false => rfl
  | true => cases h

theorem nodup_params_of_findings (h : f.findings taken = []) : f.params.Nodup := by
  have hrepeats := (List.append_eq_nil_iff.mp (List.append_eq_nil_iff.mp h).1).2
  exact (nodup_of_repeatsAfter (List.map_eq_nil_iff.mp hrepeats)).1

theorem strayBreaks_of_findings (h : f.findings taken = []) : f.body.strayBreaks false = [] :=
  List.map_eq_nil_iff.mp (List.append_eq_nil_iff.mp h).2

end Function

namespace Program

theorem findings_of_findingsAfter {seen : List String} {fs : List Function}
    (h : findingsAfter seen fs = []) {f : Function} (hf : f ∈ fs) :
    ∃ taken, f.findings taken = [] := by
  induction fs generalizing seen with
  | nil => cases hf
  | cons g fs ih =>
    obtain ⟨hg, hrest⟩ := List.append_eq_nil_iff.mp h
    rcases List.mem_cons.mp hf with rfl | hf
    · exact ⟨_, hg⟩
    · exact ih hrest hf

theorem nodup_names_of_findingsAfter {seen : List String} {fs : List Function}
    (h : findingsAfter seen fs = []) :
    (fs.map Function.name).Nodup ∧ ∀ f ∈ fs, f.name ∉ seen := by
  induction fs generalizing seen with
  | nil => exact ⟨List.nodup_nil, nofun⟩
  | cons g fs ih =>
    obtain ⟨hg, hrest⟩ := List.append_eq_nil_iff.mp h
    obtain ⟨hnodup, hnew⟩ := ih hrest
    constructor
    · refine List.nodup_cons.mpr ⟨?_, hnodup⟩
      intro hmem
      obtain ⟨f, hf, hname⟩ := List.mem_map.mp hmem
      exact hnew f hf (hname ▸ List.mem_cons_self)
    · intro f hf hseen
      rcases List.mem_cons.mp hf with rfl | hf
      · have htaken := Function.not_taken_of_findings hg
        simp [hseen] at htaken
      · exact hnew f hf (List.mem_cons_of_mem _ hseen)

variable {p : Program} {f : Function}

/-- The functions of a program without findings have different names. -/
theorem nodup_names_of_findings (h : p.findings = []) : (p.functions.map Function.name).Nodup :=
  (nodup_names_of_findingsAfter h).1

theorem nodup_names_link (hnone : p.findings = []) :
    (p.link.functions.map Function.name).Nodup := by
  have hsame : p.link.functions.map Function.name = p.functions.map Function.name := by
    rw [link, List.map_map]
    rfl
  rw [hsame]
  exact nodup_names_of_findings hnone

theorem nodup_params_of_findings (h : p.findings = []) (hf : f ∈ p.functions) :
    f.params.Nodup := by
  obtain ⟨taken, hnone⟩ := findings_of_findingsAfter h hf
  exact Function.nodup_params_of_findings hnone

theorem strayBreaks_of_findings (h : p.findings = []) (hf : f ∈ p.functions) :
    f.body.strayBreaks false = [] := by
  obtain ⟨taken, hnone⟩ := findings_of_findingsAfter h hf
  exact Function.strayBreaks_of_findings hnone

/-- A program that was accepted has no findings and comes out linked. -/
theorem analyze_eq_ok {q : Program} (h : p.analyze = .ok q) : p.findings = [] ∧ q = p.link := by
  rw [analyze_eq] at h
  split at h
  · next hp =>
    cases h
    exact ⟨hp, rfl⟩
  · cases h

end Program

end JumpCode
