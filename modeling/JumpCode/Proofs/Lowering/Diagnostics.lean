import JumpCode.Proofs.Lowering.Breaks
import JumpCode.Proofs.Syntax.Origins

/-!
# Diagnostics and the text they are about

What is wrong with a program is reported with an origin.  The findings of a check blame functions
and breaks, and the failures of lowering blame the event that was the first violation.  Where the
program was read from a script, all these have origins that cover their text, so a diagnostic points
at the very text that it complains about.
-/

namespace JumpCode

variable {s : Script}

/-! ### Findings -/

/-- What the text should look like that a finding points at. -/
def Finding.Fits : Finding → String → Prop
  | .repeatedFunction _ _, w | .repeatedParam _ _ _, w =>
    "fn".toList <+: w.toList ∧ ['\x7d'] <:+ w.toList
  | .strayBreak _, w => "break".toList <+: w.toList ∧ [';'] <:+ w.toList

namespace Stmt

mutual

/-- A stray break is met on a walk. -/
theorem leave_mem_events {t : Stmt} {inLoop : Bool} {m : Mark} (h : m ∈ t.strayBreaks inLoop) :
    ∃ link, .leave m link ∈ t.events := by
  cases t with
  | block _ body => exact leave_mem_eventsAll h
  | eval _ e => cases h
  | ret _ e => cases h
  | ifThen _ c t =>
    obtain ⟨link, hlink⟩ := leave_mem_events (t := t) h
    exact ⟨link, List.mem_append_right _ hlink⟩
  | ifElse _ c t e =>
    rcases List.mem_append.mp h with h | h
    · obtain ⟨link, hlink⟩ := leave_mem_events h
      exact ⟨link, List.mem_append_right _ (List.mem_append_left _ hlink)⟩
    · obtain ⟨link, hlink⟩ := leave_mem_events h
      exact ⟨link, List.mem_append_right _ (List.mem_append_right _ hlink)⟩
  | whileLoop _ c body =>
    obtain ⟨link, hlink⟩ := leave_mem_events (t := body) h
    exact ⟨link, List.mem_cons_of_mem _ (List.mem_append_right _ hlink)⟩
  | breakLoop m' link =>
    rw [strayBreaks] at h
    split at h
    · cases h
    · rw [List.mem_singleton.mp h]
      exact ⟨link, List.mem_singleton_self _⟩

theorem leave_mem_eventsAll {ts : List Stmt} {inLoop : Bool} {m : Mark}
    (h : m ∈ strayBreaksAll inLoop ts) : ∃ link, .leave m link ∈ eventsAll ts := by
  cases ts with
  | nil => cases h
  | cons t ts =>
    rcases List.mem_append.mp h with h | h
    · obtain ⟨link, hlink⟩ := leave_mem_events h
      exact ⟨link, List.mem_append_left _ hlink⟩
    · obtain ⟨link, hlink⟩ := leave_mem_eventsAll h
      exact ⟨link, List.mem_append_right _ hlink⟩

end

end Stmt

/-- A finding about a function points at the function or at one of its breaks. -/
theorem Function.Located.fits_of_findings {f : Function} (hf : f.Located s) {taken : Bool}
    {finding : Finding} (h : finding ∈ f.findings taken) :
    ∃ w, finding.origin.Covers s w ∧ finding.Fits w := by
  rcases List.mem_append.mp h with h | h
  · rcases List.mem_append.mp h with h | h
    · split at h
      · cases List.mem_singleton.mp h
        exact hf.origin
      · cases h
    · obtain ⟨param, -, rfl⟩ := List.mem_map.mp h
      exact hf.origin
  · obtain ⟨m, hm, rfl⟩ := List.mem_map.mp h
    obtain ⟨link, hlink⟩ := Stmt.leave_mem_events hm
    exact hf.events _ hlink

theorem Program.exists_of_findingsAfter {fs : List Function} {seen : List String}
    {finding : Finding} (h : finding ∈ findingsAfter seen fs) :
    ∃ f ∈ fs, ∃ taken, finding ∈ f.findings taken := by
  induction fs generalizing seen with
  | nil => cases h
  | cons f fs ih =>
    rcases List.mem_append.mp h with h | h
    · exact ⟨f, List.mem_cons_self, _, h⟩
    · obtain ⟨g, hg, hfinding⟩ := ih h
      exact ⟨g, List.mem_cons_of_mem f hg, hfinding⟩

/-- If a script is read, and compiling it fails, then because of the findings about its program. -/
theorem Script.diagnostics_of_compile {p : Program} (hp : Program.ofScript s = .ok p)
    {options : LowerOptions} {ds : List Diagnostic} (h : s.compile options = .error ds) :
    ds = p.findings.map Finding.toDiagnostic := by
  unfold compile load Program.check at h
  simp only [hp, Program.analyze_eq] at h
  cases hfindings : p.findings with
  | nil =>
    simp only [hfindings] at h
    cases h
  | cons finding rest =>
    simp only [hfindings] at h
    cases h
    rfl

/-! ### Failures -/

/-- What the text should look like that a failure points at.  No text can be blamed for a failure
    that a checked program cannot cause. -/
def LowerErrorKind.Fits : LowerErrorKind → String → Prop
  | .unknownIdentifier name, w => w = name
  | .unknownFunction name, w | .arityMismatch name _ _, w =>
    name.toList <+: w.toList ∧ [')'] <:+ w.toList
  | .unresolvedBreak _ _, _ | .duplicateLabel _ _ _, _ | .danglingJump _ _, _ => False

namespace Stmt

mutual

/-- Linking breaks does not move anything. -/
theorem located_link {t : Stmt} (loop : Option StmtId) (h : ∀ event ∈ t.events, event.Located s) :
    ∀ event ∈ (t.link loop).events, event.Located s := by
  cases t with
  | block m body => exact located_linkAll loop h
  | eval m e => exact h
  | ret m e => exact h
  | ifThen m c t =>
    rw [events, List.forall_mem_append] at h
    rw [link, events, List.forall_mem_append]
    exact ⟨h.1, located_link loop h.2⟩
  | ifElse m c t e =>
    rw [events, List.forall_mem_append, List.forall_mem_append] at h
    rw [link, events, List.forall_mem_append, List.forall_mem_append]
    exact ⟨h.1, located_link loop h.2.1, located_link loop h.2.2⟩
  | whileLoop m c body =>
    rw [events, List.forall_mem_cons, List.forall_mem_append] at h
    rw [link, events, List.forall_mem_cons, List.forall_mem_append]
    exact ⟨trivial, h.2.1, located_link _ h.2.2⟩
  | breakLoop m old =>
    rw [events, List.forall_mem_singleton] at h
    rw [link, events, List.forall_mem_singleton]
    exact h

theorem located_linkAll {ts : List Stmt} (loop : Option StmtId)
    (h : ∀ event ∈ eventsAll ts, event.Located s) :
    ∀ event ∈ eventsAll (linkAll loop ts), event.Located s := by
  cases ts with
  | nil => exact h
  | cons t ts =>
    rw [eventsAll, List.forall_mem_append] at h
    rw [linkAll, eventsAll, List.forall_mem_append]
    exact ⟨located_link loop h.1, located_linkAll loop h.2⟩

end

end Stmt

/-- A violation blames the text of the event, if it is not about a break. -/
theorem Event.Violates.fits {ctx : Context} {params : List String} {before : List Event}
    {event : Event} {kind : LowerErrorKind} {origin : Origin}
    (h : event.Violates ctx params before kind origin) (hevent : event.Located s)
    (hbreak : ∀ stmt loop, kind ≠ .unresolvedBreak stmt loop) :
    ∃ w, origin.Covers s w ∧ kind.Fits w := by
  cases h with
  | unknownIdentifier _ _ => exact ⟨_, hevent, rfl⟩
  | unknownFunction _ => exact hevent
  | arityMismatch _ _ => exact hevent
  | unresolvedBreak _ => exact absurd rfl (hbreak _ _)

/-- **Diagnostics point at the text they complain about.**  Take a script that can be read.  If
    compiling it fails, each diagnostic is a finding about its program, and the origin is a stretch of
    the script: a function from its keyword to its brace, or a break from its keyword to its
    semicolon.  If compiling it succeeds, and no function takes more labels than there are, the same
    holds of each failure in the result: the stretch is the unknown name, or a call from the name of
    its callee to the parenthesis. -/
theorem diagnostics_point_at_text {p : Program} (hp : Program.ofScript s = .ok p)
    (options : LowerOptions) :
    (∀ ds, s.compile options = .error ds → ∀ d ∈ ds, ∃ finding ∈ p.findings,
      d = finding.toDiagnostic ∧ ∃ w, Origin.Covers ⟨d.location, d.span⟩ s w ∧ finding.Fits w) ∧
    ∀ l, s.compile options = .ok l → (∀ f ∈ p.functions, f.body.labelCount ≤ UInt32.size) →
      ∀ e ∈ l.errors, ∃ w, e.origin.Covers s w ∧ e.kind.Fits w := by
  have hlocated := Program.located_of_ofScript hp
  constructor
  · intro ds hds d hd
    rw [Script.diagnostics_of_compile hp hds] at hd
    obtain ⟨finding, hfinding, rfl⟩ := List.mem_map.mp hd
    obtain ⟨f, hf, taken, hmem⟩ := Program.exists_of_findingsAfter hfinding
    exact ⟨finding, hfinding, rfl, (hlocated f hf).fits_of_findings hmem⟩
  · intro l hl hlabels e he
    obtain ⟨p', hp', hnone, -, f, hf, hlower⟩ := Script.error_of_compile hl he
    obtain rfl : p' = p := Except.ok.inj (hp'.symm.trans hp)
    have hn : f.link.body.labelCount ≤ UInt32.size := by
      rw [Function.link, Stmt.labelCount_link]
      exact hlabels f hf
    have hbreak := Function.not_unresolvedBreak_of_lower_link
      (Stmt.nodup_loops (Program.nodup_ids_of_ofScript hp hf))
      (Program.strayBreaks_of_findings hnone hf) hlower
    obtain ⟨kind, origin, rfl, before, event, after, hsplit, -, hviolates⟩ :=
      Function.firstViolation_of_lower hn hlower
    refine hviolates.fits ?_ hbreak
    refine Stmt.located_link none (hlocated f hf).events event ?_
    have hmem : event ∈ f.link.events := by
      rw [hsplit]
      simp
    exact hmem

/-- A script in which a name is not known and a function is called with too many arguments. -/
def carelessScript : Script :=
  .ofSource "careless" "fn f(a) \x7b\n  b = a + c;\n\x7d\nfn g() \x7b f( 1,\n 2 ); \x7d"

/-- A script with a break that has no loop, in a function of a name that is taken. -/
def strayScript : Script := .ofSource "stray" "fn f() \x7b\x7d fn f() \x7b break ; \x7d"

theorem diagnostics_point_at_text_careless :
    (∃ l, carelessScript.compile {} = .ok l ∧ l.errors.length = 2 ∧
      ∀ e ∈ l.errors, ∃ w, e.origin.Covers carelessScript w ∧ e.kind.Fits w) ∧
    ∃ ds, strayScript.compile {} = .error ds ∧ ds.length = 2 ∧
      ∀ d ∈ ds, ∃ finding : Finding, d = finding.toDiagnostic ∧
        ∃ w, Origin.Covers ⟨d.location, d.span⟩ strayScript w ∧ finding.Fits w := by
  constructor
  · have hlabels : (match Program.ofScript carelessScript with
        | .ok p => p.functions.all fun f => f.body.labelCount ≤ UInt32.size
        | .error _ => false) = true := by decide +kernel
    have herrors : (match carelessScript.compile {} with
        | .ok l => l.errors.length
        | .error _ => 0) = 2 := by decide +kernel
    cases hp : Program.ofScript carelessScript with
    | error e =>
      rw [hp] at hlabels
      cases hlabels
    | ok p =>
      rw [hp] at hlabels
      cases hl : carelessScript.compile {} with
      | error ds =>
        rw [hl] at herrors
        cases herrors
      | ok l =>
        rw [hl] at herrors
        refine ⟨l, rfl, herrors, (diagnostics_point_at_text hp {}).2 l hl fun f hf => ?_⟩
        simpa using List.all_eq_true.mp hlabels f hf
  · have hread : (Program.ofScript strayScript).toOption.isSome = true := by decide +kernel
    have hcount : (match strayScript.compile {} with
        | .ok _ => 0
        | .error ds => ds.length) = 2 := by decide +kernel
    cases hp : Program.ofScript strayScript with
    | error e =>
      rw [hp] at hread
      cases hread
    | ok p =>
      cases hds : strayScript.compile {} with
      | ok l =>
        rw [hds] at hcount
        cases hcount
      | error ds =>
        rw [hds] at hcount
        refine ⟨ds, rfl, hcount, fun d hd => ?_⟩
        obtain ⟨finding, -, hfinding⟩ := (diagnostics_point_at_text hp {}).1 ds hds d hd
        exact ⟨finding, hfinding⟩

end JumpCode
