import JumpCode.Proofs.Lowering.Labels

/-!
# The first violation

Whether a function can be lowered can be said without lowering it.  A walk through the function in
the order of its code meets a list of events: names are read and assigned to, functions are called,
loops are entered and left.  An event may violate what it relies on, and this depends only on the
parameters and on the events before it: a name must be known, a callee must be declared with as many
parameters as there are arguments, and a break must be linked to a loop that has been entered.

The main result is `fails_at_first_violation`: lowering succeeds exactly if no event is a violation,
and otherwise fails with the first one.
-/

namespace JumpCode

/-! ### Events -/

/-- What a walk through a function meets. -/
inductive Event where
  | read (origin : Origin) (name : String)
  | call (origin : Origin) (callee : String) (argCount : Nat)
  | assign (name : String)
  | enter (loop : StmtId)
  | leave (mark : Mark) (loop : Option StmtId)
  deriving DecidableEq, Repr

namespace Expr

mutual

/-- The events of an expression.  A callee is looked up before its arguments are walked through, and
    a name is known once the value that it is assigned has been. -/
def events : Expr → List Event
  | .int _ _ | .bool _ _ => []
  | .ident o x => [.read o x]
  | .unary _ _ e => e.events
  | .binary _ _ l r => l.events ++ r.events
  | .assign _ x e => e.events ++ [.assign x]
  | .call o f args => .call o f args.length :: eventsAll args

def eventsAll : List Expr → List Event
  | [] => []
  | e :: es => e.events ++ eventsAll es

end

end Expr

namespace Stmt

mutual

/-- The events of a statement.  A loop is entered before its condition. -/
def events : Stmt → List Event
  | .block _ body => eventsAll body
  | .eval _ e => e.events
  | .ret _ none => []
  | .ret _ (some e) => e.events
  | .ifThen _ c t => c.events ++ t.events
  | .ifElse _ c t e => c.events ++ (t.events ++ e.events)
  | .whileLoop m c body => .enter m.id :: (c.events ++ body.events)
  | .breakLoop m link => [.leave m link]

def eventsAll : List Stmt → List Event
  | [] => []
  | s :: ss => s.events ++ eventsAll ss

end

end Stmt

def Function.events (f : Function) : List Event := f.body.events

/-! ### Violations -/

/-- After the events `before`, in a function with the parameters `params`, an event is a violation of
    the given kind, and the node with the given origin is to blame. -/
inductive Event.Violates (ctx : Context) (params : List String) (before : List Event) :
    Event → LowerErrorKind → Origin → Prop
  | unknownIdentifier {o : Origin} {x : String} (hparam : x ∉ params)
      (hassign : .assign x ∉ before) :
      Violates ctx params before (.read o x) (.unknownIdentifier x) o
  | unknownFunction {o : Origin} {f : String} {n : Nat} (hfind : ctx.find? f = none) :
      Violates ctx params before (.call o f n) (.unknownFunction f) o
  | arityMismatch {o : Origin} {f : String} {n : Nat} {sig : Signature}
      (hfind : ctx.find? f = some sig) (harity : sig.arity ≠ n) :
      Violates ctx params before (.call o f n) (.arityMismatch f sig.arity n) o
  | unresolvedBreak {m : Mark} {link : Option StmtId} (hlink : ∀ i ∈ link, .enter i ∉ before) :
      Violates ctx params before (.leave m link) (.unresolvedBreak m.id link) m.origin

/-- None of the events is a violation after those before it. -/
def Clean (ctx : Context) (params : List String) (events : List Event) : Prop :=
  ∀ before event after, events = before ++ event :: after →
    ∀ kind origin, ¬ event.Violates ctx params before kind origin

/-- The first violation among the events is of the given kind and at the given place. -/
def FirstViolation (ctx : Context) (params : List String) (events : List Event)
    (kind : LowerErrorKind) (origin : Origin) : Prop :=
  ∃ before event after, events = before ++ event :: after ∧ Clean ctx params before ∧
    event.Violates ctx params before kind origin

section Violations

variable {ctx : Context} {params : List String}

/-- An event is a violation in one way at most. -/
theorem Event.Violates.unique {before : List Event} {event : Event} {k k' : LowerErrorKind}
    {o o' : Origin} (h : event.Violates ctx params before k o)
    (h' : event.Violates ctx params before k' o') : k = k' ∧ o = o' := by
  cases h with
  | unknownIdentifier hparam hassign =>
    cases h'
    exact ⟨rfl, rfl⟩
  | unknownFunction hfind =>
    cases h' with
    | unknownFunction => exact ⟨rfl, rfl⟩
    | arityMismatch hfind' =>
      rw [hfind] at hfind'
      cases hfind'
  | arityMismatch hfind harity =>
    cases h' with
    | unknownFunction hfind' =>
      rw [hfind] at hfind'
      cases hfind'
    | arityMismatch hfind' =>
      rw [hfind] at hfind'
      cases hfind'
      exact ⟨rfl, rfl⟩
  | unresolvedBreak hlink =>
    cases h'
    exact ⟨rfl, rfl⟩

theorem Clean.nil : Clean ctx params [] := by
  intro before event after h
  cases before <;> cases h

theorem Clean.snoc {before : List Event} {event : Event} (hbefore : Clean ctx params before)
    (hevent : ∀ kind origin, ¬ event.Violates ctx params before kind origin) :
    Clean ctx params (before ++ [event]) := by
  intro xs e ys h
  rcases List.eq_nil_or_concat ys with rfl | ⟨ys, y, rfl⟩
  · obtain ⟨rfl, he⟩ := List.append_inj' h rfl
    cases he
    exact hevent
  · rw [List.concat_eq_append, ← List.cons_append, ← List.append_assoc] at h
    obtain ⟨rfl, -⟩ := List.append_inj' h rfl
    exact hbefore xs e ys rfl

/-- Events that are clean end where the first violation is, or before. -/
theorem Clean.length_le {before xs after ys : List Event} {event : Event} {kind : LowerErrorKind}
    {origin : Origin} (h : Clean ctx params xs) (hsplit : before ++ event :: after = xs ++ ys)
    (hviolates : event.Violates ctx params before kind origin) : xs.length ≤ before.length := by
  rcases List.append_eq_append_iff.mp hsplit with ⟨mid, hxs, hrest⟩ | ⟨mid, hbefore, -⟩
  · cases mid with
    | nil => simp [hxs]
    | cons e mid =>
      cases hrest
      exact absurd hviolates (h before event mid hxs kind origin)
  · simp [hbefore]

theorem FirstViolation.unique {events : List Event} {k k' : LowerErrorKind} {o o' : Origin}
    (h : FirstViolation ctx params events k o) (h' : FirstViolation ctx params events k' o') :
    k = k' ∧ o = o' := by
  obtain ⟨before, event, after, rfl, hclean, hviolates⟩ := h
  obtain ⟨before', event', after', hsplit, hclean', hviolates'⟩ := h'
  -- Neither of the two events comes before the other, so they are one.
  have hlength : before.length = before'.length :=
    Nat.le_antisymm (hclean.length_le hsplit.symm hviolates') (hclean'.length_le hsplit hviolates)
  obtain ⟨rfl, hrest⟩ := List.append_inj hsplit hlength
  cases hrest
  exact hviolates.unique hviolates'

/-- What is found wrong with some events: nothing, or the first violation. -/
def Verdict (ctx : Context) (params : List String) (events : List Event) : Option LowerError → Prop
  | none => Clean ctx params events
  | some err => ∃ kind origin, err = .ofKind kind origin ∧ FirstViolation ctx params events kind origin

/-- A violation stays the first one whatever comes after it. -/
theorem Verdict.append_some {events : List Event} {err : LowerError}
    (h : Verdict ctx params events (some err)) (more : List Event) :
    Verdict ctx params (events ++ more) (some err) := by
  obtain ⟨kind, origin, rfl, before, event, after, rfl, hclean, hviolates⟩ := h
  exact ⟨kind, origin, rfl, before, event, after ++ more, by simp, hclean, hviolates⟩

/-- The verdict on two parts is that on the first, unless that is clean. -/
theorem Verdict.append {before xs ys : List Event} {u v : Option LowerError}
    (hx : Verdict ctx params (before ++ xs) u)
    (hy : Clean ctx params (before ++ xs) → Verdict ctx params (before ++ xs ++ ys) v) :
    Verdict ctx params (before ++ (xs ++ ys)) (u <|> v) := by
  rw [← List.append_assoc]
  cases u with
  | none => exact hy hx
  | some err => exact hx.append_some ys

end Violations

/-! ### What is known along a walk -/

namespace Expr

mutual

theorem assign_mem_events {x : String} (e : Expr) : .assign x ∈ e.events ↔ x ∈ e.targets := by
  cases e with
  | int o v => simp [events, targets]
  | bool o b => simp [events, targets]
  | ident o y => simp [events, targets]
  | unary o op e => exact assign_mem_events e
  | binary o op l r => simp [events, targets, assign_mem_events l, assign_mem_events r]
  | assign o y e => simp [events, targets, assign_mem_events e]
  | call o f args => simp [events, targets, assign_mem_eventsAll args]

theorem assign_mem_eventsAll {x : String} (es : List Expr) :
    .assign x ∈ eventsAll es ↔ x ∈ targetsAll es := by
  cases es with
  | nil => simp [eventsAll, targetsAll]
  | cons e es => simp [eventsAll, targetsAll, assign_mem_events e, assign_mem_eventsAll es]

end

mutual

theorem enter_not_mem_events {i : StmtId} (e : Expr) : .enter i ∉ e.events := by
  cases e with
  | int o v => simp [events]
  | bool o b => simp [events]
  | ident o y => simp [events]
  | unary o op e => exact enter_not_mem_events e
  | binary o op l r => simp [events, enter_not_mem_events l, enter_not_mem_events r]
  | assign o y e => simp [events, enter_not_mem_events e]
  | call o f args => simp [events, enter_not_mem_eventsAll args]

theorem enter_not_mem_eventsAll {i : StmtId} (es : List Expr) : .enter i ∉ eventsAll es := by
  cases es with
  | nil => simp [eventsAll]
  | cons e es => simp [eventsAll, enter_not_mem_events e, enter_not_mem_eventsAll es]

end

end Expr

namespace Stmt

mutual

theorem assign_mem_events {x : String} (s : Stmt) : .assign x ∈ s.events ↔ x ∈ s.targets := by
  cases s with
  | block m body => exact assign_mem_eventsAll body
  | eval m e => exact e.assign_mem_events
  | ret m e =>
    cases e with
    | none => simp [events, targets]
    | some e => exact e.assign_mem_events
  | ifThen m c t => simp [events, targets, c.assign_mem_events, assign_mem_events t]
  | ifElse m c t e =>
    simp [events, targets, c.assign_mem_events, assign_mem_events t, assign_mem_events e]
  | whileLoop m c body => simp [events, targets, c.assign_mem_events, assign_mem_events body]
  | breakLoop m link => simp [events, targets]

theorem assign_mem_eventsAll {x : String} (ss : List Stmt) :
    .assign x ∈ eventsAll ss ↔ x ∈ targetsAll ss := by
  cases ss with
  | nil => simp [eventsAll, targetsAll]
  | cons s ss => simp [eventsAll, targetsAll, assign_mem_events s, assign_mem_eventsAll ss]

end

mutual

theorem enter_mem_events {i : StmtId} (s : Stmt) : .enter i ∈ s.events ↔ i ∈ s.loops := by
  cases s with
  | block m body => exact enter_mem_eventsAll body
  | eval m e => simp [events, loops, e.enter_not_mem_events]
  | ret m e =>
    cases e with
    | none => simp [events, loops]
    | some e => simp [events, loops, e.enter_not_mem_events]
  | ifThen m c t => simp [events, loops, c.enter_not_mem_events, enter_mem_events t]
  | ifElse m c t e =>
    simp [events, loops, c.enter_not_mem_events, enter_mem_events t, enter_mem_events e]
  | whileLoop m c body => simp [events, loops, c.enter_not_mem_events, enter_mem_events body]
  | breakLoop m link => simp [events, loops]

theorem enter_mem_eventsAll {i : StmtId} (ss : List Stmt) :
    .enter i ∈ eventsAll ss ↔ i ∈ loopsAll ss := by
  cases ss with
  | nil => simp [eventsAll, loopsAll]
  | cons s ss => simp [eventsAll, loopsAll, enter_mem_events s, enter_mem_eventsAll ss]

end

end Stmt

/-- The names `ns` are those that are known after the events `before`. -/
def KnownNames (params : List String) (before : List Event) (ns : List String) : Prop :=
  ∀ x, x ∈ ns ↔ x ∈ params ∨ .assign x ∈ before

/-- The loops `entered` are those that have been entered in the events `before`. -/
def EnteredLoops (before : List Event) (entered : List StmtId) : Prop :=
  ∀ i, i ∈ entered ↔ .enter i ∈ before

section Known

variable {params : List String} {before : List Event} {ns : List String} {entered : List StmtId}

theorem KnownNames.append (h : KnownNames params before ns) {events : List Event}
    {targets : List String} (ht : ∀ x, .assign x ∈ events ↔ x ∈ targets) :
    KnownNames params (before ++ events) (addNames ns targets) := by
  intro x
  rw [mem_addNames, h x, List.mem_append, ht x, or_assoc]

theorem EnteredLoops.append (h : EnteredLoops before entered) {events : List Event}
    {loops : List StmtId} (hl : ∀ i, .enter i ∈ events ↔ i ∈ loops) :
    EnteredLoops (before ++ events) (loops.reverse ++ entered) := by
  intro i
  rw [List.mem_append, List.mem_reverse, List.mem_append, hl i, h i, or_comm]

/-- An expression enters no loop. -/
theorem EnteredLoops.append_expr (h : EnteredLoops before entered) (e : Expr) :
    EnteredLoops (before ++ e.events) entered := by
  intro i
  simp [h i, e.enter_not_mem_events]

end Known

/-! ### The walk finds the first violation -/

section Walk

variable {ctx : Context} {params : List String}

theorem verdict_read {before : List Event} {ns : List String} (hns : KnownNames params before ns)
    (hbefore : Clean ctx params before) (o : Origin) (x : String) :
    Verdict ctx params (before ++ [.read o x]) ((Expr.ident o x).violation? ctx ns) := by
  by_cases hx : x ∈ ns
  · have hnone : (Expr.ident o x).violation? ctx ns = none := if_pos hx
    rw [hnone]
    refine hbefore.snoc fun kind origin hviolates => ?_
    cases hviolates with
    | unknownIdentifier hparam hassign =>
      rcases (hns x).mp hx with h | h
      · exact hparam h
      · exact hassign h
  · have hsome : (Expr.ident o x).violation? ctx ns = some (.ofKind (.unknownIdentifier x) o) :=
      if_neg hx
    have hunknown := mt (hns x).mpr hx
    rw [not_or] at hunknown
    rw [hsome]
    exact ⟨_, _, rfl, before, _, [], rfl, hbefore, .unknownIdentifier hunknown.1 hunknown.2⟩

theorem Clean.assign {before : List Event} (hbefore : Clean ctx params before) (x : String) :
    Clean ctx params (before ++ [.assign x]) := by
  apply hbefore.snoc
  intro kind origin hviolates
  cases hviolates

theorem Clean.enter {before : List Event} (hbefore : Clean ctx params before) (i : StmtId) :
    Clean ctx params (before ++ [.enter i]) := by
  apply hbefore.snoc
  intro kind origin hviolates
  cases hviolates

namespace Expr

mutual

/-- What is wrong with an expression is the first violation among its events. -/
theorem verdict {before : List Event} {ns : List String} (hns : KnownNames params before ns)
    (hbefore : Clean ctx params before) (e : Expr) :
    Verdict ctx params (before ++ e.events) (e.violation? ctx ns) := by
  cases e with
  | int o v => simpa [events, violation?, Verdict] using hbefore
  | bool o b => simpa [events, violation?, Verdict] using hbefore
  | ident o x => exact verdict_read hns hbefore o x
  | unary o op e => exact verdict hns hbefore e
  | binary o op l r =>
    refine (verdict hns hbefore l).append fun hclean => ?_
    exact verdict (hns.append fun _ => l.assign_mem_events) hclean r
  | assign o x e =>
    have he := verdict hns hbefore e
    rw [events, violation?, ← List.append_assoc]
    cases hv : e.violation? ctx ns with
    | none =>
      rw [hv] at he
      exact Clean.assign he x
    | some err =>
      rw [hv] at he
      exact he.append_some _
  | call o f args =>
    rw [events, violation?, List.append_cons]
    -- The callee is judged first; only if it is in order do the arguments count.
    cases hfind : ctx.find? f with
    | none =>
      refine Verdict.append_some ⟨_, _, rfl, before, _, [], rfl, hbefore, ?_⟩ _
      exact .unknownFunction hfind
    | some sig =>
      by_cases harity : sig.arity = args.length
      · have hcall : Clean ctx params (before ++ [.call o f args.length]) := by
          apply hbefore.snoc
          intro kind origin hviolates
          cases hviolates with
          | unknownFunction h =>
            rw [hfind] at h
            cases h
          | arityMismatch h hne =>
            rw [hfind] at h
            cases h
            exact hne harity
        have hns' : KnownNames params (before ++ [.call o f args.length]) ns := by
          intro x
          simp [hns x]
        simp only [if_pos harity]
        exact verdictAll hns' hcall args
      · simp only [if_neg harity]
        refine Verdict.append_some ⟨_, _, rfl, before, _, [], rfl, hbefore, ?_⟩ _
        exact .arityMismatch hfind harity

theorem verdictAll {before : List Event} {ns : List String} (hns : KnownNames params before ns)
    (hbefore : Clean ctx params before) (es : List Expr) :
    Verdict ctx params (before ++ eventsAll es) (violationAll? ctx ns es) := by
  cases es with
  | nil => simpa [eventsAll, violationAll?, Verdict] using hbefore
  | cons e es =>
    refine (verdict hns hbefore e).append fun hclean => ?_
    exact verdictAll (hns.append fun _ => e.assign_mem_events) hclean es

end

end Expr

theorem verdict_leave {before : List Event} {ns : List String} {entered : List StmtId}
    (hentered : EnteredLoops before entered) (hbefore : Clean ctx params before) (m : Mark)
    (link : Option StmtId) :
    Verdict ctx params (before ++ [.leave m link])
      ((Stmt.breakLoop m link).violation? ctx ns entered) := by
  by_cases hlink : link.any entered.contains
  · have hnone : (Stmt.breakLoop m link).violation? ctx ns entered = none := if_pos hlink
    rw [hnone]
    refine hbefore.snoc fun kind origin hviolates => ?_
    cases hviolates with
    | unresolvedBreak hout =>
      cases link with
      | none => cases hlink
      | some i => exact hout i rfl ((hentered i).mp (by simpa using hlink))
  · have hsome : (Stmt.breakLoop m link).violation? ctx ns entered =
        some (.ofKind (.unresolvedBreak m.id link) m.origin) := if_neg hlink
    rw [hsome]
    refine ⟨_, _, rfl, before, _, [], rfl, hbefore, .unresolvedBreak fun i hi henter => hlink ?_⟩
    cases hi
    simpa using (hentered i).mpr henter

namespace Stmt

mutual

/-- What is wrong with a statement is the first violation among its events. -/
theorem verdict {before : List Event} {ns : List String} {entered : List StmtId}
    (hns : KnownNames params before ns) (hentered : EnteredLoops before entered)
    (hbefore : Clean ctx params before) (s : Stmt) :
    Verdict ctx params (before ++ s.events) (s.violation? ctx ns entered) := by
  cases s with
  | block m body => exact verdictAll hns hentered hbefore body
  | eval m e => exact e.verdict hns hbefore
  | ret m e =>
    cases e with
    | none => simpa [events, violation?, Verdict] using hbefore
    | some e => exact e.verdict hns hbefore
  | ifThen m c t =>
    refine (c.verdict hns hbefore).append fun hclean => ?_
    exact verdict (hns.append fun _ => c.assign_mem_events) (hentered.append_expr c) hclean t
  | ifElse m c t e =>
    refine (c.verdict hns hbefore).append fun hc => ?_
    have hnames := hns.append fun _ => c.assign_mem_events
    have hloops := hentered.append_expr c
    refine (verdict hnames hloops hc t).append fun ht => ?_
    rw [addNames_append]
    exact verdict (hnames.append fun _ => assign_mem_events t)
      (hloops.append fun _ => enter_mem_events t) ht e
  | whileLoop m c body =>
    rw [events, List.append_cons]
    have hnames : KnownNames params (before ++ [.enter m.id]) ns := by
      intro x
      simp [hns x]
    have hloops : EnteredLoops (before ++ [.enter m.id]) (m.id :: entered) := by
      intro i
      simp [hentered i, or_comm]
    refine (c.verdict hnames (hbefore.enter m.id)).append fun hc => ?_
    exact verdict (hnames.append fun _ => c.assign_mem_events) (hloops.append_expr c) hc body
  | breakLoop m link => exact verdict_leave hentered hbefore m link

theorem verdictAll {before : List Event} {ns : List String} {entered : List StmtId}
    (hns : KnownNames params before ns) (hentered : EnteredLoops before entered)
    (hbefore : Clean ctx params before) (ss : List Stmt) :
    Verdict ctx params (before ++ eventsAll ss) (violationAll? ctx ns entered ss) := by
  cases ss with
  | nil => simpa [eventsAll, violationAll?, Verdict] using hbefore
  | cons s ss =>
    refine (verdict hns hentered hbefore s).append fun hclean => ?_
    exact verdictAll (hns.append fun _ => assign_mem_events s)
      (hentered.append fun _ => enter_mem_events s) hclean ss

end

end Stmt

end Walk

namespace Function

variable {ctx : Context} {f : Function}

/-- What is wrong with a function is the first violation among its events. -/
theorem verdict (ctx : Context) (f : Function) :
    Verdict ctx f.params f.events (f.violation? ctx) := by
  have hns : KnownNames f.params [] (addNames [] f.params) := by
    intro x
    simp [mem_addNames]
  have hentered : EnteredLoops [] [] := by
    intro i
    simp
  exact Stmt.verdict hns hentered .nil f.body

/-- A function with a violation fails with the first one, however many labels it takes. -/
theorem lower_of_firstViolation {kind : LowerErrorKind} {origin : Origin}
    (h : FirstViolation ctx f.params f.events kind origin) :
    f.lower ctx = .error ⟨kind, some f.name, origin⟩ := by
  have hverdict := f.verdict ctx
  cases hv : f.violation? ctx with
  | none =>
    rw [hv] at hverdict
    obtain ⟨before, event, after, hsplit, -, hviolates⟩ := h
    exact absurd hviolates (hverdict before event after hsplit kind origin)
  | some err =>
    rw [hv] at hverdict
    obtain ⟨k, o, rfl, hfirst⟩ := hverdict
    obtain ⟨rfl, rfl⟩ := hfirst.unique h
    exact lower_of_violation_some hv

/-- A function that fails does so with its first violation, unless it takes more labels than there
    are. -/
theorem firstViolation_of_lower (hn : f.body.labelCount ≤ UInt32.size) {e : LowerError}
    (h : f.lower ctx = .error e) :
    ∃ kind origin, e = ⟨kind, some f.name, origin⟩ ∧
      FirstViolation ctx f.params f.events kind origin := by
  have hverdict := f.verdict ctx
  cases hv : f.violation? ctx with
  | none =>
    obtain ⟨r, hr, -⟩ := lower_verifying hv hn
    rw [hr] at h
    cases h
  | some err =>
    rw [hv] at hverdict
    obtain ⟨kind, origin, rfl, hfirst⟩ := hverdict
    rw [lower_of_violation_some hv] at h
    cases h
    exact ⟨kind, origin, rfl, hfirst⟩

end Function

/-- **Lowering fails at the first violation.**  Take the events that a walk through a function meets,
    in the order of its code.  If the function takes no more labels than there are, it can be lowered
    exactly if none of the events is a violation after those before it.  Otherwise the failure is the
    first violation, with the origin of its node, in this function. -/
theorem fails_at_first_violation (ctx : Context) (f : Function)
    (hn : f.body.labelCount ≤ UInt32.size) :
    ((∃ r, f.lower ctx = .ok r) ↔ Clean ctx f.params f.events) ∧
    ∀ e, f.lower ctx = .error e ↔ ∃ kind origin, e = ⟨kind, some f.name, origin⟩ ∧
      FirstViolation ctx f.params f.events kind origin := by
  have hverdict := f.verdict ctx
  refine ⟨⟨?_, ?_⟩, fun e => ⟨Function.firstViolation_of_lower hn, ?_⟩⟩
  · rintro ⟨r, hr⟩
    rw [(Function.finish_of_lower hr).1] at hverdict
    exact hverdict
  · intro hclean
    cases hlower : f.lower ctx with
    | ok r => exact ⟨r, rfl⟩
    | error e =>
      obtain ⟨kind, origin, -, before, event, after, hsplit, -, hviolates⟩ :=
        Function.firstViolation_of_lower hn hlower
      exact absurd hviolates (hclean before event after hsplit kind origin)
  · rintro ⟨kind, origin, rfl, hfirst⟩
    exact Function.lower_of_firstViolation hfirst

/-- A function that reads a name which the condition of a loop assigns, and then leaves a loop that it
    enters only later. -/
def hastyBreak : Function where
  name := "f"
  params := ["a"]
  body := .block ⟨⟨6⟩, .unknown⟩
    [.whileLoop ⟨⟨1⟩, .unknown⟩ (.assign .unknown "x" (.ident .unknown "a"))
        (.block ⟨⟨0⟩, .unknown⟩ []),
      .eval ⟨⟨2⟩, .unknown⟩ (.ident .unknown "x"),
      .breakLoop ⟨⟨3⟩, .unknown⟩ (some ⟨5⟩),
      .whileLoop ⟨⟨5⟩, .unknown⟩ (.ident .unknown "y") (.block ⟨⟨4⟩, .unknown⟩ [])]
  origin := .unknown

theorem fails_at_first_violation_hastyBreak :
    hastyBreak.body.labelCount ≤ UInt32.size ∧
    hastyBreak.lower (.empty {}) =
      .error ⟨.unresolvedBreak ⟨3⟩ (some ⟨5⟩), some "f", .unknown⟩ ∧
    FirstViolation (.empty {}) ["a"] hastyBreak.events (.unresolvedBreak ⟨3⟩ (some ⟨5⟩)) .unknown := by
  have hn : hastyBreak.body.labelCount ≤ UInt32.size := by decide
  have hlower : hastyBreak.lower (.empty {}) =
      .error ⟨.unresolvedBreak ⟨3⟩ (some ⟨5⟩), some "f", .unknown⟩ := rfl
  obtain ⟨kind, origin, he, hfirst⟩ :=
    ((fails_at_first_violation (.empty {}) hastyBreak hn).2 _).mp hlower
  cases he
  exact ⟨hn, hlower, hfirst⟩

end JumpCode
