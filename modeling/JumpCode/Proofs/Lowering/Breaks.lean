import JumpCode.Proofs.Ast.Checked
import JumpCode.Proofs.Ast.Numbering
import JumpCode.Proofs.Lowering.Labels

/-!
# Breaks leave the innermost loop

Checking a program links every break to the innermost loop around it, by the number of that loop.
Lowering looks the number up among all loops entered so far, finished ones included, and takes the
last that has it.  The two agree as long as no two loops of a function share a number: then no loop
inside or beside the one that is meant can stand in its way.

`Enclosed` is what carries this through a walk.  It says of a statement that its breaks are linked
to the loops around them, and of the point that the walk has got to that the innermost loop around
the statement can still be found there.  `IfThenAt`, `IfElseAt` and `WhileLoopAt` say where in the
code the parts of a statement stand.
-/

namespace JumpCode

namespace Stmt

/-! ### Linked breaks -/

mutual

/-- Every break of a statement names the innermost loop around it, when `loop` is the innermost one
    around the statement. -/
def Linked (loop : Option StmtId) : Stmt → Prop
  | .block _ body => LinkedAll loop body
  | .eval _ _ | .ret _ _ => True
  | .ifThen _ _ t => t.Linked loop
  | .ifElse _ _ t e => t.Linked loop ∧ e.Linked loop
  | .whileLoop m _ body => body.Linked (some m.id)
  | .breakLoop _ link => link.isSome ∧ link = loop

def LinkedAll (loop : Option StmtId) : List Stmt → Prop
  | [] => True
  | s :: ss => s.Linked loop ∧ LinkedAll loop ss

end

mutual

/-- Linking a statement without stray breaks links all of them. -/
theorem linked_link (loop : Option StmtId) (s : Stmt) (h : s.strayBreaks loop.isSome = []) :
    (s.link loop).Linked loop := by
  cases s with
  | block m body => exact linkedAll_linkAll loop body h
  | eval m e => trivial
  | ret m e => trivial
  | ifThen m c t => exact linked_link loop t h
  | ifElse m c t e =>
    obtain ⟨ht, he⟩ := List.append_eq_nil_iff.mp h
    exact ⟨linked_link loop t ht, linked_link loop e he⟩
  | whileLoop m c body => exact linked_link (some m.id) body h
  | breakLoop m old =>
    cases loop with
    | none => cases h
    | some i => exact ⟨rfl, rfl⟩

theorem linkedAll_linkAll (loop : Option StmtId) (ss : List Stmt)
    (h : strayBreaksAll loop.isSome ss = []) : LinkedAll loop (linkAll loop ss) := by
  cases ss with
  | nil => trivial
  | cons s ss =>
    obtain ⟨hs, hss⟩ := List.append_eq_nil_iff.mp h
    exact ⟨linked_link loop s hs, linkedAll_linkAll loop ss hss⟩

end

mutual

@[simp] theorem loops_link (loop : Option StmtId) (s : Stmt) : (s.link loop).loops = s.loops := by
  cases s with
  | block m body => exact loops_linkAll loop body
  | eval m e => rfl
  | ret m e => rfl
  | ifThen m c t => exact loops_link loop t
  | ifElse m c t e => rw [link, loops, loops, loops_link loop t, loops_link loop e]
  | whileLoop m c body => rw [link, loops, loops, loops_link (some m.id) body]
  | breakLoop m old => rfl

@[simp] theorem loops_linkAll (loop : Option StmtId) (ss : List Stmt) :
    loopsAll (linkAll loop ss) = loopsAll ss := by
  cases ss with
  | nil => rfl
  | cons s ss => rw [linkAll, loopsAll, loopsAll, loops_link loop s, loops_linkAll loop ss]

end

mutual

@[simp] theorem labelCount_link (loop : Option StmtId) (s : Stmt) :
    (s.link loop).labelCount = s.labelCount := by
  cases s with
  | block m body => exact labelCount_linkAll loop body
  | eval m e => rfl
  | ret m e => rfl
  | ifThen m c t => rw [link, labelCount, labelCount, labelCount_link loop t]
  | ifElse m c t e =>
    rw [link, labelCount, labelCount, labelCount_link loop t, labelCount_link loop e]
  | whileLoop m c body => rw [link, labelCount, labelCount, labelCount_link (some m.id) body]
  | breakLoop m old => rfl

@[simp] theorem labelCount_linkAll (loop : Option StmtId) (ss : List Stmt) :
    labelCountAll (linkAll loop ss) = labelCountAll ss := by
  cases ss with
  | nil => rfl
  | cons s ss =>
    rw [linkAll, labelCountAll, labelCountAll, labelCount_link loop s, labelCount_linkAll loop ss]

end

mutual

/-- A statement does not change which exit belongs to a loop that it does not hold. -/
theorem lookup_after {p : Point} {s : Stmt} {i : StmtId} (h : i ∉ s.loops) :
    (s.after p).exits.lookup i = p.exits.lookup i := by
  cases s with
  | block m body =>
    have h : i ∉ loopsAll body := h
    exact lookup_afterAll h
  | eval m e => rfl
  | ret m e => cases e <;> rfl
  | ifThen m c t => exact lookup_after (s := t) h
  | ifElse m c t e =>
    rw [loops, List.mem_append, not_or] at h
    exact (lookup_after (s := e) h.2).trans (lookup_after (s := t) h.1)
  | whileLoop m c body =>
    rw [loops, List.mem_cons, not_or] at h
    have hne : (i == m.id) = false := beq_eq_false_iff_ne.mpr h.1
    rw [after, lookup_after (s := body) h.2, Point.useRegs_exits, Point.enter_exits,
      List.lookup_cons, hne]
  | breakLoop m link => rfl

theorem lookup_afterAll {p : Point} {ss : List Stmt} {i : StmtId} (h : i ∉ loopsAll ss) :
    (afterAll p ss).exits.lookup i = p.exits.lookup i := by
  cases ss with
  | nil => rfl
  | cons s ss =>
    rw [loopsAll, List.mem_append, not_or] at h
    rw [afterAll, lookup_afterAll h.2, lookup_after h.1]

end

end Stmt

/-! ### What holds of a statement inside its loops -/

/-- A statement as it stands in a linked tree: `loop` is the innermost loop around it with the exit
    of that loop, and `p` is the point that the walk has got to. -/
structure Enclosed (p : Point) (loop : Option (StmtId × Label)) (s : Stmt) : Prop where
  /-- The breaks are linked. -/
  linked : s.Linked (loop.map Prod.fst)
  /-- The loop around the statement has been entered, and no later one has its number. -/
  known : ∀ x ∈ loop, p.exits.lookup x.1 = some x.2
  /-- Nor has any loop of the statement itself. -/
  fresh : ∀ x ∈ loop, x.1 ∉ s.loops
  nodup : s.loops.Nodup

namespace Enclosed

variable {p : Point} {loop : Option (StmtId × Label)} {m : Mark} {c : Expr} {s t e body : Stmt}
  {ss : List Stmt}

theorem ifThen (h : Enclosed p loop (.ifThen m c t)) :
    Enclosed ((p.useRegs c.regCount).useLabels 1) loop t :=
  ⟨h.linked, h.known, h.fresh, h.nodup⟩

theorem thenBranch (h : Enclosed p loop (.ifElse m c t e)) :
    Enclosed ((p.useRegs c.regCount).useLabels 1) loop t where
  linked := h.linked.1
  known := h.known
  fresh x hx hmem := h.fresh x hx (List.mem_append_left _ hmem)
  nodup := (List.nodup_append.mp h.nodup).1

theorem elseBranch (h : Enclosed p loop (.ifElse m c t e)) :
    Enclosed ((t.after ((p.useRegs c.regCount).useLabels 1)).useLabels 1) loop e where
  linked := h.linked.2
  known x hx := by
    rw [Point.useLabels_exits, Stmt.lookup_after (h.thenBranch.fresh x hx)]
    exact h.known x hx
  fresh x hx hmem := h.fresh x hx (List.mem_append_right _ hmem)
  nodup := (List.nodup_append.mp h.nodup).2.1

/-- Inside a loop that loop is the innermost one, and it has just been entered. -/
theorem whileLoop (h : Enclosed p loop (.whileLoop m c body)) :
    Enclosed ((p.enter m.id).useRegs c.regCount) (some (m.id, .ofNat (p.label + 1))) body where
  linked := h.linked
  known x hx := by
    cases hx
    simp
  fresh x hx := by
    cases hx
    exact (List.nodup_cons.mp h.nodup).1
  nodup := (List.nodup_cons.mp h.nodup).2

theorem head (h : Enclosed p loop (.block m (s :: ss))) : Enclosed p loop s where
  linked := h.linked.1
  known := h.known
  fresh x hx hmem := h.fresh x hx (List.mem_append_left _ hmem)
  nodup := (List.nodup_append.mp h.nodup).1

theorem tail (h : Enclosed p loop (.block m (s :: ss))) :
    Enclosed (s.after p) loop (.block m ss) where
  linked := h.linked.2
  known x hx := by
    rw [Stmt.lookup_after (h.head.fresh x hx)]
    exact h.known x hx
  fresh x hx hmem := h.fresh x hx (List.mem_append_right _ hmem)
  nodup := (List.nodup_append.mp h.nodup).2.1

/-- A break finds the exit of the loop around it. -/
theorem exit_of_break {link : Option StmtId} (h : Enclosed p loop (.breakLoop m link)) :
    ∃ x, loop = some x ∧ p.exit? link = some x.2 := by
  obtain ⟨hsome, hlink⟩ := h.linked
  cases loop with
  | none =>
    rw [hlink] at hsome
    cases hsome
  | some x =>
    refine ⟨x, rfl, ?_⟩
    rw [hlink]
    exact h.known x rfl

end Enclosed

/-- The body of a linked function stands in no loop. -/
theorem Function.enclosed_link {f : Function} (hids : f.body.loops.Nodup)
    (hstray : f.body.strayBreaks false = []) : Enclosed .start none f.link.body where
  linked := Stmt.linked_link none f.body hstray
  known := nofun
  fresh := nofun
  nodup := by
    rw [Function.link, Stmt.loops_link]
    exact hids

namespace Stmt

mutual

/-- A linked statement fails for reasons that a checked program can have. -/
theorem kind_of_enclosed {ctx : Context} {ns : List String} {p : Point}
    {loop : Option (StmtId × Label)} {s : Stmt} (h : Enclosed p loop s) {err : LowerError}
    (hv : s.violation? ctx ns (p.exits.map Prod.fst) = some err) : err.kind.isInternal = false := by
  cases s with
  | block m body => exact kind_of_enclosedAll h hv
  | eval m e => exact Expr.kind_of_violation hv
  | ret m e =>
    cases e with
    | none => cases hv
    | some e => exact Expr.kind_of_violation hv
  | ifThen m c t =>
    rcases orElse_eq_some hv with hv | hv
    · exact Expr.kind_of_violation hv
    · exact kind_of_enclosed h.ifThen hv
  | ifElse m c t e =>
    rcases orElse_eq_some hv with hv | hv
    · exact Expr.kind_of_violation hv
    · rcases orElse_eq_some hv with hv | hv
      · exact kind_of_enclosed h.thenBranch hv
      · have hexits := entered_after ((p.useRegs c.regCount).useLabels 1) t
        exact kind_of_enclosed h.elseBranch (hexits ▸ hv)
  | whileLoop m c body =>
    rcases orElse_eq_some hv with hv | hv
    · exact Expr.kind_of_violation hv
    · exact kind_of_enclosed h.whileLoop hv
  | breakLoop m link =>
    obtain ⟨x, -, hexit⟩ := h.exit_of_break
    have hentered : link.any (p.exits.map Prod.fst).contains := by
      rw [← Point.exit?_isSome, hexit]
      rfl
    rw [violation?, if_pos hentered] at hv
    cases hv

theorem kind_of_enclosedAll {ctx : Context} {ns : List String} {p : Point}
    {loop : Option (StmtId × Label)} {m : Mark} {ss : List Stmt}
    (h : Enclosed p loop (.block m ss)) {err : LowerError}
    (hv : violationAll? ctx ns (p.exits.map Prod.fst) ss = some err) :
    err.kind.isInternal = false := by
  cases ss with
  | nil => cases hv
  | cons s ss =>
    rcases orElse_eq_some hv with hv | hv
    · exact kind_of_enclosed h.head hv
    · rw [← entered_after] at hv
      exact kind_of_enclosedAll h.tail hv

end

end Stmt

/-! ### Where the parts of a statement stand -/

namespace Stmt

variable {code : List Instr} {slot : String → Slot} {p : Point} {i : Nat} {m : Mark} {c : Expr}
  {t e body : Stmt}

/-- The parts of the code of a statement with one branch, from the place `i` on. -/
structure IfThenAt (code : List Instr) (slot : String → Slot) (p : Point) (i : Nat) (c : Expr)
    (t : Stmt) : Prop where
  cond : Stands code i (c.code slot p.reg)
  branch : code[i + c.size]? = some (.branchFalse (c.result p.reg) (.ofNat p.label))
  thenBranch : Stands code (i + c.size + 1) (t.code slot ((p.useRegs c.regCount).useLabels 1))
  last : code[i + c.size + 1 + t.size]? = some (.label (.ofNat p.label))

theorem ifThenAt (h : Stands code i ((ifThen m c t).code slot p)) :
    IfThenAt code slot p i c t := by
  have hbranch := h.right
  rw [Expr.length_code] at hbranch
  have hlast := hbranch.tail.right.head
  rw [length_code] at hlast
  exact ⟨h.left, hbranch.head, hbranch.tail.left, hlast⟩

/-- The parts of the code of a statement with two branches.  The walk has got to `q` when it has
    come through the first. -/
structure IfElseAt (code : List Instr) (slot : String → Slot) (p q : Point) (i : Nat) (c : Expr)
    (t e : Stmt) : Prop where
  cond : Stands code i (c.code slot p.reg)
  branch : code[i + c.size]? = some (.branchFalse (c.result p.reg) (.ofNat p.label))
  thenBranch : Stands code (i + c.size + 1) (t.code slot ((p.useRegs c.regCount).useLabels 1))
  skip : code[i + c.size + 1 + t.size]? = some (.jump (.ofNat q.label))
  middle : code[i + c.size + 1 + t.size + 1]? = some (.label (.ofNat p.label))
  elseBranch : Stands code (i + c.size + 1 + t.size + 1 + 1) (e.code slot (q.useLabels 1))
  last : code[i + c.size + 1 + t.size + 1 + 1 + e.size]? = some (.label (.ofNat q.label))

theorem ifElseAt (h : Stands code i ((ifElse m c t e).code slot p)) :
    IfElseAt code slot p (t.after ((p.useRegs c.regCount).useLabels 1)) i c t e := by
  have hbranch := h.right
  rw [Expr.length_code] at hbranch
  have hskip := hbranch.tail.right
  rw [length_code] at hskip
  have hlast := hskip.tail.tail.right.head
  rw [length_code] at hlast
  exact ⟨h.left, hbranch.head, hbranch.tail.left, hskip.head, hskip.tail.head,
    hskip.tail.tail.left, hlast⟩

/-- The parts of the code of a loop. -/
structure WhileLoopAt (code : List Instr) (slot : String → Slot) (p : Point) (i : Nat) (m : Mark)
    (c : Expr) (body : Stmt) : Prop where
  top : code[i]? = some (.label (.ofNat p.label))
  cond : Stands code (i + 1) (c.code slot p.reg)
  branch : code[i + 1 + c.size]? = some (.branchFalse (c.result p.reg) (.ofNat (p.label + 1)))
  inside : Stands code (i + 1 + c.size + 1) (body.code slot ((p.enter m.id).useRegs c.regCount))
  back : code[i + 1 + c.size + 1 + body.size]? = some (.jump (.ofNat p.label))
  last : code[i + 1 + c.size + 1 + body.size + 1]? = some (.label (.ofNat (p.label + 1)))

theorem whileLoopAt (h : Stands code i ((whileLoop m c body).code slot p)) :
    WhileLoopAt code slot p i m c body := by
  have hbranch := h.tail.right
  rw [Expr.length_code] at hbranch
  have hback := hbranch.tail.right
  rw [length_code] at hback
  exact ⟨h.head, h.tail.left, hbranch.head, hbranch.tail.left, hback.head, hback.tail.head⟩

/-! The sizes of the three, with the parts in the order in which they stand. -/

theorem add_size_ifThen (i : Nat) :
    i + (ifThen m c t).size = i + c.size + 1 + t.size + 1 := by
  rw [size]
  omega

theorem add_size_ifElse (i : Nat) :
    i + (ifElse m c t e).size = i + c.size + 1 + t.size + 1 + 1 + e.size + 1 := by
  rw [size]
  omega

theorem add_size_whileLoop (i : Nat) :
    i + (whileLoop m c body).size = i + 1 + c.size + 1 + body.size + 1 + 1 := by
  rw [size]
  omega

end Stmt

/-! ### Where breaks jump to -/

/-- A loop goes back to the label at its start, and `exit` stands right after that jump, at the end
    of the code of the loop. -/
def Placed.HasExit (code : List Instr) (loop : Placed) (exit : Label) : Prop :=
  ∃ m c body top, loop.stmt = .whileLoop m c body ∧ code[loop.place]? = some (.label top) ∧
    code[loop.place + loop.stmt.size - 2]? = some (.jump top) ∧
    code[loop.place + loop.stmt.size - 1]? = some (.label exit)

namespace Stmt

variable {code : List Instr} {slot : String → Slot}

/-- The code of a loop has the exit that was noted when the loop was entered. -/
theorem hasExit_whileLoop {p : Point} {i : Nat} {m : Mark} {c : Expr} {body : Stmt}
    (hcode : Stands code i ((whileLoop m c body).code slot p)) (outer : Option Placed) :
    Placed.HasExit code ⟨whileLoop m c body, i, outer⟩ (.ofNat (p.label + 1)) := by
  have h := whileLoopAt hcode
  refine ⟨m, c, body, .ofNat p.label, rfl, h.top, ?_, ?_⟩
  · rw [add_size_whileLoop]
    exact h.back
  · rw [add_size_whileLoop]
    exact h.last

mutual

/-- Each break of a statement jumps to the exit of the innermost loop around it. -/
theorem jump_of_break {p : Point} {loop : Option (StmtId × Label)} {s : Stmt}
    (h : Enclosed p loop s) {i : Nat} (hcode : Stands code i (s.code slot p))
    {outer : Option Placed} (houter : ∀ x ∈ loop, ∃ w ∈ outer, w.HasExit code x.2) {q : Placed}
    (hq : q ∈ s.placed outer i) {m : Mark} {link : Option StmtId}
    (hbreak : q.stmt = .breakLoop m link) :
    ∃ w ∈ q.loop, ∃ exit, w.HasExit code exit ∧ code[q.place]? = some (.jump exit) := by
  cases s with
  | block m body =>
    rcases List.mem_cons.mp hq with rfl | hq
    · cases hbreak
    · exact jump_of_breakAll h hcode houter hq hbreak
  | eval m e =>
    rw [List.mem_singleton.mp hq] at hbreak
    cases hbreak
  | ret m e =>
    rw [List.mem_singleton.mp hq] at hbreak
    cases hbreak
  | ifThen m c t =>
    rcases List.mem_cons.mp hq with rfl | hq
    · cases hbreak
    · exact jump_of_break h.ifThen (ifThenAt hcode).thenBranch houter hq hbreak
  | ifElse m c t e =>
    rcases List.mem_cons.mp hq with rfl | hq
    · cases hbreak
    · rcases List.mem_append.mp hq with hq | hq
      · exact jump_of_break h.thenBranch (ifElseAt hcode).thenBranch houter hq hbreak
      · rw [show i + c.size + t.size + 3 = i + c.size + 1 + t.size + 1 + 1 by omega] at hq
        exact jump_of_break h.elseBranch (ifElseAt hcode).elseBranch houter hq hbreak
  | whileLoop m c body =>
    rcases List.mem_cons.mp hq with rfl | hq
    · cases hbreak
    · rw [show i + c.size + 2 = i + 1 + c.size + 1 by omega] at hq
      refine jump_of_break h.whileLoop (whileLoopAt hcode).inside ?_ hq hbreak
      intro x hx
      cases hx
      exact ⟨_, rfl, hasExit_whileLoop hcode outer⟩
  | breakLoop m link =>
    obtain ⟨x, hx, hexit⟩ := h.exit_of_break
    obtain ⟨w, hw, hhas⟩ := houter x hx
    rw [List.mem_singleton.mp hq]
    rw [Stmt.code, hexit] at hcode
    exact ⟨w, hw, x.2, hhas, hcode.head⟩

theorem jump_of_breakAll {p : Point} {loop : Option (StmtId × Label)} {m' : Mark}
    {ss : List Stmt} (h : Enclosed p loop (.block m' ss)) {i : Nat}
    (hcode : Stands code i (codeAll slot p ss)) {outer : Option Placed}
    (houter : ∀ x ∈ loop, ∃ w ∈ outer, w.HasExit code x.2) {q : Placed}
    (hq : q ∈ placedAll outer i ss) {m : Mark} {link : Option StmtId}
    (hbreak : q.stmt = .breakLoop m link) :
    ∃ w ∈ q.loop, ∃ exit, w.HasExit code exit ∧ code[q.place]? = some (.jump exit) := by
  cases ss with
  | nil => cases hq
  | cons s ss =>
    rcases List.mem_append.mp hq with hq | hq
    · exact jump_of_break h.head hcode.left houter hq hbreak
    · have hss := hcode.right
      rw [length_code] at hss
      exact jump_of_breakAll h.tail hss houter hq hbreak

end

end Stmt

/-! ### Functions and programs -/

namespace Function

variable {ctx : Context} {f : Function}

/-- A function whose breaks are linked does not fail over a break. -/
theorem not_unresolvedBreak_of_lower_link (hids : f.body.loops.Nodup)
    (hstray : f.body.strayBreaks false = []) {e : LowerError} (h : f.link.lower ctx = .error e)
    (s : StmtId) (loop : Option StmtId) : e.kind ≠ .unresolvedBreak s loop := by
  intro hkind
  cases hv : f.link.violation? ctx with
  | none =>
    rw [lower_of_violation_none hv] at h
    have hplaces := Builder.kind_of_finish h
    rw [hkind] at hplaces
    cases hplaces
  | some err =>
    have hinternal := Stmt.kind_of_enclosed (enclosed_link hids hstray) hv
    rw [lower_of_violation_some hv] at h
    cases h
    have herr : err.kind = .unresolvedBreak s loop := hkind
    rw [herr] at hinternal
    cases hinternal

/-- If it takes no more labels than there are, it fails only for reasons that a checked program can
    have. -/
theorem level_of_lower_link (hids : f.body.loops.Nodup) (hstray : f.body.strayBreaks false = [])
    (hn : f.link.body.labelCount ≤ UInt32.size) {e : LowerError} (h : f.link.lower ctx = .error e) :
    e.level ≠ .critical := by
  cases hv : f.link.violation? ctx with
  | none =>
    obtain ⟨r, hr, -⟩ := lower_verifying hv hn
    rw [hr] at h
    cases h
  | some err =>
    have hinternal := Stmt.kind_of_enclosed (enclosed_link hids hstray) hv
    rw [lower_of_violation_some hv] at h
    cases h
    have hkind : (err.inFunction f.link.name).kind.isInternal = false := hinternal
    simp [LowerError.level, hkind]

/-- In the code of a linked function each break jumps to the exit of the innermost loop around
    it. -/
theorem jump_of_break_link (hids : f.body.loops.Nodup) (hstray : f.body.strayBreaks false = [])
    {r : Routine} (h : f.link.lower ctx = .ok r) {q : Placed} (hq : q ∈ f.link.body.placed none 0)
    {m : Mark} {link : Option StmtId} (hbreak : q.stmt = .breakLoop m link) :
    ∃ w ∈ q.loop, ∃ exit, w.HasExit r.code.toList exit ∧
      r.code.toList[q.place]? = some (.jump exit) := by
  obtain ⟨-, hfinish⟩ := finish_of_lower h
  obtain ⟨-, -, -, -, hcode, -⟩ := Builder.finish_eq_ok hfinish
  rw [hcode]
  exact Stmt.jump_of_break (enclosed_link hids hstray) (stands_bodyCode _) nofun hq hbreak

end Function

namespace Script

/-- The program of a script is linked from one without findings that was read from it. -/
theorem load_eq_ok {s : Script} {q : Program} (h : s.load = .ok q) :
    ∃ p, Program.ofScript s = .ok p ∧ p.analyze = .ok q := by
  unfold load at h
  split at h
  · cases h
  · next p hp =>
    refine ⟨p, hp, ?_⟩
    unfold Program.check at h
    split at h
    · cases h
    · next hq => rw [hq, Except.ok.inj h]

/-- The failures of a script are those of the functions of its program. -/
theorem error_of_compile {s : Script} {options : LowerOptions} {l : Lowered}
    (h : s.compile options = .ok l) {e : LowerError} (he : e ∈ l.errors) :
    ∃ p, Program.ofScript s = .ok p ∧ p.findings = [] ∧ s.load = .ok p.link ∧
      ∃ f ∈ p.functions, f.link.lower (.ofProgram p.link options) = .error e := by
  unfold compile at h
  split at h
  · cases h
  · next q hq =>
    cases h
    obtain ⟨p, hread, hp⟩ := load_eq_ok hq
    obtain ⟨hnone, rfl⟩ := Program.analyze_eq_ok hp
    rw [Program.lower_eq] at he
    obtain ⟨f', hf', hfail⟩ := List.mem_filterMap.mp he
    obtain ⟨f, hf, rfl⟩ := List.mem_map.mp hf'
    refine ⟨p, hread, hnone, hq, f, hf, ?_⟩
    unfold Function.failure? at hfail
    split at hfail
    · cases hfail
    · next herr => rw [herr, Option.some.inj hfail]

end Script

/-- **Breaks leave the innermost loop around them.**  Take a function whose loops have different
    numbers and in which every break has a loop around it.  Lowering it with its breaks linked never
    fails over a break.  When it succeeds, and the function takes no more labels than there are, each
    break has become a jump to a label that stands right after the jump with which the innermost
    loop around the break goes back to its start; the places are those that the walk through the
    function has noted.  So no failure in what becomes of a script is one that a checked program
    cannot cause, if its functions take no more labels than there are. -/
theorem breaks_leave_innermost_loop :
    (∀ (ctx : Context) (f : Function), f.body.loops.Nodup → f.body.strayBreaks false = [] →
      (∀ e, f.link.lower ctx = .error e → ∀ s loop, e.kind ≠ .unresolvedBreak s loop) ∧
      ∀ r, f.link.lower ctx = .ok r → f.body.labelCount ≤ UInt32.size →
        (∃ w, f.link.walk ctx = .ok () w ∧
          w.visits.toList = (f.link.body.placed none 0).map Placed.visit) ∧
        ∀ q ∈ f.link.body.placed none 0, ∀ m link, q.stmt = .breakLoop m link →
          ∃ loop ∈ q.loop, ∃ exit,
            r.code.toList[q.place]? = some (.jump exit) ∧ loop.HasExit r.code.toList exit ∧
            r.positionOf exit = some (loop.place + loop.stmt.size - 1)) ∧
    ∀ (s : Script) (options : LowerOptions) (l : Lowered), s.compile options = .ok l →
      (∀ p, s.load = .ok p → ∀ f ∈ p.functions, f.body.labelCount ≤ UInt32.size) →
      ∀ e ∈ l.errors, e.level ≠ .critical := by
  constructor
  · intro ctx f hids hstray
    refine ⟨fun e he => Function.not_unresolvedBreak_of_lower_link hids hstray he, ?_⟩
    intro r hr hn
    obtain ⟨hv, hfinish⟩ := Function.finish_of_lower hr
    constructor
    · obtain ⟨w, hw, -, hvisits⟩ := Function.walk_of_violation_none hv none
      exact ⟨w, hw, hvisits⟩
    · intro q hq m link hbreak
      obtain ⟨loop, hloop, exit, hexit, hjump⟩ :=
        Function.jump_of_break_link hids hstray hr hq hbreak
      refine ⟨loop, hloop, exit, hjump, hexit, ?_⟩
      -- The exit stands there, and as all labels stand once it stands nowhere before.
      obtain ⟨_, _, _, _, _, _, _, hplace⟩ := hexit
      obtain ⟨-, -, -, -, hcode, hposition⟩ := Builder.finish_eq_ok hfinish
      have hn' : f.link.body.labelCount ≤ UInt32.size := by
        rw [Function.link, Stmt.labelCount_link]
        exact hn
      have hsound := Function.soundLabels_finished hv hn' ctx.options.implicitReturn
      rw [hcode] at hplace
      rw [hposition]
      exact idxOf?_eq_of_once (hsound.once exit) hplace
  · intro s options l hl hn e he
    obtain ⟨p, hread, hnone, hload, f, hf, hlower⟩ := Script.error_of_compile hl he
    refine Function.level_of_lower_link ?_ ?_ ?_ hlower
    · exact Stmt.nodup_loops (Program.nodup_ids_of_ofScript hread hf)
    · exact Program.strayBreaks_of_findings hnone hf
    · exact hn p.link hload f.link (List.mem_map_of_mem hf)

/-- A loop that leaves a loop inside it and then itself. -/
def nestedLoops : Function where
  name := "f"
  params := []
  body := .whileLoop ⟨⟨5⟩, .unknown⟩ (.int .unknown 1) (.block ⟨⟨4⟩, .unknown⟩
    [.whileLoop ⟨⟨2⟩, .unknown⟩ (.int .unknown 1) (.breakLoop ⟨⟨1⟩, .unknown⟩ none),
      .breakLoop ⟨⟨3⟩, .unknown⟩ none])
  origin := .unknown

/-- A script with such a function, in which another name is used that nothing was assigned to. -/
def nestedScript : Script :=
  .ofSource "f" "fn f() \x7b while (1) \x7b while (1) break; break; \x7d x; \x7d"

theorem breaks_leave_innermost_loop_nestedLoops :
    (∃ r exit, nestedLoops.link.lower (.empty {}) = .ok r ∧
      r.code.toList[9]? = some (.jump exit) ∧ r.positionOf exit = some 11) ∧
    ∃ l, nestedScript.compile {} = .ok l ∧ l.errors.length = 1 ∧
      ∀ e ∈ l.errors, e.level ≠ .critical := by
  constructor
  · have hv : nestedLoops.link.violation? (.empty {}) = none := rfl
    obtain ⟨r, hr, -⟩ := Function.lower_verifying hv (by decide)
    obtain ⟨-, hplaces⟩ := (breaks_leave_innermost_loop.1 (.empty {}) nestedLoops
      (by decide) rfl).2 r hr (by decide)
    -- The fifth statement is the outer break.
    have hmem : (nestedLoops.link.body.placed none 0)[4] ∈ nestedLoops.link.body.placed none 0 :=
      List.getElem_mem _
    obtain ⟨loop, hloop, exit, hjump, -, hexit⟩ := hplaces _ hmem _ _ rfl
    cases hloop
    exact ⟨r, exit, hr, hjump, hexit⟩
  · have hlabels : (match nestedScript.load with
        | .ok p => p.functions.all fun f => f.body.labelCount ≤ UInt32.size
        | .error _ => false) = true := by decide +kernel
    have herrors : (match nestedScript.compile {} with
        | .ok l => l.errors.length
        | .error _ => 0) = 1 := by decide +kernel
    cases hl : nestedScript.compile {} with
    | error ds =>
      rw [hl] at herrors
      cases herrors
    | ok l =>
      rw [hl] at herrors
      refine ⟨l, rfl, herrors, breaks_leave_innermost_loop.2 _ _ _ hl fun p hp f hf => ?_⟩
      rw [hp] at hlabels
      simpa using List.all_eq_true.mp hlabels f hf

end JumpCode
