import JumpCode.Proofs.Lowering.Census

/-!
# Builders only grow

A builder may be handed from one call to the next: registers, labels and slots are taken from it by
hand, instructions are appended, and trees are lowered into it, of which some fail midway and leave
behind what they had built.  Whatever the calls are, nothing that was in the builder is taken back.

To say which names have been bound, and how many labels have been taken, a `Tally` is kept beside
the builder.  It walks through the same trees as the lowering does and fails where that fails, but
writes no code.  `Follows` is what holds of a builder and its tally all along; one call keeps it
(`Call.keepsPace`), so any number of calls does (`Builder.Follows.afterCalls`).
-/

namespace JumpCode

/-! ### Tallies -/

/-- What has been taken from a builder: the number of labels, the names in the order in which they
    were bound, as often as they were, and the loops that the walk has entered. -/
structure Tally where
  labels : Nat
  bound : List String
  entered : List StmtId

abbrev Tallying := EStateM LowerError Tally

namespace Tally

/-- The parameters are bound before anything else. -/
def start (params : List String) : Tally := ⟨0, params, []⟩

def takeLabel : Tallying Unit := modify fun t => { t with labels := t.labels + 1 }

def bindName (x : String) : Tallying Unit := modify fun t => { t with bound := t.bound ++ [x] }

def enterLoop (i : StmtId) : Tallying Unit := modify fun t => { t with entered := i :: t.entered }

/-- Fail unless the condition holds. -/
def require (c : Tally → Bool) (e : LowerError) : Tallying Unit := fun t =>
  if c t then .ok () t else .error e t

theorem require_of_true {c : Tally → Bool} {t : Tally} (h : c t = true) (e : LowerError) :
    require c e t = .ok () t := if_pos h

theorem require_of_false {c : Tally → Bool} {t : Tally} (h : c t = false) (e : LowerError) :
    require c e t = .error e t := if_neg (Bool.eq_false_iff.mp h)

end Tally

namespace Expr

mutual

/-- What lowering an expression takes, up to where it fails. -/
def tally (ctx : Context) : Expr → Tallying Unit
  | .int _ _ | .bool _ _ => pure ()
  | .ident o x => Tally.require (·.bound.contains x) (.ofKind (.unknownIdentifier x) o)
  | .unary _ _ e => e.tally ctx
  | .binary _ _ l r => do
    l.tally ctx
    r.tally ctx
  | .assign _ x e => do
    e.tally ctx
    Tally.bindName x
  | .call o f args =>
    match ctx.find? f with
    | none => throw (.ofKind (.unknownFunction f) o)
    | some sig =>
      if sig.arity = args.length then tallyAll ctx args
      else throw (.ofKind (.arityMismatch f sig.arity args.length) o)

def tallyAll (ctx : Context) : List Expr → Tallying Unit
  | [] => pure ()
  | e :: es => do
    e.tally ctx
    tallyAll ctx es

end

end Expr

namespace Stmt

variable (tallyExpr : Expr → Tallying Unit)

mutual

/-- What lowering a statement takes, up to where it fails. -/
def tally : Stmt → Tallying Unit
  | .block _ body => tallyAll body
  | .eval _ e => tallyExpr e
  | .ret _ none => pure ()
  | .ret _ (some e) => tallyExpr e
  | .ifThen _ c t => do
    tallyExpr c
    Tally.takeLabel
    t.tally
  | .ifElse _ c t e => do
    tallyExpr c
    Tally.takeLabel
    t.tally
    Tally.takeLabel
    e.tally
  | .whileLoop m c body => do
    Tally.takeLabel
    Tally.takeLabel
    Tally.enterLoop m.id
    tallyExpr c
    body.tally
  | .breakLoop m link =>
    Tally.require (fun t => link.any t.entered.contains)
      (.ofKind (.unresolvedBreak m.id link) m.origin)

def tallyAll : List Stmt → Tallying Unit
  | [] => pure ()
  | s :: ss => do
    s.tally
    tallyAll ss

end

end Stmt

/-! ### Steps and their tallies -/

/-- The state that a step leaves behind, whether it fails or not. -/
def stateAfter {σ α : Type} (x : EStateM LowerError σ α) (s : σ) : σ :=
  match x s with
  | .ok _ s' => s'
  | .error _ s' => s'

/-- From the states `s` and `t` the step `x` and its tally `y` end together, with the same failure
    if they fail, and with states that satisfy `R`. -/
def Agrees {σ α : Type} (R : σ → Tally → Prop) (x : EStateM LowerError σ α) (y : Tallying Unit)
    (s : σ) (t : Tally) : Prop :=
  match x s, y t with
  | .ok _ s', .ok _ t' => R s' t'
  | .error e s', .error f t' => e = f ∧ R s' t'
  | _, _ => False

/-- The step and its tally agree from all states that satisfy `R`. -/
def KeepsPace {σ α : Type} (R : σ → Tally → Prop) (x : EStateM LowerError σ α) (y : Tallying Unit) :
    Prop :=
  ∀ s t, R s t → Agrees R x y s t

section Agreement

variable {σ α β : Type} {R : σ → Tally → Prop} {x : EStateM LowerError σ α}
  {k : α → EStateM LowerError σ β} {y z : Tallying Unit} {s : σ} {t : Tally}

namespace Agrees

theorem of_ok {a : α} {s' : σ} {t' : Tally} (hx : x s = .ok a s') (hy : y t = .ok () t')
    (h : R s' t') : Agrees R x y s t := by
  unfold Agrees
  rw [hx, hy]
  exact h

theorem of_error {e : LowerError} {s' : σ} {t' : Tally} (hx : x s = .error e s')
    (hy : y t = .error e t') (h : R s' t') : Agrees R x y s t := by
  unfold Agrees
  rw [hx, hy]
  exact ⟨rfl, h⟩

theorem cases (h : Agrees R x y s t) :
    (∃ a s' t', x s = .ok a s' ∧ y t = .ok () t' ∧ R s' t') ∨
      ∃ e s' t', x s = .error e s' ∧ y t = .error e t' ∧ R s' t' := by
  unfold Agrees at h
  cases hx : x s with
  | ok a s' =>
    cases hy : y t with
    | ok u t' =>
      rw [hx, hy] at h
      exact Or.inl ⟨a, s', t', rfl, rfl, h⟩
    | error f t' =>
      rw [hx, hy] at h
      exact h.elim
  | error e s' =>
    cases hy : y t with
    | ok u t' =>
      rw [hx, hy] at h
      exact h.elim
    | error f t' =>
      rw [hx, hy] at h
      obtain ⟨rfl, h⟩ := h
      exact Or.inr ⟨e, s', t', rfl, rfl, h⟩

end Agrees

namespace KeepsPace

/-- What a step does may depend on the state. -/
theorem get {k : σ → EStateM LowerError σ β} (h : ∀ s t, R s t → Agrees R (k s) y s t) :
    KeepsPace R (MonadState.get >>= k) y := h

/-- A step that takes nothing agrees with whatever takes nothing either. -/
theorem agrees (hx : KeepsPace R x (pure ())) (hy : y t = .ok () t) (h : R s t) :
    Agrees R x y s t := by
  have h := hx s t h
  unfold Agrees at *
  rwa [hy]

theorem bind (hx : KeepsPace R x y) (hk : ∀ a, KeepsPace R (k a) z) :
    KeepsPace R (x >>= k) (y >>= fun _ => z) := by
  intro s t h
  rcases (hx s t h).cases with ⟨a, s', t', hxs, hyt, h'⟩ | ⟨e, s', t', hxs, hyt, h'⟩
  · have hxk : (x >>= k) s = k a s' := by
      change EStateM.bind x k s = _
      rw [EStateM.bind, hxs]
    have hyz : (y >>= fun _ => z) t = z t' := by
      change EStateM.bind y (fun _ => z) t = _
      rw [EStateM.bind, hyt]
    unfold Agrees
    rw [hxk, hyz]
    exact hk a s' t' h'
  · have hxk : (x >>= k) s = .error e s' := by
      change EStateM.bind x k s = _
      rw [EStateM.bind, hxs]
    have hyz : (y >>= fun _ => z) t = .error e t' := by
      change EStateM.bind y (fun _ => z) t = _
      rw [EStateM.bind, hyt]
    exact .of_error hxk hyz h'

/-- A first step that takes nothing. -/
theorem step (hx : KeepsPace R x (pure ())) (hk : ∀ a, KeepsPace R (k a) y) :
    KeepsPace R (x >>= k) y :=
  hx.bind hk

/-- After a step nothing more is taken. -/
theorem last (hx : KeepsPace R x y) (hk : ∀ a, KeepsPace R (k a) (pure ())) :
    KeepsPace R (x >>= k) y := by
  have h := hx.bind hk
  rwa [bind_pure_unit] at h

theorem stateAfter (hx : KeepsPace R x y) (h : R s t) : R (stateAfter x s) (stateAfter y t) := by
  unfold JumpCode.stateAfter
  rcases (hx s t h).cases with ⟨a, s', t', hxs, hyt, h⟩ | ⟨e, s', t', hxs, hyt, h⟩
  · rw [hxs, hyt]
    exact h
  · rw [hxs, hyt]
    exact h

end KeepsPace

end Agreement

/-! ### Builders and their tallies -/

/-- From the builder `b₀` with the tally `t₀`, the builder has grown to `b` and the tally to `t`.
    The walk has entered the loops `loops`. -/
structure Builder.Follows (b₀ : Builder) (t₀ : Tally) (loops : List StmtId) (b : Builder)
    (t : Tally) : Prop where
  code : b₀.code.toList <+: b.code.toList
  reg : b₀.nextReg ≤ b.nextReg
  params : b.paramCount = b₀.paramCount
  label : b.nextLabel = UInt32.ofNat t.labels
  names : b.names = addNames [] t.bound
  labels : t₀.labels ≤ t.labels
  bound : t₀.bound <+: t.bound
  entered : t.entered = loops

section Steps

variable {b₀ : Builder} {t₀ : Tally} {loops : List StmtId}

namespace Lower

theorem freshReg_keepsPace : KeepsPace (b₀.Follows t₀ loops) freshReg (pure ()) := by
  intro b t h
  exact { h with reg := Nat.le_succ_of_le h.reg }

theorem emit_keepsPace (i : Instr) : KeepsPace (b₀.Follows t₀ loops) (emit i) (pure ()) := by
  intro b t h
  refine { h with code := h.code.trans ?_ }
  change b.code.toList <+: (b.code.push i).toList
  rw [Array.toList_push]
  exact List.prefix_append _ _

theorem emitTo_keepsPace (i : Reg → Instr) :
    KeepsPace (b₀.Follows t₀ loops) (emitTo i) (pure ()) := by
  apply freshReg_keepsPace.step
  intro r
  apply (emit_keepsPace (i r)).step
  intro _ b t h
  exact h

theorem freshLabel_keepsPace : KeepsPace (b₀.Follows t₀ loops) freshLabel Tally.takeLabel := by
  intro b t h
  have hlabel : b.nextLabel + 1 = UInt32.ofNat (t.labels + 1) := by
    rw [h.label, UInt32.ofNat_add]
    rfl
  exact { h with label := hlabel, labels := Nat.le_succ_of_le h.labels }

theorem slotFor_keepsPace (x : String) :
    KeepsPace (b₀.Follows t₀ loops) (slotFor x) (Tally.bindName x) := by
  intro b t h
  change b₀.Follows t₀ loops (b.bindName x) { t with bound := t.bound ++ [x] }
  have hnames : addName b.names x = addNames [] (t.bound ++ [x]) := by
    rw [h.names, addNames_append]
    rfl
  rw [Builder.bindName_eq]
  exact { h with names := hnames, bound := h.bound.trans (List.prefix_append _ _) }

end Lower

namespace Expr

mutual

theorem lower_keepsPace (ctx : Context) (e : Expr) :
    KeepsPace (b₀.Follows t₀ loops) (e.lower ctx) (e.tally ctx) := by
  cases e with
  | int o v => exact Lower.emitTo_keepsPace _
  | bool o v => exact Lower.emitTo_keepsPace _
  | ident o x =>
    rw [lower, tally]
    apply KeepsPace.get
    intro b t h
    have hmem : x ∈ b.names ↔ x ∈ t.bound := by
      rw [h.names, mem_addNames]
      simp
    by_cases hx : x ∈ t.bound
    · rw [Builder.slot?_of_mem (hmem.mpr hx)]
      exact (Lower.emitTo_keepsPace _).agrees (Tally.require_of_true (by simpa using hx) _) h
    · rw [Builder.slot?_of_not_mem (mt hmem.mp hx)]
      exact .of_error rfl (Tally.require_of_false (by simpa using hx) _) h
  | unary o op e =>
    rw [lower, tally]
    exact (lower_keepsPace ctx e).last fun _ => Lower.emitTo_keepsPace _
  | binary o op l r =>
    rw [lower, tally]
    apply (lower_keepsPace ctx l).bind
    intro left
    exact (lower_keepsPace ctx r).last fun _ => Lower.emitTo_keepsPace _
  | assign o x e =>
    rw [lower, tally]
    apply (lower_keepsPace ctx e).bind
    intro src
    apply (Lower.slotFor_keepsPace x).last
    intro i
    apply (Lower.emit_keepsPace _).step
    intro _ b t h
    exact h
  | call o f args =>
    rw [lower, tally]
    cases hf : ctx.find? f with
    | none => exact fun b t h => ⟨rfl, h⟩
    | some sig =>
      by_cases hn : sig.arity = args.length
      · simp only [if_pos hn]
        exact (lowerAll_keepsPace ctx args).last fun _ => Lower.emitTo_keepsPace _
      · simp only [if_neg hn]
        exact fun b t h => ⟨rfl, h⟩

theorem lowerAll_keepsPace (ctx : Context) (es : List Expr) :
    KeepsPace (b₀.Follows t₀ loops) (lowerAll ctx es) (tallyAll ctx es) := by
  cases es with
  | nil => exact fun b t h => h
  | cons e es =>
    rw [lowerAll, tallyAll]
    apply (lower_keepsPace ctx e).bind
    intro r
    apply (lowerAll_keepsPace ctx es).last
    intro rs b t h
    exact h

end

end Expr

/-- The loops that the walk has entered are those that the tally has. -/
def Walk.Follows (b₀ : Builder) (t₀ : Tally) (w : Walk) (t : Tally) : Prop :=
  b₀.Follows t₀ (w.exits.map Prod.fst) w.builder t

namespace Walking

/-- What holds for the builder, whichever loops have been entered, holds for the walk. -/
theorem build_keepsPace {α : Type} {x : Lower α} {y : Tallying Unit}
    (h : ∀ loops, KeepsPace (b₀.Follows t₀ loops) x y) :
    KeepsPace (Walk.Follows b₀ t₀) (build x) y := by
  intro w t hw
  rcases (h (w.exits.map Prod.fst) _ _ hw).cases with ⟨a, b, t', hx, hy, h⟩ | ⟨e, b, t', hx, hy, h⟩
  · have hbuild : build x w = .ok a { w with builder := b } := by simp only [build, hx]
    exact .of_ok hbuild hy h
  · have hbuild : build x w = .error e { w with builder := b } := by simp only [build, hx]
    exact .of_error hbuild hy h

theorem visit_keepsPace (s : Stmt) : KeepsPace (Walk.Follows b₀ t₀) (visit s) (pure ()) :=
  fun _ _ h => h

theorem emit_keepsPace (i : Instr) :
    KeepsPace (Walk.Follows b₀ t₀) (build (Lower.emit i)) (pure ()) :=
  build_keepsPace fun _ => Lower.emit_keepsPace i

theorem freshLabel_keepsPace :
    KeepsPace (Walk.Follows b₀ t₀) (build Lower.freshLabel) Tally.takeLabel :=
  build_keepsPace fun _ => Lower.freshLabel_keepsPace

theorem enterLoop_keepsPace (i : StmtId) (l : Label) :
    KeepsPace (Walk.Follows b₀ t₀) (enterLoop i l) (Tally.enterLoop i) := by
  intro w t h
  exact { h with entered := congrArg (i :: ·) h.entered }

end Walking

namespace Stmt

open Walking

variable {lowerExpr : Expr → Lower Reg} {tallyExpr : Expr → Tallying Unit}

theorem lower_breakLoop_keepsPace (m : Mark) (link : Option StmtId) :
    KeepsPace (Walk.Follows b₀ t₀) ((breakLoop m link).lower lowerExpr)
      ((breakLoop m link).tally tallyExpr) := by
  rw [lower, tally]
  apply (visit_keepsPace _).step
  intro _
  apply KeepsPace.get
  intro w t h
  have hexit : (link.bind w.exit?).isSome = link.any t.entered.contains := by
    cases link with
    | none => rfl
    | some i =>
      rw [h.entered]
      exact lookup_isSome w.exits i
  cases hl : link.bind w.exit? with
  | some l =>
    rw [hl] at hexit
    exact (emit_keepsPace _).agrees (Tally.require_of_true hexit.symm _) h
  | none =>
    rw [hl] at hexit
    exact .of_error rfl (Tally.require_of_false hexit.symm _) h

mutual

/-- Lowering a statement keeps builder and tally together if lowering expressions does. -/
theorem lower_keepsPace
    (hexpr : ∀ loops e, KeepsPace (b₀.Follows t₀ loops) (lowerExpr e) (tallyExpr e)) (s : Stmt) :
    KeepsPace (Walk.Follows b₀ t₀) (s.lower lowerExpr) (s.tally tallyExpr) := by
  have hbuild (e : Expr) : KeepsPace (Walk.Follows b₀ t₀) (build (lowerExpr e)) (tallyExpr e) :=
    build_keepsPace fun loops => hexpr loops e
  cases s with
  | block m body =>
    rw [lower, tally]
    apply (visit_keepsPace _).step
    intro _
    exact lowerAll_keepsPace hexpr body
  | eval m e =>
    rw [lower, tally]
    apply (visit_keepsPace _).step
    intro _
    apply (hbuild e).last
    intro _ w t h
    exact h
  | ret m e =>
    cases e with
    | none =>
      rw [lower, tally]
      apply (visit_keepsPace _).step
      intro _
      exact emit_keepsPace _
    | some e =>
      rw [lower, tally]
      apply (visit_keepsPace _).step
      intro _
      apply (hbuild e).last
      intro src
      exact emit_keepsPace _
  | ifThen m c t =>
    rw [lower, tally]
    apply (visit_keepsPace _).step
    intro _
    apply (hbuild c).bind
    intro cond
    apply freshLabel_keepsPace.bind
    intro after
    apply (emit_keepsPace _).step
    intro _
    apply (lower_keepsPace hexpr t).last
    intro _
    exact emit_keepsPace _
  | ifElse m c t e =>
    rw [lower, tally]
    apply (visit_keepsPace _).step
    intro _
    apply (hbuild c).bind
    intro cond
    apply freshLabel_keepsPace.bind
    intro otherwise
    apply (emit_keepsPace _).step
    intro _
    apply (lower_keepsPace hexpr t).bind
    intro _
    apply freshLabel_keepsPace.bind
    intro after
    apply (emit_keepsPace _).step
    intro _
    apply (emit_keepsPace _).step
    intro _
    apply (lower_keepsPace hexpr e).last
    intro _
    exact emit_keepsPace _
  | whileLoop m c body =>
    rw [lower, tally]
    apply (visit_keepsPace _).step
    intro _
    apply freshLabel_keepsPace.bind
    intro top
    apply freshLabel_keepsPace.bind
    intro after
    apply (enterLoop_keepsPace m.id after).bind
    intro _
    apply (emit_keepsPace _).step
    intro _
    apply (hbuild c).bind
    intro cond
    apply (emit_keepsPace _).step
    intro _
    apply (lower_keepsPace hexpr body).last
    intro _
    apply (emit_keepsPace _).step
    intro _
    exact emit_keepsPace _
  | breakLoop m link => exact lower_breakLoop_keepsPace m link

theorem lowerAll_keepsPace
    (hexpr : ∀ loops e, KeepsPace (b₀.Follows t₀ loops) (lowerExpr e) (tallyExpr e))
    (ss : List Stmt) :
    KeepsPace (Walk.Follows b₀ t₀) (lowerAll lowerExpr ss) (tallyAll tallyExpr ss) := by
  cases ss with
  | nil => exact fun w t h => h
  | cons s ss =>
    rw [lowerAll, tallyAll]
    apply (lower_keepsPace hexpr s).bind
    intro _
    exact lowerAll_keepsPace hexpr ss

end

end Stmt

end Steps

/-! ### Calls -/

/-- How expressions are lowered: in full, or as a constant. -/
inductive Engine where
  | full (ctx : Context)
  | zero

namespace Engine

def lower : Engine → Expr → Lower Reg
  | .full ctx => Expr.lower ctx
  | .zero => Expr.lowerZero

def tally : Engine → Expr → Tallying Unit
  | .full ctx => Expr.tally ctx
  | .zero => fun _ => pure ()

theorem lower_keepsPace {b₀ : Builder} {t₀ : Tally} (engine : Engine) (loops : List StmtId)
    (e : Expr) :
    KeepsPace (b₀.Follows t₀ loops) (engine.lower e) (engine.tally e) := by
  cases engine with
  | full ctx => exact e.lower_keepsPace ctx
  | zero => exact Lower.emitTo_keepsPace _

end Engine

/-- Lower a statement into a builder, where the loops with the given exits have been entered
    before. -/
def Stmt.lowerInto (engine : Engine) (exits : List (StmtId × Label)) (s : Stmt) :
    Lower Unit := fun b =>
  match s.lower engine.lower ⟨b, exits, #[]⟩ with
  | .ok _ w => .ok () w.builder
  | .error e w => .error e w.builder

/-- What may be done with a builder from outside. -/
inductive Call where
  | freshReg
  | freshLabel
  | slotFor (name : String)
  | emit (i : Instr)
  | place (l : Label)
  | lowerExpr (engine : Engine) (e : Expr)
  | lowerStmt (engine : Engine) (exits : List (StmtId × Label)) (s : Stmt)

namespace Call

def perform : Call → Lower Unit
  | .freshReg => do let _ ← Lower.freshReg
  | .freshLabel => do let _ ← Lower.freshLabel
  | .slotFor x => do let _ ← Lower.slotFor x
  | .emit i => Lower.emit i
  | .place l => Lower.place l
  | .lowerExpr engine e => do let _ ← engine.lower e
  | .lowerStmt engine exits s => s.lowerInto engine exits

def tally : Call → Tallying Unit
  | .freshReg | .emit _ | .place _ => pure ()
  | .freshLabel => Tally.takeLabel
  | .slotFor x => Tally.bindName x
  | .lowerExpr engine e => engine.tally e
  | .lowerStmt engine exits s => do
    modify fun t => { t with entered := exits.map Prod.fst }
    s.tally engine.tally

end Call

/-- The builder that is left after some calls, of which any may fail. -/
def Builder.afterCalls (b : Builder) (calls : List Call) : Builder :=
  calls.foldl (fun b c => stateAfter c.perform b) b

def Tally.afterCalls (t : Tally) (calls : List Call) : Tally :=
  calls.foldl (fun t c => stateAfter c.tally t) t

section Calls

variable {b₀ : Builder} {t₀ : Tally}

/-- The result of a step does not matter. -/
theorem KeepsPace.ignore {R : Builder → Tally → Prop} {α : Type} {x : Lower α} {y : Tallying Unit}
    (h : KeepsPace R x y) : KeepsPace R (do let _ ← x) y :=
  h.last fun _ _ _ h => h

/-- What holds whichever loops have been entered holds for those that have been. -/
theorem KeepsPace.of_forall_loops {α : Type} {x : Lower α} {y : Tallying Unit}
    (h : ∀ loops, KeepsPace (b₀.Follows t₀ loops) x y) :
    KeepsPace (fun b t => b₀.Follows t₀ t.entered b t) x y := by
  intro b t hb
  rcases (h t.entered b t hb).cases with ⟨a, b', t', hx, hy, h'⟩ | ⟨e, b', t', hx, hy, h'⟩
  · exact .of_ok hx hy { h' with entered := rfl }
  · exact .of_error hx hy { h' with entered := rfl }

theorem Stmt.lowerInto_keepsPace (engine : Engine) (exits : List (StmtId × Label)) (s : Stmt) :
    KeepsPace (fun b t => b₀.Follows t₀ t.entered b t) (s.lowerInto engine exits)
      (Call.lowerStmt engine exits s).tally := by
  intro b t h
  have hstart : Walk.Follows b₀ t₀ ⟨b, exits, #[]⟩ { t with entered := exits.map Prod.fst } :=
    { h with entered := rfl }
  have hpace := s.lower_keepsPace (fun loops e => engine.lower_keepsPace loops e) _ _ hstart
  rcases hpace.cases with ⟨a, w, t', hx, hy, h'⟩ | ⟨e, w, t', hx, hy, h'⟩
  · have hinto : s.lowerInto engine exits b = .ok () w.builder := by simp only [lowerInto, hx]
    exact .of_ok hinto hy { h' with entered := rfl }
  · have hinto : s.lowerInto engine exits b = .error e w.builder := by simp only [lowerInto, hx]
    exact .of_error hinto hy { h' with entered := rfl }

/-- One call keeps builder and tally together, whether it fails or not. -/
theorem Call.keepsPace (c : Call) :
    KeepsPace (fun b t => b₀.Follows t₀ t.entered b t) c.perform c.tally := by
  cases c with
  | freshReg => exact .of_forall_loops fun _ => Lower.freshReg_keepsPace.ignore
  | freshLabel => exact .of_forall_loops fun _ => Lower.freshLabel_keepsPace.ignore
  | slotFor x => exact .of_forall_loops fun _ => (Lower.slotFor_keepsPace x).ignore
  | emit i => exact .of_forall_loops fun _ => Lower.emit_keepsPace i
  | place l => exact .of_forall_loops fun _ => Lower.emit_keepsPace (.label l)
  | lowerExpr engine e =>
    exact .of_forall_loops fun loops => (engine.lower_keepsPace loops e).ignore
  | lowerStmt engine exits s => exact s.lowerInto_keepsPace engine exits

/-- Any number of calls keeps builder and tally together. -/
theorem Builder.Follows.afterCalls {b : Builder} {t : Tally} (h : b₀.Follows t₀ t.entered b t)
    (calls : List Call) :
    b₀.Follows t₀ (t.afterCalls calls).entered (b.afterCalls calls) (t.afterCalls calls) := by
  induction calls generalizing b t with
  | nil => exact h
  | cons c calls ih => exact ih (c.keepsPace.stateAfter h)

end Calls

/-! ### Slots -/

/-- To leave out a name that stands before does not change which of two names comes first. -/
theorem idxOf_lt_iff_of_mem {ns : List String} {z : String} (hz : z ∈ ns) (xs : List String)
    (x y : String) :
    (ns ++ z :: xs).idxOf x < (ns ++ z :: xs).idxOf y ↔
      (ns ++ xs).idxOf x < (ns ++ xs).idxOf y := by
  have hshift (u : String) (hu : u ∉ ns) : (z :: xs).idxOf u = xs.idxOf u + 1 := by
    rw [List.idxOf_cons_ne]
    intro h
    exact hu (h ▸ hz)
  have hlt (u : String) (hu : u ∈ ns) : ns.idxOf u < ns.length := List.idxOf_lt_length_of_mem hu
  by_cases hx : x ∈ ns
  · by_cases hy : y ∈ ns
    · simp only [List.idxOf_append, if_pos hx, if_pos hy]
    · have := hlt x hx
      simp only [List.idxOf_append, if_pos hx, if_neg hy]
      omega
  · by_cases hy : y ∈ ns
    · have := hlt y hy
      simp only [List.idxOf_append, if_neg hx, if_pos hy]
      omega
    · simp only [List.idxOf_append, if_neg hx, if_neg hy, hshift x hx, hshift y hy]
      omega

/-- The names get their slots in the order in which they come first. -/
theorem idxOf_addNames_lt_iff (ns xs : List String) (x y : String) :
    (addNames ns xs).idxOf x < (addNames ns xs).idxOf y ↔
      (ns ++ xs).idxOf x < (ns ++ xs).idxOf y := by
  induction xs generalizing ns with
  | nil => rw [addNames_nil, List.append_nil]
  | cons z xs ih =>
    rw [addNames_cons, ih, addName]
    by_cases hz : z ∈ ns
    · rw [if_pos hz]
      exact (idxOf_lt_iff_of_mem hz xs x y).symm
    · rw [if_neg hz, List.append_assoc, List.singleton_append]

namespace Builder

variable {b : Builder}

theorem slot?_injective {x y : String} {i : Slot} (hx : b.slot? x = some i)
    (hy : b.slot? y = some i) : x = y := by
  obtain ⟨hmem, rfl⟩ := slot?_eq_some_iff.mp hx
  obtain ⟨-, hidx⟩ := slot?_eq_some_iff.mp hy
  exact (List.idxOf_inj hmem).mp hidx.symm

/-- The slots in use are those below the number of names. -/
theorem exists_slot?_iff (h : b.names.Nodup) (i : Slot) :
    (∃ x, b.slot? x = some i) ↔ i < b.slotCount := by
  constructor
  · rintro ⟨x, hx⟩
    obtain ⟨hmem, rfl⟩ := slot?_eq_some_iff.mp hx
    exact List.idxOf_lt_length_of_mem hmem
  · intro hi
    refine ⟨b.names.get ⟨i, hi⟩, slot?_eq_some_iff.mpr ⟨List.get_mem _ _, ?_⟩⟩
    exact List.get_idxOf h ⟨i, hi⟩

/-- A name keeps its slot when more names get one. -/
theorem slot?_of_prefix {b' : Builder} (h : b.names <+: b'.names) {x : String} {i : Slot}
    (hx : b.slot? x = some i) : b'.slot? x = some i := by
  obtain ⟨hmem, rfl⟩ := slot?_eq_some_iff.mp hx
  exact slot?_eq_some_iff.mpr ⟨h.subset hmem, idxOf_stable h hmem⟩

end Builder

/-! ### What any calls keep -/

theorem Builder.follows_start (params : List String) :
    (withParams params).Follows (.start params) (Tally.start params).entered (withParams params)
      (.start params) := by
  have hnames : (withParams params).names = addNames [] params := by rw [withParams_eq]
  have hlabel : (withParams params).nextLabel = 0 := by rw [withParams_eq]; rfl
  exact ⟨List.prefix_rfl, Nat.le_refl _, rfl, hlabel, hnames, Nat.le_refl _, List.prefix_rfl, rfl⟩

/-- What has been built can be taken as the start of what follows. -/
theorem Builder.Follows.restart {b₀ b : Builder} {t₀ t : Tally} {loops : List StmtId}
    (h : b₀.Follows t₀ loops b t) : b.Follows t t.entered b t :=
  ⟨List.prefix_rfl, Nat.le_refl _, rfl, h.label, h.names, Nat.le_refl _, List.prefix_rfl, rfl⟩

theorem Builder.Follows.names_prefix {b₀ b : Builder} {t₀ t : Tally} {loops : List StmtId}
    (h₀ : b₀.names = addNames [] t₀.bound) (h : b₀.Follows t₀ loops b t) :
    b₀.names <+: b.names := by
  obtain ⟨more, hmore⟩ := h.bound
  rw [h.names, h₀, ← hmore, addNames_append]
  exact prefix_addNames _ _

/-- As long as the labels do not run out, later ones have greater numbers. -/
theorem Builder.Follows.nextLabel_le {b₀ b : Builder} {t₀ t : Tally} {loops : List StmtId}
    (h₀ : b₀.nextLabel = UInt32.ofNat t₀.labels) (h : b₀.Follows t₀ loops b t)
    (hlabels : t.labels < UInt32.size) : b₀.nextLabel ≤ b.nextLabel := by
  rw [UInt32.le_iff_toNat_le, h.label, h₀, UInt32.toNat_ofNat_of_lt' hlabels,
    UInt32.toNat_ofNat_of_lt' (Nat.lt_of_le_of_lt h.labels hlabels)]
  exact h.labels

theorem Builder.follows_later (params : List String) (earlier later : List Call) :
    let a := (withParams params).afterCalls earlier
    let t := (Tally.start params).afterCalls earlier
    a.Follows t (t.afterCalls later).entered ((withParams params).afterCalls (earlier ++ later))
      ((Tally.start params).afterCalls (earlier ++ later)) := by
  intro a t
  have hb : (withParams params).afterCalls (earlier ++ later) = a.afterCalls later :=
    List.foldl_append
  have ht : (Tally.start params).afterCalls (earlier ++ later) = t.afterCalls later :=
    List.foldl_append
  rw [hb, ht]
  exact ((follows_start params).afterCalls earlier).restart.afterCalls later

/-- **Builders only grow.**  Begin with an empty builder, or with one that has slots for parameters,
    and make any calls, some of which may fail midway, but do not take more labels than there are.
    Then code is only appended, no counter goes back and no name loses its slot.  Different names
    have different slots, the slots in use are 0, 1, 2 and so on, and the names hold them in the
    order in which they were first bound.  Parameters that are all different hold the first ones. -/
theorem builders_only_grow (params : List String) (calls : List Call)
    (hlabels : ((Tally.start params).afterCalls calls).labels < UInt32.size) :
    let start := Builder.withParams params
    let b := start.afterCalls calls
    let t := (Tally.start params).afterCalls calls
    Builder.withParams [] = .empty ∧
    (∀ earlier later, calls = earlier ++ later →
      let a := start.afterCalls earlier
      a.code.toList <+: b.code.toList ∧ a.nextReg ≤ b.nextReg ∧ a.nextLabel ≤ b.nextLabel ∧
        a.slotCount ≤ b.slotCount ∧ ∀ x i, a.slot? x = some i → b.slot? x = some i) ∧
    b.nextLabel.toNat = t.labels ∧
    (∀ x y i, b.slot? x = some i → b.slot? y = some i → x = y) ∧
    (∀ i, (∃ x, b.slot? x = some i) ↔ i < b.slotCount) ∧
    (∀ x, (b.slot? x).isSome ↔ x ∈ t.bound) ∧
    (∀ x y i j, b.slot? x = some i → b.slot? y = some j →
      (i < j ↔ t.bound.idxOf x < t.bound.idxOf y)) ∧
    (params.Nodup → b.paramCount = params.length ∧
      ∀ i x, params[i]? = some x → b.slot? x = some i) := by
  intro start b t
  have hall := (Builder.follows_start params).afterCalls calls
  have hnames : b.names = addNames [] t.bound := hall.names
  have hnodup : b.names.Nodup := by
    rw [hnames]
    exact nodup_addNames List.nodup_nil t.bound
  refine ⟨rfl, ?_, ?_, ?_, ?_, ?_, ?_, ?_⟩
  · rintro earlier later rfl a
    have hearlier := (Builder.follows_start params).afterCalls earlier
    have hlater := Builder.follows_later params earlier later
    have hprefix := hlater.names_prefix hearlier.names
    refine ⟨hlater.code, hlater.reg, hlater.nextLabel_le hearlier.label hlabels,
      hprefix.length_le, ?_⟩
    intro x i hx
    exact Builder.slot?_of_prefix hprefix hx
  · rw [hall.label]
    exact UInt32.toNat_ofNat_of_lt' hlabels
  · intro x y i hx hy
    exact Builder.slot?_injective hx hy
  · exact Builder.exists_slot?_iff hnodup
  · intro x
    rw [Option.isSome_iff_exists]
    simp [Builder.slot?_eq_some_iff, hnames, mem_addNames]
  · intro x y i j hx hy
    obtain ⟨-, rfl⟩ := Builder.slot?_eq_some_iff.mp hx
    obtain ⟨-, rfl⟩ := Builder.slot?_eq_some_iff.mp hy
    rw [hnames]
    exact idxOf_addNames_lt_iff [] t.bound x y
  · intro hparams
    have hfirst : start.names = params := by
      rw [(Builder.follows_start params).names]
      exact addNames_of_nodup hparams
    have hprefix : start.names <+: b.names :=
      hall.names_prefix (Builder.follows_start params).names
    constructor
    · rw [hall.params, Builder.withParams_eq]
    · intro i x hx
      apply Builder.slot?_of_prefix hprefix
      apply Builder.slot?_eq_some_iff.mpr
      rw [hfirst]
      obtain ⟨hi, rfl⟩ := List.getElem?_eq_some_iff.mp hx
      exact ⟨List.getElem_mem hi, hparams.idxOf_getElem i hi⟩

/-- The assignment `x = 1` and then, as long as `n`, the assignments `y = n` and `x = m`.  Nothing
    is known of `m`. -/
def failingLoop : Stmt :=
  let o := Origin.unknown
  .block ⟨⟨6⟩, o⟩ [.eval ⟨⟨1⟩, o⟩ (.assign o "x" (.int o 1)),
    .whileLoop ⟨⟨5⟩, o⟩ (.ident o "n") (.block ⟨⟨4⟩, o⟩
      [.eval ⟨⟨2⟩, o⟩ (.assign o "y" (.ident o "n")),
        .eval ⟨⟨3⟩, o⟩ (.assign o "x" (.ident o "m"))])]

/-- Lowering the loop fails midway. -/
def callsWithFailure : List Call := [.freshReg, .lowerStmt (.full (.empty {})) [] failingLoop]

def callsAfterFailure : List Call := [.slotFor "m", .freshLabel]

theorem builders_only_grow_failingLoop :
    let a := (Builder.withParams ["n"]).afterCalls callsWithFailure
    let b := (Builder.withParams ["n"]).afterCalls (callsWithFailure ++ callsAfterFailure)
    a.code.size = 7 ∧ a.slot? "y" = some 2 ∧ a.code.toList <+: b.code.toList ∧
      b.nextLabel.toNat = 3 ∧ b.slot? "y" = some 2 ∧ b.slot? "n" = some 0 ∧
      ∀ i, (∃ x, b.slot? x = some i) ↔ i < b.slotCount := by
  have hlabels :
      ((Tally.start ["n"]).afterCalls (callsWithFailure ++ callsAfterFailure)).labels = 3 := by
    decide +kernel
  have hsize : ((Builder.withParams ["n"]).afterCalls callsWithFailure).code.size = 7 := by
    decide +kernel
  have hy : ((Builder.withParams ["n"]).afterCalls callsWithFailure).slot? "y" = some 2 := by
    decide +kernel
  obtain ⟨-, hgrow, hnext, -, hrange, -, -, hparams⟩ :=
    builders_only_grow ["n"] (callsWithFailure ++ callsAfterFailure) (by rw [hlabels]; decide)
  obtain ⟨hcode, -, -, -, hslots⟩ := hgrow callsWithFailure callsAfterFailure rfl
  obtain ⟨-, hslot⟩ := hparams (List.nodup_singleton "n")
  exact ⟨hsize, hy, hcode, hnext.trans hlabels, hslots "y" 2 hy, hslot 0 "n" rfl, hrange⟩

end JumpCode
