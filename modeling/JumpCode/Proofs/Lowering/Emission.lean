import JumpCode.Proofs.Lowering.Shape

/-!
# Lowering emits the shape of the tree

One statement for each function of the lowering: from a builder or walk at a known point, the step
ends with the first violation of the tree if there is one, and otherwise has appended the code of
the tree and has moved on by its numbers of registers, labels and names.

A step is described by `Ends`: with which failure it ends, or else what holds of its result.  The
description of a sequence of steps follows from those of its parts (`Ends.bind`), so each case below
goes through the steps of the definition in order.
-/

namespace JumpCode

/-! ### How a step ends -/

/-- From the state `s` the step `x` ends with the failure `fault`, or, if that is none, with a result
    and a state that satisfy `Q`. -/
def Ends {σ α : Type} (x : EStateM LowerError σ α) (s : σ) (fault : Option LowerError)
    (Q : α → σ → Prop) : Prop :=
  match x s with
  | .ok a s' => fault = none ∧ Q a s'
  | .error e _ => fault = some e

namespace Ends

variable {σ α β : Type} {x : EStateM LowerError σ α} {k : α → EStateM LowerError σ β} {s : σ}
  {f g : Option LowerError} {Q Q' : α → σ → Prop} {R : β → σ → Prop}

theorem bind (hx : Ends x s f Q) (hk : ∀ a s', Q a s' → Ends (k a) s' g R) :
    Ends (x >>= k) s (f <|> g) R := by
  unfold Ends at *
  change match EStateM.bind x k s with
    | .ok a s' => _ ∧ _
    | .error e _ => _
  unfold EStateM.bind
  cases h : x s with
  | ok a s' =>
    rw [h] at hx
    obtain ⟨rfl, hq⟩ := hx
    simpa using hk a s' hq
  | error e s' =>
    rw [h] at hx
    simp [hx]

/-- A first step that cannot fail. -/
theorem step (hx : Ends x s none Q) (hk : ∀ a s', Q a s' → Ends (k a) s' g R) :
    Ends (x >>= k) s g R := by
  simpa using hx.bind hk

/-- Only the first step can fail. -/
theorem last (hx : Ends x s f Q) (hk : ∀ a s', Q a s' → Ends (k a) s' none R) :
    Ends (x >>= k) s f R := by
  simpa using hx.bind hk

theorem mono (hx : Ends x s f Q) (hq : ∀ a s', Q a s' → Q' a s') : Ends x s f Q' := by
  unfold Ends at *
  cases h : x s with
  | ok a s' =>
    rw [h] at hx
    exact ⟨hx.1, hq a s' hx.2⟩
  | error e s' =>
    rw [h] at hx
    exact hx

/-- What is read from the state is the state. -/
theorem get {k : σ → EStateM LowerError σ β} (h : Ends (k s) s g R) :
    Ends (MonadState.get >>= k) s g R := h

theorem of_ok (hx : Ends x s f Q) {a : α} {s' : σ} (h : x s = .ok a s') : f = none ∧ Q a s' := by
  unfold Ends at hx
  rwa [h] at hx

theorem of_error (hx : Ends x s f Q) {e : LowerError} {s' : σ} (h : x s = .error e s') :
    f = some e := by
  unfold Ends at hx
  rwa [h] at hx

/-- A step without a failure has a result. -/
theorem exists_ok (hx : Ends x s none Q) : ∃ a s', x s = .ok a s' ∧ Q a s' := by
  unfold Ends at hx
  cases h : x s with
  | ok a s' =>
    rw [h] at hx
    exact ⟨a, s', rfl, hx.2⟩
  | error e s' =>
    rw [h] at hx
    cases hx

end Ends

/-! ### Builders -/

namespace Builder

theorem slot?_of_mem {b : Builder} {x : String} (h : x ∈ b.names) :
    b.slot? x = some (b.names.idxOf x) := by
  unfold slot?
  generalize b.names = ns at h
  induction ns with
  | nil => cases h
  | cons y ys ih =>
    by_cases hxy : y = x
    · simp [List.idxOf?_cons, hxy]
    · have hx : x ∈ ys := by
        rcases List.mem_cons.mp h with rfl | hx
        · exact absurd rfl hxy
        · exact hx
      have hne : (y == x) = false := by simpa using hxy
      simp [List.idxOf?_cons, List.idxOf_cons, hne, ih hx]

theorem slot?_of_not_mem {b : Builder} {x : String} (h : x ∉ b.names) : b.slot? x = none := by
  simpa [slot?] using h

theorem slot?_eq_some_iff {b : Builder} {x : String} {i : Slot} :
    b.slot? x = some i ↔ x ∈ b.names ∧ b.names.idxOf x = i := by
  by_cases hx : x ∈ b.names
  · simp [slot?_of_mem hx, hx]
  · simp [slot?_of_not_mem hx, hx]

theorem bindName_eq (b : Builder) (x : String) :
    b.bindName x = { b with names := addName b.names x } := by
  unfold bindName addName
  split <;> rfl

/-- From `b` to `b'` a builder has handed out `regs` registers, given slots to the names `xs` and
    appended the code `ops`, which is a function of the slots of all names. -/
structure Grown (b b' : Builder) (regs : Nat) (xs : List String)
    (ops : (String → Slot) → List Instr) : Prop where
  reg : b'.nextReg = b.nextReg + regs
  label : b'.nextLabel = b.nextLabel
  params : b'.paramCount = b.paramCount
  names : b'.names = addNames b.names xs
  code : ∀ N, b'.names <+: N → b'.code.toList = b.code.toList ++ ops fun x => N.idxOf x

namespace Grown

variable {b b₁ b₂ : Builder} {r₁ r₂ : Nat} {xs₁ xs₂ : List String}
  {ops₁ ops₂ : (String → Slot) → List Instr}

theorem refl (b : Builder) : b.Grown b 0 [] fun _ => [] :=
  ⟨rfl, rfl, rfl, rfl, fun _ _ => by simp⟩

theorem trans (h₁ : b.Grown b₁ r₁ xs₁ ops₁) (h₂ : b₁.Grown b₂ r₂ xs₂ ops₂) :
    b.Grown b₂ (r₁ + r₂) (xs₁ ++ xs₂) fun slot => ops₁ slot ++ ops₂ slot where
  reg := by rw [h₂.reg, h₁.reg, Nat.add_assoc]
  label := h₂.label.trans h₁.label
  params := h₂.params.trans h₁.params
  names := by rw [h₂.names, h₁.names, addNames_append]
  code N hN := by
    have hmore : b₁.names <+: N := by
      refine List.IsPrefix.trans ?_ hN
      rw [h₂.names]
      exact prefix_addNames _ _
    rw [h₂.code N hN, h₁.code N hmore, List.append_assoc]

end Grown

end Builder

namespace Lower

theorem emitTo_ends (i : Reg → Instr) (b : Builder) :
    Ends (emitTo i) b none fun r b' =>
      r = b.nextReg ∧ b.Grown b' 1 [] fun _ => [i b.nextReg] := by
  refine ⟨rfl, rfl, rfl, rfl, rfl, rfl, fun N _ => ?_⟩
  simp [Builder.emit]

theorem emit_ends (i : Instr) (b : Builder) :
    Ends (emit i) b none fun _ b' => b.Grown b' 0 [] fun _ => [i] := by
  refine ⟨rfl, rfl, rfl, rfl, rfl, fun N _ => ?_⟩
  simp [Builder.emit]

/-- The slot of a name that has just been given one is its slot in any longer list of names. -/
theorem slotFor_ends (x : String) (b : Builder) :
    Ends (slotFor x) b none fun i b' =>
      b.Grown b' 0 [x] (fun _ => []) ∧ ∀ N, b'.names <+: N → i = N.idxOf x := by
  refine ⟨rfl, ⟨?_, ?_, ?_, ?_, ?_⟩, ?_⟩
  all_goals simp only [Builder.bindName_eq]
  · rfl
  · rfl
  · intro N _
    simp
  · intro N hN
    exact (idxOf_stable hN (mem_addName.mpr (Or.inr rfl))).symm

end Lower

/-! ### Expressions -/

namespace Expr

open Builder

mutual

/-- Lowering an expression ends with its first violation or appends its code. -/
theorem lower_ends (ctx : Context) (e : Expr) (b : Builder) :
    Ends (e.lower ctx) b (e.violation? ctx b.names) fun r b' =>
      r = e.result b.nextReg ∧
        b.Grown b' e.regCount e.targets fun slot => e.code slot b.nextReg := by
  cases e with
  | int o v => exact Lower.emitTo_ends _ b
  | bool o v => exact Lower.emitTo_ends _ b
  | ident o x =>
    rw [Expr.lower, violation?]
    refine .get ?_
    by_cases hx : x ∈ b.names
    · rw [if_pos hx, slot?_of_mem hx]
      refine (Lower.emitTo_ends _ b).mono fun r b' h => ⟨h.1, ?_⟩
      -- The slot is the same in any longer list of names.
      refine ⟨h.2.reg, h.2.label, h.2.params, h.2.names, fun N hN => ?_⟩
      have hslot : N.idxOf x = b.names.idxOf x := by
        refine idxOf_stable (List.IsPrefix.trans ?_ hN) hx
        rw [h.2.names]
        exact prefix_addNames _ _
      rw [h.2.code N hN, code, hslot]
    · rw [if_neg hx, slot?_of_not_mem hx]
      exact rfl
  | unary o op e =>
    rw [Expr.lower, violation?]
    refine (lower_ends ctx e b).last fun r b₁ h₁ => ?_
    refine (Lower.emitTo_ends _ b₁).mono fun d b₂ h₂ => ?_
    obtain ⟨rfl, h₁⟩ := h₁
    obtain ⟨rfl, h₂⟩ := h₂
    have h := h₁.trans h₂
    simp only [h₁.reg, List.append_nil] at h
    exact ⟨h₁.reg, h⟩
  | binary o op l r =>
    rw [Expr.lower, violation?]
    refine (lower_ends ctx l b).bind fun x b₁ h₁ => ?_
    obtain ⟨rfl, h₁⟩ := h₁
    rw [← h₁.names]
    refine (lower_ends ctx r b₁).last fun y b₂ h₂ => ?_
    obtain ⟨rfl, h₂⟩ := h₂
    refine (Lower.emitTo_ends _ b₂).mono fun d b₃ h₃ => ?_
    obtain ⟨rfl, h₃⟩ := h₃
    have h := h₁.trans (h₂.trans h₃)
    simp only [h₂.reg, h₁.reg, List.append_nil, ← Nat.add_assoc] at h
    exact ⟨by rw [h₂.reg, h₁.reg]; rfl, h⟩
  | assign o x e =>
    rw [Expr.lower, violation?]
    refine (lower_ends ctx e b).last fun r b₁ h₁ => ?_
    obtain ⟨rfl, h₁⟩ := h₁
    refine (Lower.slotFor_ends x b₁).step fun i b₂ h₂ => ?_
    obtain ⟨h₂, hi⟩ := h₂
    refine (Lower.emit_ends _ b₂).step fun _ b₃ h₃ => ?_
    refine ⟨rfl, rfl, ?_⟩
    have h := (h₁.trans h₂).trans h₃
    refine ⟨h.reg, h.label, h.params, by simpa [targets] using h.names, fun N hN => ?_⟩
    have hmore : b₂.names <+: N := by
      simpa [h₃.names] using hN
    rw [h.code N hN, hi N hmore]
    simp [code]
  | call o f args =>
    rw [Expr.lower, violation?]
    cases hf : ctx.find? f with
    | none => exact rfl
    | some sig =>
      by_cases hn : sig.arity = args.length
      · simp only [if_pos hn]
        refine (lowerAll_ends ctx args b).last fun rs b₁ h₁ => ?_
        obtain ⟨rfl, h₁⟩ := h₁
        refine (Lower.emitTo_ends _ b₁).mono fun d b₂ h₂ => ?_
        obtain ⟨rfl, h₂⟩ := h₂
        have h := h₁.trans h₂
        simp only [h₁.reg, List.append_nil] at h
        exact ⟨h₁.reg, h⟩
      · simp only [if_neg hn]
        exact rfl

/-- Lowering some expressions ends with their first violation or appends their code. -/
theorem lowerAll_ends (ctx : Context) (es : List Expr) (b : Builder) :
    Ends (lowerAll ctx es) b (violationAll? ctx b.names es) fun rs b' =>
      rs = results b.nextReg es ∧
        b.Grown b' (regCountAll es) (targetsAll es) fun slot => codeAll slot b.nextReg es := by
  cases es with
  | nil => exact ⟨rfl, rfl, .refl b⟩
  | cons e es =>
    rw [lowerAll, violationAll?]
    refine (lower_ends ctx e b).bind fun r b₁ h₁ => ?_
    obtain ⟨rfl, h₁⟩ := h₁
    rw [← h₁.names]
    refine (lowerAll_ends ctx es b₁).last fun rs b₂ h₂ => ?_
    obtain ⟨rfl, h₂⟩ := h₂
    have h := h₁.trans h₂
    rw [h₁.reg] at h
    exact ⟨rfl, by rw [h₁.reg]; rfl, h⟩

end

end Expr

/-! ### Walks -/

namespace Walk

/-- The walk has got to the point `p`. -/
structure At (w : Walk) (p : Point) : Prop where
  reg : w.builder.nextReg = p.reg
  label : w.builder.nextLabel = UInt32.ofNat p.label
  exits : w.exits = p.exits

/-- From `w` to `w'` a walk has come to the point `p`, given slots to the names `xs`, appended the
    code `ops` and made the visits `vs`. -/
structure Grown (w w' : Walk) (p : Point) (xs : List String) (ops : (String → Slot) → List Instr)
    (vs : List Visit) : Prop where
  at_point : w'.At p
  params : w'.builder.paramCount = w.builder.paramCount
  names : w'.builder.names = addNames w.builder.names xs
  code : ∀ N, w'.builder.names <+: N →
    w'.builder.code.toList = w.builder.code.toList ++ ops fun x => N.idxOf x
  visits : w'.visits.toList = w.visits.toList ++ vs

namespace Grown

variable {w w₁ w₂ : Walk} {p p₁ p₂ : Point} {xs₁ xs₂ : List String}
  {ops₁ ops₂ : (String → Slot) → List Instr} {vs₁ vs₂ : List Visit}

theorem refl (hw : w.At p) : w.Grown w p [] (fun _ => []) [] :=
  ⟨hw, rfl, rfl, fun _ _ => by simp, by simp⟩

theorem trans (h₁ : w.Grown w₁ p₁ xs₁ ops₁ vs₁) (h₂ : w₁.Grown w₂ p₂ xs₂ ops₂ vs₂) :
    w.Grown w₂ p₂ (xs₁ ++ xs₂) (fun slot => ops₁ slot ++ ops₂ slot) (vs₁ ++ vs₂) where
  at_point := h₂.at_point
  params := h₂.params.trans h₁.params
  names := by rw [h₂.names, h₁.names, addNames_append]
  code N hN := by
    have hmore : w₁.builder.names <+: N := by
      refine List.IsPrefix.trans ?_ hN
      rw [h₂.names]
      exact prefix_addNames _ _
    rw [h₂.code N hN, h₁.code N hmore, List.append_assoc]
  visits := by rw [h₂.visits, h₁.visits, List.append_assoc]

/-- The code has become longer by what was appended, whatever the slots. -/
theorem size (h : w.Grown w₁ p₁ xs₁ ops₁ vs₁) {n : Nat} (hn : ∀ slot, (ops₁ slot).length = n) :
    w₁.builder.code.size = w.builder.code.size + n := by
  have hcode := congrArg List.length (h.code _ List.prefix_rfl)
  simpa [hn] using hcode

end Grown

end Walk

namespace Walking

variable {w : Walk} {p : Point}

theorem build_ends {α : Type} {x : Lower α} {f : Option LowerError} {P : α → Prop} {k : Nat}
    {xs : List String} {ops : (String → Slot) → List Instr} (hw : w.At p)
    (hx : Ends x w.builder f fun a b => P a ∧ w.builder.Grown b k xs ops) :
    Ends (build x) w f fun a w' => P a ∧ w.Grown w' (p.useRegs k) xs ops [] := by
  obtain ⟨b, exits, visits⟩ := w
  unfold Ends build at *
  cases h : x b with
  | ok a b' =>
    simp only [h] at hx ⊢
    obtain ⟨hf, ha, hb⟩ := hx
    refine ⟨hf, ha, ⟨?_, ?_, hw.exits⟩, hb.params, hb.names, hb.code, by simp⟩
    · rw [hb.reg, hw.reg]; rfl
    · rw [hb.label, hw.label]; rfl
  | error e b' =>
    simp only [h] at hx ⊢
    exact hx

theorem lowerExpr_ends (ctx : Context) (e : Expr) (hw : w.At p) :
    Ends (build (e.lower ctx)) w (e.violation? ctx w.builder.names) fun r w' =>
      r = e.result p.reg ∧
        w.Grown w' (p.useRegs e.regCount) e.targets (fun slot => e.code slot p.reg) [] := by
  have he := e.lower_ends ctx w.builder
  rw [hw.reg] at he
  exact build_ends hw he

theorem emit_ends (hw : w.At p) (i : Instr) :
    Ends (build (Lower.emit i)) w none fun _ w' => w.Grown w' p [] (fun _ => [i]) [] := by
  have hx := (Lower.emit_ends i w.builder).mono fun _ _ h => And.intro trivial h
  exact (build_ends hw hx).mono fun _ _ h => h.2

theorem freshLabel_ends (hw : w.At p) :
    Ends (build Lower.freshLabel) w none fun l w' =>
      l = .ofNat p.label ∧ w.Grown w' (p.useLabels 1) [] (fun _ => []) [] := by
  obtain ⟨b, exits, visits⟩ := w
  refine ⟨rfl, ?_, ⟨hw.reg, ?_, hw.exits⟩, rfl, rfl, fun _ _ => by simp, by simp⟩
  · exact congrArg Label.mk hw.label
  · change b.nextLabel + 1 = UInt32.ofNat (p.label + 1)
    rw [show b.nextLabel = UInt32.ofNat p.label from hw.label, UInt32.ofNat_add]
    rfl

theorem visit_ends (hw : w.At p) (s : Stmt) :
    Ends (visit s) w none fun _ w' =>
      w.Grown w' p [] (fun _ => []) [⟨s.kindName, s.id, w.builder.code.size⟩] := by
  obtain ⟨b, exits, visits⟩ := w
  exact ⟨rfl, ⟨hw.reg, hw.label, hw.exits⟩, rfl, rfl, fun _ _ => by simp, by simp⟩

theorem enterLoop_ends (hw : w.At p) (loop : StmtId) (l : Label) :
    Ends (enterLoop loop l) w none fun _ w' =>
      w.Grown w' { p with exits := (loop, l) :: p.exits } [] (fun _ => []) [] := by
  obtain ⟨b, exits, visits⟩ := w
  refine ⟨rfl, ⟨hw.reg, hw.label, ?_⟩, rfl, rfl, fun _ _ => by simp, by simp⟩
  exact congrArg _ hw.exits

end Walking

/-! ### Statements -/

theorem lookup_isSome (exits : List (StmtId × Label)) (i : StmtId) :
    (exits.lookup i).isSome = (exits.map Prod.fst).contains i := by
  induction exits with
  | nil => rfl
  | cons x exits ih =>
    rw [List.lookup_cons, List.map_cons, List.contains_cons]
    cases h : i == x.1 with
    | true => rfl
    | false => simpa using ih

/-- A break jumps exactly if its link is a loop that has been entered. -/
theorem Point.exit?_isSome (p : Point) (link : Option StmtId) :
    (p.exit? link).isSome = link.any (p.exits.map Prod.fst).contains := by
  cases link with
  | none => rfl
  | some i => exact lookup_isSome p.exits i

namespace Stmt

open Walking

variable (ctx : Context)

/-- Wherever a walk has got to, lowering the statement ends with the first violation in it, or appends
    its code and visits what is inside it. -/
def LowersAs (s : Stmt) : Prop :=
  ∀ (w : Walk) (p : Point), w.At p → ∀ loop : Option Placed,
    Ends (s.lower (Expr.lower ctx)) w
      (s.violation? ctx w.builder.names (p.exits.map Prod.fst)) fun _ w' =>
        w.Grown w' (s.after p) s.targets (fun slot => s.code slot p)
          ((s.placed loop w.builder.code.size).map Placed.visit)

theorem lowersAs_eval (m : Mark) (e : Expr) : LowersAs ctx (.eval m e) := by
  intro w p hw loop
  rw [Stmt.lower]
  refine (visit_ends hw _).step fun _ w₁ h₁ => ?_
  have he := lowerExpr_ends ctx e h₁.at_point
  rw [h₁.names] at he
  refine he.last fun r w₂ h₂ => ?_
  exact ⟨rfl, h₁.trans h₂.2⟩

theorem lowersAs_ret (m : Mark) (e : Option Expr) : LowersAs ctx (.ret m e) := by
  intro w p hw loop
  cases e with
  | none =>
    rw [Stmt.lower]
    refine (visit_ends hw _).step fun _ w₁ h₁ => ?_
    exact (emit_ends h₁.at_point _).mono fun _ w₂ h₂ => h₁.trans h₂
  | some e =>
    rw [Stmt.lower]
    refine (visit_ends hw _).step fun _ w₁ h₁ => ?_
    have he := lowerExpr_ends ctx e h₁.at_point
    rw [h₁.names] at he
    refine he.last fun r w₂ h₂ => ?_
    obtain ⟨rfl, h₂⟩ := h₂
    refine (emit_ends h₂.at_point _).mono fun _ w₃ h₃ => ?_
    have h := h₁.trans (h₂.trans h₃)
    simp only [List.append_nil, List.nil_append] at h
    exact h

theorem lowersAs_breakLoop (m : Mark) (link : Option StmtId) : LowersAs ctx (.breakLoop m link) := by
  intro w p hw loop
  rw [Stmt.lower, violation?]
  refine (visit_ends hw _).step fun _ w₁ h₁ => ?_
  have hexit : link.bind w₁.exit? = p.exit? link := by
    unfold Walk.exit? Point.exit?
    rw [h₁.at_point.exits]
  rw [← Point.exit?_isSome]
  -- The step reads the exits from the state, which is known here.
  refine .get ?_
  rw [hexit]
  cases hl : p.exit? link with
  | some l =>
    refine (emit_ends h₁.at_point _).mono fun _ w₂ h₂ => ?_
    have hcode (slot) : (Stmt.breakLoop m link).code slot p = [.jump l] := by
      rw [code, hl]
      rfl
    simp only [hcode]
    exact h₁.trans h₂
  | none => exact rfl

/-- Both kinds of conditionals begin with the condition and a branch to a new label. -/
theorem branch_ends {w : Walk} {p : Point} (hw : w.At p) (s : Stmt) (c : Expr)
    {k : Label → Walking Unit} {f : Option LowerError} {Q : Unit → Walk → Prop}
    (hk : ∀ w', w.Grown w' ((p.useRegs c.regCount).useLabels 1) c.targets
      (fun slot => c.code slot p.reg ++ [.branchFalse (c.result p.reg) (.ofNat p.label)])
      [⟨s.kindName, s.id, w.builder.code.size⟩] → Ends (k (.ofNat p.label)) w' f Q) :
    Ends (do
      visit s
      let cond ← build (c.lower ctx)
      let after ← build Lower.freshLabel
      build (Lower.emit (.branchFalse cond after))
      k after) w (c.violation? ctx w.builder.names <|> f) Q := by
  refine (visit_ends hw _).step fun _ w₁ h₁ => ?_
  have hc := lowerExpr_ends ctx c h₁.at_point
  rw [h₁.names] at hc
  refine hc.bind fun r w₂ h₂ => ?_
  obtain ⟨rfl, h₂⟩ := h₂
  refine (freshLabel_ends h₂.at_point).step fun l w₃ h₃ => ?_
  obtain ⟨rfl, h₃⟩ := h₃
  refine (emit_ends h₃.at_point _).step fun _ w₄ h₄ => ?_
  have h := h₁.trans (h₂.trans (h₃.trans h₄))
  simp only [List.append_nil, List.nil_append] at h
  exact hk w₄ h

variable {ctx}

theorem lowersAs_ifThen {t : Stmt} (m : Mark) (c : Expr) (ht : LowersAs ctx t) :
    LowersAs ctx (.ifThen m c t) := by
  intro w p hw loop
  rw [Stmt.lower, violation?]
  refine branch_ends ctx hw _ c fun w₁ hbefore => ?_
  have hthen := ht w₁ _ hbefore.at_point loop
  rw [hbefore.names] at hthen
  refine hthen.last fun _ w₂ h₂ => ?_
  refine (emit_ends h₂.at_point _).mono fun _ w₃ h₃ => ?_
  have h := hbefore.trans (h₂.trans h₃)
  rw [hbefore.size (n := c.size + 1) (by simp)] at h
  simp only [List.append_nil, List.append_assoc, List.cons_append, List.nil_append,
    ← Nat.add_assoc] at h
  exact h

theorem lowersAs_ifElse {t e : Stmt} (m : Mark) (c : Expr) (ht : LowersAs ctx t)
    (he : LowersAs ctx e) : LowersAs ctx (.ifElse m c t e) := by
  intro w p hw loop
  rw [Stmt.lower, violation?]
  refine branch_ends ctx hw _ c fun w₁ hbefore => ?_
  have hthen := ht w₁ _ hbefore.at_point loop
  rw [hbefore.names] at hthen
  refine hthen.bind fun _ w₂ h₂ => ?_
  refine (freshLabel_ends h₂.at_point).step fun l w₃ h₃ => ?_
  obtain ⟨rfl, h₃⟩ := h₃
  refine (emit_ends h₃.at_point _).step fun _ w₄ h₄ => ?_
  refine (emit_ends h₄.at_point _).step fun _ w₅ h₅ => ?_
  have hmiddle := hbefore.trans (h₂.trans (h₃.trans (h₄.trans h₅)))
  rw [hbefore.size (n := c.size + 1) (by simp)] at hmiddle
  simp only [List.append_nil, List.append_assoc, List.cons_append, List.nil_append] at hmiddle
  have helse := he w₅ _ h₅.at_point loop
  rw [hmiddle.names, Point.useLabels_exits, entered_after] at helse
  refine helse.last fun _ w₆ h₆ => ?_
  refine (emit_ends h₆.at_point _).mono fun _ w₇ h₇ => ?_
  have h := hmiddle.trans (h₆.trans h₇)
  rw [hmiddle.size (n := c.size + t.size + 3) (by simp; omega)] at h
  simp only [List.append_nil, List.append_assoc, List.cons_append, List.nil_append,
    ← List.map_append, ← Nat.add_assoc] at h
  exact h

theorem lowersAs_whileLoop {body : Stmt} (m : Mark) (c : Expr) (hbody : LowersAs ctx body) :
    LowersAs ctx (.whileLoop m c body) := by
  intro w p hw loop
  rw [Stmt.lower, violation?]
  refine (visit_ends hw _).step fun _ w₁ h₁ => ?_
  refine (freshLabel_ends h₁.at_point).step fun l w₂ h₂ => ?_
  obtain ⟨rfl, h₂⟩ := h₂
  refine (freshLabel_ends h₂.at_point).step fun l w₃ h₃ => ?_
  obtain ⟨rfl, h₃⟩ := h₃
  refine (enterLoop_ends h₃.at_point _ _).step fun _ w₄ h₄ => ?_
  refine (emit_ends h₄.at_point _).step fun _ w₅ h₅ => ?_
  have hbefore := h₁.trans (h₂.trans (h₃.trans (h₄.trans h₅)))
  simp only [List.append_nil, List.nil_append] at hbefore
  have hc := lowerExpr_ends ctx c h₅.at_point
  rw [hbefore.names] at hc
  refine hc.bind fun r w₆ h₆ => ?_
  obtain ⟨rfl, h₆⟩ := h₆
  refine (emit_ends h₆.at_point _).step fun _ w₇ h₇ => ?_
  have hcond := hbefore.trans (h₆.trans h₇)
  simp only [List.append_nil, List.nil_append] at hcond
  -- Inside the body this loop is the innermost one.
  have hinner := hbody w₇ _ h₇.at_point
    (some ⟨.whileLoop m c body, w.builder.code.size, loop⟩)
  rw [hcond.names] at hinner
  refine hinner.last fun _ w₈ h₈ => ?_
  refine (emit_ends h₈.at_point _).step fun _ w₉ h₉ => ?_
  refine (emit_ends h₉.at_point _).mono fun _ w₁₀ h₁₀ => ?_
  have h := hcond.trans (h₈.trans (h₉.trans h₁₀))
  rw [hcond.size (n := c.size + 2) (by simp)] at h
  simp only [List.append_nil, List.append_assoc, List.cons_append, List.nil_append,
    ← Nat.add_assoc] at h
  exact h

variable (ctx)

mutual

/-- **Lowering a statement ends with its first violation or appends its code.** -/
theorem lower_ends (s : Stmt) : LowersAs ctx s := by
  cases s with
  | block m body =>
    intro w p hw loop
    rw [Stmt.lower]
    refine (visit_ends hw _).step fun _ w₁ h₁ => ?_
    have hbody := lowerAll_ends body w₁ p h₁.at_point loop
    rw [h₁.names] at hbody
    refine hbody.mono fun _ w₂ h₂ => ?_
    have h := h₁.trans h₂
    rw [h₁.size fun _ => rfl] at h
    exact h
  | eval m e => exact lowersAs_eval ctx m e
  | ret m e => exact lowersAs_ret ctx m e
  | ifThen m c t => exact lowersAs_ifThen m c (lower_ends t)
  | ifElse m c t e => exact lowersAs_ifElse m c (lower_ends t) (lower_ends e)
  | whileLoop m c body => exact lowersAs_whileLoop m c (lower_ends body)
  | breakLoop m link => exact lowersAs_breakLoop ctx m link

theorem lowerAll_ends (ss : List Stmt) (w : Walk) (p : Point) (hw : w.At p)
    (loop : Option Placed) :
    Ends (lowerAll (Expr.lower ctx) ss) w
      (violationAll? ctx w.builder.names (p.exits.map Prod.fst) ss) fun _ w' =>
        w.Grown w' (afterAll p ss) (targetsAll ss) (fun slot => codeAll slot p ss)
          ((placedAll loop w.builder.code.size ss).map Placed.visit) := by
  cases ss with
  | nil => exact ⟨rfl, .refl hw⟩
  | cons s ss =>
    rw [lowerAll, violationAll?]
    refine (lower_ends s w p hw loop).bind fun _ w₁ h₁ => ?_
    have hss := lowerAll_ends ss w₁ (s.after p) h₁.at_point loop
    rw [h₁.names, entered_after, h₁.size fun slot => length_code slot p s] at hss
    refine hss.mono fun _ w₂ h₂ => ?_
    have h := h₁.trans h₂
    rw [← List.map_append] at h
    exact h

end

end Stmt

/-! ### Functions -/

namespace Builder

theorem foldl_bindName (xs : List String) (b : Builder) :
    xs.foldl bindName b = { b with names := addNames b.names xs } := by
  induction xs generalizing b with
  | nil => rfl
  | cons x xs ih => rw [List.foldl_cons, ih, bindName_eq, addNames_cons]

theorem withParams_eq (params : List String) :
    withParams params = { empty with names := addNames [] params, paramCount := params.length } := by
  rw [withParams, foldl_bindName]
  rfl

end Builder

namespace Function

/-- All names of a function that have a slot, in the order of the slots. -/
def slotNames (f : Function) : List String := addNames [] (f.params ++ f.body.targets)

/-- The code of the body of a function. -/
def bodyCode (f : Function) : List Instr := f.body.code (fun x => f.slotNames.idxOf x) .start

/-- The first thing wrong with a function. -/
def violation? (ctx : Context) (f : Function) : Option LowerError :=
  f.body.violation? ctx (addNames [] f.params) []

/-- The builder when the body of a function has been lowered. -/
def built (f : Function) : Builder where
  nextReg := (f.body.after .start).reg
  nextLabel := .ofNat f.body.labelCount
  paramCount := f.params.length
  names := f.slotNames
  code := f.bodyCode.toArray

theorem walk_ends (ctx : Context) (f : Function) (loop : Option Placed) :
    Ends (f.body.lower (Expr.lower ctx)) (.start (.withParams f.params)) (f.violation? ctx) fun _ w =>
      w.builder = f.built ∧ w.visits.toList = (f.body.placed loop 0).map Placed.visit := by
  rw [Builder.withParams_eq]
  refine (f.body.lower_ends ctx _ .start ?_ loop).mono fun _ w h => ?_
  · exact ⟨rfl, rfl, rfl⟩
  obtain ⟨⟨reg, label, paramCount, names, code⟩, exits, visits⟩ := w
  have hnames : names = f.slotNames := by
    rw [slotNames, addNames_append]
    exact h.names
  have hcode : code.toList = f.bodyCode := h.code f.slotNames (by simp [hnames])
  have hlabel : label = .ofNat f.body.labelCount := by
    have := h.at_point.label
    simpa [Point.start] using this
  have hreg : reg = (f.body.after .start).reg := h.at_point.reg
  have hparams : paramCount = f.params.length := h.params
  constructor
  · subst hnames hlabel hreg hparams
    rw [built, ← hcode, Array.toArray_toList]
  · exact h.visits

/-- A function without a violation is walked through to its end. -/
theorem walk_of_violation_none {ctx : Context} {f : Function} (h : f.violation? ctx = none)
    (loop : Option Placed) :
    ∃ w, f.walk ctx = .ok () w ∧ w.builder = f.built ∧
      w.visits.toList = (f.body.placed loop 0).map Placed.visit := by
  have hends := f.walk_ends ctx loop
  rw [h] at hends
  obtain ⟨_, w, hw, hq⟩ := hends.exists_ok
  exact ⟨w, hw, hq⟩

theorem violation_none_of_walk {ctx : Context} {f : Function} {w : Walk}
    (h : f.walk ctx = .ok () w) : f.violation? ctx = none :=
  ((f.walk_ends ctx none).of_ok h).1

theorem built_of_walk {ctx : Context} {f : Function} {w : Walk} (h : f.walk ctx = .ok () w) :
    w.builder = f.built :=
  ((f.walk_ends ctx none).of_ok h).2.1

theorem violation_of_walk_error {ctx : Context} {f : Function} {e : LowerError} {w : Walk}
    (h : f.walk ctx = .error e w) : f.violation? ctx = some e :=
  (f.walk_ends ctx none).of_error h

/-- Lowering a function without a violation comes down to finding the places of its labels. -/
theorem lower_of_violation_none {ctx : Context} {f : Function} (h : f.violation? ctx = none) :
    f.lower ctx = (if ctx.options.implicitReturn then f.built.close else f.built).finish f.name
      ctx.options.verifyLabels := by
  obtain ⟨w, hw, hb, -⟩ := walk_of_violation_none h none
  unfold lower
  rw [hw]
  simp only [hb]

/-- A function with a violation fails with it. -/
theorem lower_of_violation_some {ctx : Context} {f : Function} {e : LowerError}
    (h : f.violation? ctx = some e) : f.lower ctx = .error (e.inFunction f.name) := by
  unfold lower
  cases hw : f.walk ctx with
  | ok a w =>
    have hnone := violation_none_of_walk hw
    rw [h] at hnone
    cases hnone
  | error e' w =>
    have hsome := violation_of_walk_error hw
    rw [h] at hsome
    cases hsome
    rfl

/-- The failure of a function, if it cannot be lowered. -/
def failure? (ctx : Context) (f : Function) : Option LowerError :=
  match f.lower ctx with
  | .ok _ => none
  | .error e => some e

end Function

/-! ### Programs -/

theorem Lowered.foldl_add (ctx : Context) (fs : List Function) (l : Lowered) :
    fs.foldl (fun l f => l.add (f.lower ctx)) l =
      ⟨l.routines ++ fs.filterMap fun f => (f.lower ctx).toOption,
        l.errors ++ fs.filterMap (Function.failure? ctx)⟩ := by
  induction fs generalizing l with
  | nil => simp
  | cons f fs ih =>
    rw [List.foldl_cons, ih]
    cases hf : f.lower ctx with
    | ok r => simp [add, Function.failure?, hf, Except.toOption]
    | error e => simp [add, Function.failure?, hf, Except.toOption]

/-- Every function of a program gives a routine or a failure, in the order of the program. -/
theorem Program.lower_eq (p : Program) (options : LowerOptions) :
    p.lower options =
      ⟨p.functions.filterMap fun f => (f.lower (.ofProgram p options)).toOption,
        p.functions.filterMap (Function.failure? (.ofProgram p options))⟩ := by
  rw [lower, Lowered.foldl_add]
  rfl

end JumpCode
