import JumpCode.Proofs.Lowering.Emission
import Mathlib.Data.List.Forall2

/-!
# Two walks in step

Lowering looks at names only to tell them apart, at the numbers of statements only to find the loop
that a break names, and at the counters of its builder only to hand out the next register or label.
So let two trees differ by a renaming of variables and statements, and let two builders differ in
their code and counters, and in their names by the same renaming.  Lowering the first tree from the
first builder and the second tree from the second one goes in step: both walks fail at the same node,
or both succeed, and the instructions that they append differ by the distances of the counters alone.

`Abreast` says how two steps end together, and the steps of the definition are gone through in order
with `Abreast.bind`.  `Builder.Apart` is what holds of the two builders all along, and the main
result is `Stmt.lower_abreast`.
-/

namespace JumpCode

/-! ### Renamings -/

/-- New names for variables and new numbers for statements, different ones for different ones. -/
structure Renaming where
  name : String → String
  id : StmtId → StmtId
  name_injective : Function.Injective name
  id_injective : Function.Injective id

namespace Renaming

/-- Every name and number stays what it is. -/
def refl : Renaming := ⟨fun x => x, fun i => i, fun _ _ h => h, fun _ _ h => h⟩

variable (ρ : Renaming)

theorem mem_map_name {ns : List String} {x : String} : ρ.name x ∈ ns.map ρ.name ↔ x ∈ ns :=
  List.mem_map_of_injective ρ.name_injective

theorem idxOf_map_name (ns : List String) (x : String) :
    (ns.map ρ.name).idxOf (ρ.name x) = ns.idxOf x := by
  induction ns with
  | nil => rfl
  | cons y ns ih =>
    by_cases hxy : y = x
    · simp [hxy]
    · have hne : ρ.name y ≠ ρ.name x := fun h => hxy (ρ.name_injective h)
      rw [List.map_cons, List.idxOf_cons_ne _ hne, List.idxOf_cons_ne _ hxy, ih]

theorem map_addName (ns : List String) (x : String) :
    (addName ns x).map ρ.name = addName (ns.map ρ.name) (ρ.name x) := by
  unfold addName
  by_cases hx : x ∈ ns
  · rw [if_pos hx, if_pos (ρ.mem_map_name.mpr hx)]
  · rw [if_neg hx, if_neg (mt ρ.mem_map_name.mp hx), List.map_append]
    rfl

theorem map_addNames (ns xs : List String) :
    (addNames ns xs).map ρ.name = addNames (ns.map ρ.name) (xs.map ρ.name) := by
  induction xs generalizing ns with
  | nil => rfl
  | cons x xs ih => rw [addNames_cons, ih, ρ.map_addName, List.map_cons, addNames_cons]

end Renaming

namespace Expr

mutual

/-- The expression with its variables renamed.  Functions that it calls keep their names. -/
def rename (ρ : Renaming) : Expr → Expr
  | .int o v => .int o v
  | .bool o b => .bool o b
  | .ident o x => .ident o (ρ.name x)
  | .unary o op e => .unary o op (e.rename ρ)
  | .binary o op l r => .binary o op (l.rename ρ) (r.rename ρ)
  | .assign o x e => .assign o (ρ.name x) (e.rename ρ)
  | .call o f args => .call o f (renameAll ρ args)

def renameAll (ρ : Renaming) : List Expr → List Expr
  | [] => []
  | e :: es => e.rename ρ :: renameAll ρ es

end

theorem length_renameAll (ρ : Renaming) (es : List Expr) : (renameAll ρ es).length = es.length := by
  induction es with
  | nil => rfl
  | cons e es ih => rw [renameAll, List.length_cons, List.length_cons, ih]

mutual

/-- New numbers for statements do not concern expressions. -/
theorem rename_eq_self {ρ : Renaming} (hρ : ∀ x, ρ.name x = x) (e : Expr) : e.rename ρ = e := by
  cases e with
  | int o v => rfl
  | bool o v => rfl
  | ident o x => rw [rename, hρ x]
  | unary o op e => rw [rename, rename_eq_self hρ e]
  | binary o op l r => rw [rename, rename_eq_self hρ l, rename_eq_self hρ r]
  | assign o x e => rw [rename, hρ x, rename_eq_self hρ e]
  | call o f args => rw [rename, renameAll_eq_self hρ args]

theorem renameAll_eq_self {ρ : Renaming} (hρ : ∀ x, ρ.name x = x) (es : List Expr) :
    renameAll ρ es = es := by
  cases es with
  | nil => rfl
  | cons e es => rw [renameAll, rename_eq_self hρ e, renameAll_eq_self hρ es]

end

end Expr

def Mark.rename (ρ : Renaming) (m : Mark) : Mark := { m with id := ρ.id m.id }

namespace Stmt

mutual

/-- The statement with its variables renamed, and with new numbers for it and all statements inside,
    also where breaks name them. -/
@[simp]
def rename (ρ : Renaming) : Stmt → Stmt
  | .block m body => .block (m.rename ρ) (renameAll ρ body)
  | .eval m e => .eval (m.rename ρ) (e.rename ρ)
  | .ret m e => .ret (m.rename ρ) (e.map (Expr.rename ρ))
  | .ifThen m c t => .ifThen (m.rename ρ) (c.rename ρ) (t.rename ρ)
  | .ifElse m c t e => .ifElse (m.rename ρ) (c.rename ρ) (t.rename ρ) (e.rename ρ)
  | .whileLoop m c body => .whileLoop (m.rename ρ) (c.rename ρ) (body.rename ρ)
  | .breakLoop m loop => .breakLoop (m.rename ρ) (loop.map ρ.id)

@[simp]
def renameAll (ρ : Renaming) : List Stmt → List Stmt
  | [] => []
  | s :: ss => s.rename ρ :: renameAll ρ ss

end

end Stmt

/-- The cause of a failure with its variable, or the statements that it tells of, renamed. -/
def LowerErrorKind.rename (ρ : Renaming) : LowerErrorKind → LowerErrorKind
  | .unresolvedBreak s loop => .unresolvedBreak (ρ.id s) (loop.map ρ.id)
  | .unknownIdentifier x => .unknownIdentifier (ρ.name x)
  | .unknownFunction f => .unknownFunction f
  | .arityMismatch f expected found => .arityMismatch f expected found
  | .duplicateLabel l first second => .duplicateLabel l first second
  | .danglingJump l place => .danglingJump l place

def LowerError.rename (ρ : Renaming) (e : LowerError) : LowerError :=
  { e with kind := e.kind.rename ρ }

/-! ### Steps side by side -/

/-- From the states `s` and `t` the steps `x` and `y` end together: both fail, and the failures and
    the states satisfy `E`, or both have a result, and the results and the states satisfy `Q`. -/
def Abreast {σ α β : Type} (x : EStateM LowerError σ α) (y : EStateM LowerError σ β) (s t : σ)
    (E : LowerError → LowerError → σ → σ → Prop) (Q : α → β → σ → σ → Prop) : Prop :=
  match x s, y t with
  | .ok a s', .ok b t' => Q a b s' t'
  | .error e s', .error f t' => E e f s' t'
  | _, _ => False

namespace Abreast

variable {σ α β γ δ : Type} {x : EStateM LowerError σ α} {y : EStateM LowerError σ β} {s t : σ}
  {E : LowerError → LowerError → σ → σ → Prop} {Q Q' : α → β → σ → σ → Prop}

theorem cases (h : Abreast x y s t E Q) :
    (∃ a s' b t', x s = .ok a s' ∧ y t = .ok b t' ∧ Q a b s' t') ∨
      ∃ e s' f t', x s = .error e s' ∧ y t = .error f t' ∧ E e f s' t' := by
  unfold Abreast at h
  cases hx : x s with
  | ok a s' =>
    cases hy : y t with
    | ok b t' =>
      rw [hx, hy] at h
      exact Or.inl ⟨a, s', b, t', rfl, rfl, h⟩
    | error f t' =>
      rw [hx, hy] at h
      exact h.elim
  | error e s' =>
    cases hy : y t with
    | ok b t' =>
      rw [hx, hy] at h
      exact h.elim
    | error f t' =>
      rw [hx, hy] at h
      exact Or.inr ⟨e, s', f, t', rfl, rfl, h⟩

theorem of_ok {a : α} {b : β} {s' t' : σ} (hx : x s = .ok a s') (hy : y t = .ok b t')
    (h : Q a b s' t') : Abreast x y s t E Q := by
  unfold Abreast
  rw [hx, hy]
  exact h

theorem of_error {e f : LowerError} {s' t' : σ} (hx : x s = .error e s') (hy : y t = .error f t')
    (h : E e f s' t') : Abreast x y s t E Q := by
  unfold Abreast
  rw [hx, hy]
  exact h

theorem mono (h : Abreast x y s t E Q) (hQ : ∀ a b s' t', Q a b s' t' → Q' a b s' t') :
    Abreast x y s t E Q' := by
  rcases h.cases with ⟨a, s', b, t', hx, hy, h⟩ | ⟨e, s', f, t', hx, hy, h⟩
  · exact of_ok hx hy (hQ a b s' t' h)
  · exact of_error hx hy h

theorem bind {k : α → EStateM LowerError σ γ} {l : β → EStateM LowerError σ δ}
    {R : γ → δ → σ → σ → Prop} (h : Abreast x y s t E Q)
    (hk : ∀ a b s' t', Q a b s' t' → Abreast (k a) (l b) s' t' E R) :
    Abreast (x >>= k) (y >>= l) s t E R := by
  rcases h.cases with ⟨a, s', b, t', hx, hy, h⟩ | ⟨e, s', f, t', hx, hy, h⟩
  · have hbx : (x >>= k) s = k a s' := by
      change EStateM.bind x k s = _
      rw [EStateM.bind, hx]
    have hby : (y >>= l) t = l b t' := by
      change EStateM.bind y l t = _
      rw [EStateM.bind, hy]
    unfold Abreast
    rw [hbx, hby]
    exact hk a b s' t' h
  · have hbx : (x >>= k) s = .error e s' := by
      change EStateM.bind x k s = _
      rw [EStateM.bind, hx]
    have hby : (y >>= l) t = .error f t' := by
      change EStateM.bind y l t = _
      rw [EStateM.bind, hy]
    exact of_error hbx hby h

/-- What is read from the states are the states. -/
theorem get {k : σ → EStateM LowerError σ γ} {l : σ → EStateM LowerError σ δ}
    {R : γ → δ → σ → σ → Prop} (h : Abreast (k s) (l t) s t E R) :
    Abreast (MonadState.get >>= k) (MonadState.get >>= l) s t E R := h

end Abreast

/-! ### Instructions and builders that differ by their counters -/

/-- Two instructions that differ in their registers as `R` says, in their labels as `L` says, and in
    nothing else. -/
inductive Instr.Alike (R : Reg → Reg → Prop) (L : Label → Label → Prop) : Instr → Instr → Prop
  | const {d d' : Reg} (v : Value) (hd : R d d') : Alike R L (.const d v) (.const d' v)
  | load {d d' : Reg} (i : Slot) (hd : R d d') : Alike R L (.load d i) (.load d' i)
  | store {s s' : Reg} (i : Slot) (hs : R s s') : Alike R L (.store s i) (.store s' i)
  | binary (op : BinaryOp) {d d' l l' r r' : Reg} (hd : R d d') (hl : R l l') (hr : R r r') :
      Alike R L (.binary op d l r) (.binary op d' l' r')
  | unary (op : UnaryOp) {d d' s s' : Reg} (hd : R d d') (hs : R s s') :
      Alike R L (.unary op d s) (.unary op d' s')
  | label {l l' : Label} (hl : L l l') : Alike R L (.label l) (.label l')
  | jump {l l' : Label} (hl : L l l') : Alike R L (.jump l) (.jump l')
  | branchFalse {c c' : Reg} {l l' : Label} (hc : R c c') (hl : L l l') :
      Alike R L (.branchFalse c l) (.branchFalse c' l')
  | call {d d' : Reg} (f : String) {args args' : List Reg} (hd : R d d')
      (hargs : List.Forall₂ R args args') : Alike R L (.call d f args) (.call d' f args')
  | ret {s s' : Reg} (hs : R s s') : Alike R L (.ret s) (.ret s')
  | retVoid : Alike R L .retVoid .retVoid

theorem Instr.Alike.mono {R R' : Reg → Reg → Prop} {L L' : Label → Label → Prop} {i i' : Instr}
    (h : Alike R L i i') (hR : ∀ r r', R r r' → R' r r') (hL : ∀ l l', L l l' → L' l l') :
    Alike R' L' i i' := by
  cases h with
  | const v hd => exact .const v (hR _ _ hd)
  | load i hd => exact .load i (hR _ _ hd)
  | store i hs => exact .store i (hR _ _ hs)
  | binary op hd hl hr => exact .binary op (hR _ _ hd) (hR _ _ hl) (hR _ _ hr)
  | unary op hd hs => exact .unary op (hR _ _ hd) (hR _ _ hs)
  | label hl => exact .label (hL _ _ hl)
  | jump hl => exact .jump (hL _ _ hl)
  | branchFalse hc hl => exact .branchFalse (hR _ _ hc) (hL _ _ hl)
  | call f hd hargs => exact .call f (hR _ _ hd) (hargs.imp hR)
  | ret hs => exact .ret (hR _ _ hs)
  | retVoid => exact .retVoid

/-- Two registers that are handed out at the same distance from where the builders `o` and `o'`
    were. -/
def RegsApart (o o' : Builder) (r r' : Reg) : Prop := ∃ i, r = o.nextReg + i ∧ r' = o'.nextReg + i

/-- Two labels that are handed out at the same distance, among the first `k`, from where the builders
    `o` and `o'` were. -/
def LabelsApart (o o' : Builder) (k : Nat) (l l' : Label) : Prop :=
  ∃ i < k, l = ⟨o.nextLabel + .ofNat i⟩ ∧ l' = ⟨o'.nextLabel + .ofNat i⟩

theorem LabelsApart.mono {o o' : Builder} {k n : Nat} (hkn : k ≤ n) {l l' : Label}
    (h : LabelsApart o o' k l l') : LabelsApart o o' n l l' := by
  obtain ⟨i, hi, hl⟩ := h
  exact ⟨i, Nat.lt_of_lt_of_le hi hkn, hl⟩

/-- From the builders `o` and `o'` two walks have come to `b` and `b'`: each has taken `k` labels and
    the same number of registers, the names differ by the renaming, and the instructions that were
    appended differ by the distances of the counters. -/
structure Builder.Apart (ρ : Renaming) (o o' : Builder) (k : Nat) (b b' : Builder) : Prop where
  reg : RegsApart o o' b.nextReg b'.nextReg
  label : b.nextLabel = o.nextLabel + .ofNat k
  label' : b'.nextLabel = o'.nextLabel + .ofNat k
  params : b.paramCount = o.paramCount
  params' : b'.paramCount = o'.paramCount
  names : b'.names = b.names.map ρ.name
  code : ∃ ops ops', b.code.toList = o.code.toList ++ ops ∧ b'.code.toList = o'.code.toList ++ ops' ∧
    List.Forall₂ (Instr.Alike (RegsApart o o') (LabelsApart o o' k)) ops ops'

/-- Two walks have failed at the same node, having taken at most `n` labels. -/
def Builder.FailApart (ρ : Renaming) (o o' : Builder) (n : Nat) (e e' : LowerError)
    (b b' : Builder) : Prop :=
  e' = e.rename ρ ∧ ∃ k ≤ n, Apart ρ o o' k b b'

section

variable {ρ : Renaming} {o o' b b' : Builder} {k n : Nat}

namespace Builder

theorem Apart.start (hnames : b'.names = b.names.map ρ.name) : Apart ρ b b' 0 b b' where
  reg := ⟨0, rfl, rfl⟩
  label := by simp
  label' := by simp
  params := rfl
  params' := rfl
  names := hnames
  code := ⟨[], [], by simp, by simp, .nil⟩

theorem Apart.emit {i i' : Instr} (h : Apart ρ o o' k b b')
    (hi : Instr.Alike (RegsApart o o') (LabelsApart o o' k) i i') :
    Apart ρ o o' k (b.emit i) (b'.emit i') where
  reg := h.reg
  label := h.label
  label' := h.label'
  params := h.params
  params' := h.params'
  names := h.names
  code := by
    obtain ⟨ops, ops', hops, hops', halike⟩ := h.code
    refine ⟨ops ++ [i], ops' ++ [i'], ?_, ?_, ?_⟩
    · simp [Builder.emit, hops]
    · simp [Builder.emit, hops']
    · exact List.rel_append halike (.cons hi .nil)

end Builder

namespace Lower

variable {E : LowerError → LowerError → Builder → Builder → Prop}

theorem emit_abreast {i i' : Instr} (h : Builder.Apart ρ o o' k b b')
    (hi : Instr.Alike (RegsApart o o') (LabelsApart o o' k) i i') :
    Abreast (emit i) (emit i') b b' E fun _ _ c c' => Builder.Apart ρ o o' k c c' :=
  h.emit hi

theorem emitTo_abreast {i i' : Reg → Instr} (h : Builder.Apart ρ o o' k b b')
    (hi : ∀ r r', RegsApart o o' r r' →
      Instr.Alike (RegsApart o o') (LabelsApart o o' k) (i r) (i' r')) :
    Abreast (emitTo i) (emitTo i') b b' E fun r r' c c' =>
      RegsApart o o' r r' ∧ Builder.Apart ρ o o' k c c' := by
  have hnext : Builder.Apart ρ o o' k { b with nextReg := b.nextReg + 1 }
      { b' with nextReg := b'.nextReg + 1 } := by
    obtain ⟨j, hj, hj'⟩ := h.reg
    exact { h with reg := ⟨j + 1, congrArg (· + 1) hj, congrArg (· + 1) hj'⟩ }
  exact ⟨h.reg, hnext.emit (hi _ _ h.reg)⟩

theorem freshLabel_abreast (h : Builder.Apart ρ o o' k b b') :
    Abreast freshLabel freshLabel b b' E fun l l' c c' =>
      LabelsApart o o' (k + 1) l l' ∧ Builder.Apart ρ o o' (k + 1) c c' := by
  have hnext (m : UInt32) : m + .ofNat k + 1 = m + .ofNat (k + 1) := by
    rw [UInt32.add_assoc, UInt32.ofNat_add]
    rfl
  refine ⟨⟨k, Nat.lt_succ_self k, ?_, ?_⟩, h.reg, ?_, ?_, h.params, h.params', h.names, ?_⟩
  · exact congrArg Label.mk h.label
  · exact congrArg Label.mk h.label'
  · rw [← hnext, ← h.label]
  · rw [← hnext, ← h.label']
  · obtain ⟨ops, ops', hops, hops', halike⟩ := h.code
    refine ⟨ops, ops', hops, hops', halike.imp fun i i' hi => ?_⟩
    exact hi.mono (fun _ _ hr => hr) fun _ _ hl => hl.mono (Nat.le_succ k)

/-- A name and its new name get the same slot. -/
theorem slotFor_abreast (h : Builder.Apart ρ o o' k b b') (x : String) :
    Abreast (slotFor x) (slotFor (ρ.name x)) b b' E fun i i' c c' =>
      i = i' ∧ Builder.Apart ρ o o' k c c' := by
  have hnames : addName b'.names (ρ.name x) = (addName b.names x).map ρ.name := by
    rw [h.names, ρ.map_addName]
  refine ⟨?_, ?_⟩
  · simp only [Builder.bindName_eq, hnames, ρ.idxOf_map_name]
  · simp only [Builder.bindName_eq]
    exact { h with names := hnames }

end Lower

/-! ### Expressions -/

namespace Expr

mutual

/-- Lowering an expression and the renamed one goes in step. -/
theorem lower_abreast (ctx : Context) (hkn : k ≤ n) (e : Expr) {b b' : Builder}
    (h : Builder.Apart ρ o o' k b b') :
    Abreast (e.lower ctx) ((e.rename ρ).lower ctx) b b' (Builder.FailApart ρ o o' n)
      fun r r' c c' => RegsApart o o' r r' ∧ Builder.Apart ρ o o' k c c' := by
  cases e with
  | int p v => exact Lower.emitTo_abreast h fun _ _ hr => .const _ hr
  | bool p v => exact Lower.emitTo_abreast h fun _ _ hr => .const _ hr
  | ident p x =>
    rw [rename, lower, lower]
    refine .get ?_
    by_cases hx : x ∈ b.names
    · have hx' : ρ.name x ∈ b'.names := by
        rw [h.names]
        exact ρ.mem_map_name.mpr hx
      rw [Builder.slot?_of_mem hx, Builder.slot?_of_mem hx', h.names, ρ.idxOf_map_name]
      exact Lower.emitTo_abreast h fun _ _ hr => .load _ hr
    · have hx' : ρ.name x ∉ b'.names := by
        rw [h.names]
        exact mt ρ.mem_map_name.mp hx
      rw [Builder.slot?_of_not_mem hx, Builder.slot?_of_not_mem hx']
      exact ⟨rfl, k, hkn, h⟩
  | unary p op e =>
    rw [rename, lower, lower]
    refine (lower_abreast ctx hkn e h).bind fun r r' c c' h₁ => ?_
    exact Lower.emitTo_abreast h₁.2 fun _ _ hr => .unary op hr h₁.1
  | binary p op l r =>
    rw [rename, lower, lower]
    refine (lower_abreast ctx hkn l h).bind fun x x' c c' h₁ => ?_
    refine (lower_abreast ctx hkn r h₁.2).bind fun y y' d d' h₂ => ?_
    exact Lower.emitTo_abreast h₂.2 fun _ _ hr => .binary op hr h₁.1 h₂.1
  | assign p x e =>
    rw [rename, lower, lower]
    refine (lower_abreast ctx hkn e h).bind fun r r' c c' h₁ => ?_
    refine (Lower.slotFor_abreast h₁.2 x).bind fun i i' d d' h₂ => ?_
    obtain ⟨rfl, h₂⟩ := h₂
    refine (Lower.emit_abreast h₂ (.store i h₁.1)).bind fun _ _ f f' h₃ => ?_
    exact ⟨h₁.1, h₃⟩
  | call p f args =>
    rw [rename, lower, lower, length_renameAll]
    cases ctx.find? f with
    | none => exact ⟨rfl, k, hkn, h⟩
    | some sig =>
      by_cases harity : sig.arity = args.length
      · simp only [if_pos harity]
        refine (lowerAll_abreast ctx hkn args h).bind fun rs rs' c c' h₁ => ?_
        exact Lower.emitTo_abreast h₁.2 fun _ _ hr => .call f hr h₁.1
      · simp only [if_neg harity]
        exact ⟨rfl, k, hkn, h⟩

theorem lowerAll_abreast (ctx : Context) (hkn : k ≤ n) (es : List Expr) {b b' : Builder}
    (h : Builder.Apart ρ o o' k b b') :
    Abreast (lowerAll ctx es) (lowerAll ctx (renameAll ρ es)) b b' (Builder.FailApart ρ o o' n)
      fun rs rs' c c' => List.Forall₂ (RegsApart o o') rs rs' ∧ Builder.Apart ρ o o' k c c' := by
  cases es with
  | nil => exact ⟨.nil, h⟩
  | cons e es =>
    rw [renameAll, lowerAll, lowerAll]
    refine (lower_abreast ctx hkn e h).bind fun r r' c c' h₁ => ?_
    refine (lowerAll_abreast ctx hkn es h₁.2).bind fun rs rs' d d' h₂ => ?_
    exact ⟨.cons h₁.1 h₂.1, h₂.2⟩

end

end Expr

end

/-! ### Walks -/

/-- From the builders `o` and `o'` two walks have come to `w` and `w'`: their builders have, and the
    loops that they have entered differ in their numbers by the renaming and in their exits by the
    distance of the counters. -/
structure Walk.Apart (ρ : Renaming) (o o' : Builder) (k : Nat) (w w' : Walk) : Prop where
  builder : Builder.Apart ρ o o' k w.builder w'.builder
  exits : List.Forall₂ (fun x x' => x'.1 = ρ.id x.1 ∧ LabelsApart o o' k x.2 x'.2) w.exits w'.exits

def Walk.FailApart (ρ : Renaming) (o o' : Builder) (n : Nat) (e e' : LowerError)
    (w w' : Walk) : Prop :=
  Builder.FailApart ρ o o' n e e' w.builder w'.builder

namespace Walking

variable {ρ : Renaming} {o o' : Builder} {k n : Nat} {w w' : Walk}

/-- Steps that only build leave the exits as they are. -/
theorem build_abreast {α β : Type} {x : Lower α} {y : Lower β} {P : α → β → Prop} {m : Nat}
    (h : Walk.Apart ρ o o' k w w') (hkm : k ≤ m)
    (hxy : Abreast x y w.builder w'.builder (Builder.FailApart ρ o o' n) fun a b c c' =>
      P a b ∧ Builder.Apart ρ o o' m c c') :
    Abreast (build x) (build y) w w' (Walk.FailApart ρ o o' n) fun a b v v' =>
      P a b ∧ Walk.Apart ρ o o' m v v' := by
  have hexits : List.Forall₂ (fun x x' => x'.1 = ρ.id x.1 ∧ LabelsApart o o' m x.2 x'.2)
      w.exits w'.exits :=
    h.exits.imp fun _ _ hx => ⟨hx.1, hx.2.mono hkm⟩
  rcases hxy.cases with ⟨a, c, b, c', hx, hy, hP, hc⟩ | ⟨e, c, e', c', hx, hy, hfail⟩
  · have hbx : build x w = .ok a { w with builder := c } := by simp only [build, hx]
    have hby : build y w' = .ok b { w' with builder := c' } := by simp only [build, hy]
    exact .of_ok hbx hby ⟨hP, hc, hexits⟩
  · have hbx : build x w = .error e { w with builder := c } := by simp only [build, hx]
    have hby : build y w' = .error e' { w' with builder := c' } := by simp only [build, hy]
    exact .of_error hbx hby hfail

theorem lowerExpr_abreast (ctx : Context) (h : Walk.Apart ρ o o' k w w') (hkn : k ≤ n) (e : Expr) :
    Abreast (build (e.lower ctx)) (build ((e.rename ρ).lower ctx)) w w' (Walk.FailApart ρ o o' n)
      fun r r' v v' => RegsApart o o' r r' ∧ Walk.Apart ρ o o' k v v' :=
  build_abreast h (Nat.le_refl k) (e.lower_abreast ctx hkn h.builder)

theorem emit_abreast {i i' : Instr} (h : Walk.Apart ρ o o' k w w')
    (hi : Instr.Alike (RegsApart o o') (LabelsApart o o' k) i i') :
    Abreast (build (Lower.emit i)) (build (Lower.emit i')) w w' (Walk.FailApart ρ o o' n)
      fun _ _ v v' => Walk.Apart ρ o o' k v v' := by
  have hemit := (Lower.emit_abreast (E := Builder.FailApart ρ o o' n) h.builder hi).mono
    fun _ _ _ _ hc => And.intro trivial hc
  exact (build_abreast h (Nat.le_refl k) hemit).mono fun _ _ _ _ hv => hv.2

theorem freshLabel_abreast (h : Walk.Apart ρ o o' k w w') :
    Abreast (build Lower.freshLabel) (build Lower.freshLabel) w w' (Walk.FailApart ρ o o' n)
      fun l l' v v' => LabelsApart o o' (k + 1) l l' ∧ Walk.Apart ρ o o' (k + 1) v v' :=
  build_abreast h (Nat.le_succ k) (Lower.freshLabel_abreast h.builder)

/-- What a walk notes for the log is of no account. -/
theorem visit_abreast (h : Walk.Apart ρ o o' k w w') (s s' : Stmt) :
    Abreast (visit s) (visit s') w w' (Walk.FailApart ρ o o' n)
      fun _ _ v v' => Walk.Apart ρ o o' k v v' :=
  ⟨h.builder, h.exits⟩

theorem enterLoop_abreast {l l' : Label} (h : Walk.Apart ρ o o' k w w') (i : StmtId)
    (hl : LabelsApart o o' k l l') :
    Abreast (enterLoop i l) (enterLoop (ρ.id i) l') w w' (Walk.FailApart ρ o o' n)
      fun _ _ v v' => Walk.Apart ρ o o' k v v' :=
  ⟨h.builder, .cons ⟨rfl, hl⟩ h.exits⟩

end Walking

/-- A loop and its new number have both been entered, or neither has. -/
theorem Walk.Apart.exit?_cases {ρ : Renaming} {o o' : Builder} {k : Nat} {w w' : Walk}
    (h : Walk.Apart ρ o o' k w w') (i : StmtId) :
    (w.exit? i = none ∧ w'.exit? (ρ.id i) = none) ∨
      ∃ l l', w.exit? i = some l ∧ w'.exit? (ρ.id i) = some l' ∧ LabelsApart o o' k l l' := by
  have hexits := h.exits
  unfold Walk.exit?
  generalize w.exits = xs at hexits
  generalize w'.exits = xs' at hexits
  induction hexits with
  | nil => exact Or.inl ⟨rfl, rfl⟩
  | @cons x x' xs xs' hx _ ih =>
    rw [List.lookup_cons, List.lookup_cons, hx.1]
    by_cases hi : i = x.1
    · subst hi
      simp only [beq_self_eq_true]
      exact Or.inr ⟨x.2, x'.2, rfl, rfl, hx.2⟩
    · have hne : (i == x.1) = false := beq_eq_false_iff_ne.mpr hi
      have hne' : (ρ.id i == ρ.id x.1) = false :=
        beq_eq_false_iff_ne.mpr fun heq => hi (ρ.id_injective heq)
      simpa only [hne, hne'] using ih

/-! ### Statements -/

namespace Stmt

open Walking

variable (ρ : Renaming) (o o' : Builder) (ctx : Context) (n : Nat)

/-- Wherever two walks have got to, lowering the statement and the renamed one goes in step, and takes
    as many labels as the statement says. -/
def KeepsStep (s : Stmt) : Prop :=
  ∀ (k : Nat) (w w' : Walk), Walk.Apart ρ o o' k w w' → k + s.labelCount ≤ n →
    Abreast (s.lower (Expr.lower ctx)) ((s.rename ρ).lower (Expr.lower ctx)) w w'
      (Walk.FailApart ρ o o' n) fun _ _ v v' => Walk.Apart ρ o o' (k + s.labelCount) v v'

theorem keepsStep_eval (m : Mark) (e : Expr) : KeepsStep ρ o o' ctx n (.eval m e) := by
  intro k w w' h hk
  rw [rename, lower, lower]
  refine (visit_abreast h _ _).bind fun _ _ v v' h₁ => ?_
  refine (lowerExpr_abreast ctx h₁ hk e).bind fun r r' u u' h₂ => ?_
  exact h₂.2

theorem keepsStep_ret (m : Mark) (e : Option Expr) : KeepsStep ρ o o' ctx n (.ret m e) := by
  intro k w w' h hk
  cases e with
  | none =>
    rw [rename, Option.map_none, lower, lower]
    refine (visit_abreast h _ _).bind fun _ _ v v' h₁ => ?_
    exact emit_abreast h₁ .retVoid
  | some e =>
    rw [rename, Option.map_some, lower, lower]
    refine (visit_abreast h _ _).bind fun _ _ v v' h₁ => ?_
    refine (lowerExpr_abreast ctx h₁ hk e).bind fun r r' u u' h₂ => ?_
    exact emit_abreast h₂.2 (.ret h₂.1)

theorem keepsStep_breakLoop (m : Mark) (link : Option StmtId) :
    KeepsStep ρ o o' ctx n (.breakLoop m link) := by
  intro k w w' h hk
  rw [rename, lower, lower]
  refine (visit_abreast h _ _).bind fun _ _ v v' h₁ => ?_
  refine .get ?_
  cases link with
  | none => exact ⟨rfl, k, hk, h₁.builder⟩
  | some i =>
    rw [Option.map_some, Option.bind_some, Option.bind_some]
    rcases h₁.exit?_cases i with ⟨hnone, hnone'⟩ | ⟨l, l', hl, hl', hapart⟩
    · rw [hnone, hnone']
      exact ⟨rfl, k, hk, h₁.builder⟩
    · rw [hl, hl']
      exact emit_abreast h₁ (.jump hapart)

variable {ρ o o' ctx n}

theorem keepsStep_ifThen {t : Stmt} (m : Mark) (c : Expr) (ht : KeepsStep ρ o o' ctx n t) :
    KeepsStep ρ o o' ctx n (.ifThen m c t) := by
  intro k w w' h hk
  have hcount : k + (ifThen m c t).labelCount = k + 1 + t.labelCount := by
    rw [labelCount]
    omega
  rw [hcount] at hk ⊢
  rw [rename, lower, lower]
  refine (visit_abreast h _ _).bind fun _ _ w₁ w₁' h₁ => ?_
  refine (lowerExpr_abreast ctx h₁ (by omega) c).bind fun r r' w₂ w₂' h₂ => ?_
  refine (freshLabel_abreast h₂.2).bind fun l l' w₃ w₃' h₃ => ?_
  refine (emit_abreast h₃.2 (.branchFalse h₂.1 h₃.1)).bind fun _ _ w₄ w₄' h₄ => ?_
  refine (ht (k + 1) w₄ w₄' h₄ hk).bind fun _ _ w₅ w₅' h₅ => ?_
  exact emit_abreast h₅ (.label (h₃.1.mono (Nat.le_add_right _ _)))

theorem keepsStep_ifElse {t e : Stmt} (m : Mark) (c : Expr) (ht : KeepsStep ρ o o' ctx n t)
    (he : KeepsStep ρ o o' ctx n e) : KeepsStep ρ o o' ctx n (.ifElse m c t e) := by
  intro k w w' h hk
  have hcount : k + (ifElse m c t e).labelCount = k + 1 + t.labelCount + 1 + e.labelCount := by
    rw [labelCount]
    omega
  rw [hcount] at hk ⊢
  rw [rename, lower, lower]
  refine (visit_abreast h _ _).bind fun _ _ w₁ w₁' h₁ => ?_
  refine (lowerExpr_abreast ctx h₁ (by omega) c).bind fun r r' w₂ w₂' h₂ => ?_
  refine (freshLabel_abreast h₂.2).bind fun l l' w₃ w₃' h₃ => ?_
  refine (emit_abreast h₃.2 (.branchFalse h₂.1 h₃.1)).bind fun _ _ w₄ w₄' h₄ => ?_
  refine (ht (k + 1) w₄ w₄' h₄ (by omega)).bind fun _ _ w₅ w₅' h₅ => ?_
  refine (freshLabel_abreast h₅).bind fun j j' w₆ w₆' h₆ => ?_
  refine (emit_abreast h₆.2 (.jump h₆.1)).bind fun _ _ w₇ w₇' h₇ => ?_
  refine (emit_abreast h₇ (.label (h₃.1.mono (by omega)))).bind fun _ _ w₈ w₈' h₈ => ?_
  refine (he _ w₈ w₈' h₈ hk).bind fun _ _ w₉ w₉' h₉ => ?_
  exact emit_abreast h₉ (.label (h₆.1.mono (Nat.le_add_right _ _)))

theorem keepsStep_whileLoop {body : Stmt} (m : Mark) (c : Expr)
    (hbody : KeepsStep ρ o o' ctx n body) : KeepsStep ρ o o' ctx n (.whileLoop m c body) := by
  intro k w w' h hk
  have hcount : k + (whileLoop m c body).labelCount = k + 1 + 1 + body.labelCount := by
    rw [labelCount]
    omega
  rw [hcount] at hk ⊢
  rw [rename, lower, lower]
  refine (visit_abreast h _ _).bind fun _ _ w₁ w₁' h₁ => ?_
  refine (freshLabel_abreast h₁).bind fun top top' w₂ w₂' h₂ => ?_
  refine (freshLabel_abreast h₂.2).bind fun after after' w₃ w₃' h₃ => ?_
  refine (enterLoop_abreast h₃.2 m.id h₃.1).bind fun _ _ w₄ w₄' h₄ => ?_
  refine (emit_abreast h₄ (.label (h₂.1.mono (Nat.le_succ _)))).bind fun _ _ w₅ w₅' h₅ => ?_
  refine (lowerExpr_abreast ctx h₅ (by omega) c).bind fun r r' w₆ w₆' h₆ => ?_
  refine (emit_abreast h₆.2 (.branchFalse h₆.1 h₃.1)).bind fun _ _ w₇ w₇' h₇ => ?_
  refine (hbody _ w₇ w₇' h₇ hk).bind fun _ _ w₈ w₈' h₈ => ?_
  refine (emit_abreast h₈ (.jump (h₂.1.mono (by omega)))).bind fun _ _ w₉ w₉' h₉ => ?_
  exact emit_abreast h₉ (.label (h₃.1.mono (Nat.le_add_right _ _)))

variable (ρ o o' ctx n)

mutual

/-- **Lowering a statement and the renamed one goes in step.** -/
theorem lower_abreast (s : Stmt) : KeepsStep ρ o o' ctx n s := by
  cases s with
  | block m body =>
    intro k w w' h hk
    rw [rename, lower, lower]
    refine (visit_abreast h _ _).bind fun _ _ v v' h₁ => ?_
    exact lowerAll_abreast body k v v' h₁ hk
  | eval m e => exact keepsStep_eval ρ o o' ctx n m e
  | ret m e => exact keepsStep_ret ρ o o' ctx n m e
  | ifThen m c t => exact keepsStep_ifThen m c (lower_abreast t)
  | ifElse m c t e => exact keepsStep_ifElse m c (lower_abreast t) (lower_abreast e)
  | whileLoop m c body => exact keepsStep_whileLoop m c (lower_abreast body)
  | breakLoop m link => exact keepsStep_breakLoop ρ o o' ctx n m link

theorem lowerAll_abreast (ss : List Stmt) (k : Nat) (w w' : Walk) (h : Walk.Apart ρ o o' k w w')
    (hk : k + labelCountAll ss ≤ n) :
    Abreast (lowerAll (Expr.lower ctx) ss) (lowerAll (Expr.lower ctx) (renameAll ρ ss)) w w'
      (Walk.FailApart ρ o o' n) fun _ _ v v' => Walk.Apart ρ o o' (k + labelCountAll ss) v v' := by
  cases ss with
  | nil => exact h
  | cons s ss =>
    rw [labelCountAll, ← Nat.add_assoc] at hk ⊢
    rw [renameAll, lowerAll, lowerAll]
    refine (lower_abreast s k w w' h (by omega)).bind fun _ _ v v' h₁ => ?_
    exact lowerAll_abreast ss _ v v' h₁ hk

end

end Stmt

end JumpCode
