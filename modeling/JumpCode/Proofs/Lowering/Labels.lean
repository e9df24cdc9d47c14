import JumpCode.Proofs.Lowering.Emission
import JumpCode.Proofs.Lowering.Places

/-!
# Every label stands once

A walk that succeeds places each label that it was handed exactly once, and jumps to no other.  The
count is done on the code of a tree: a statement places the labels that it takes itself, and its
jumps lead to these or to the exits of loops entered before it.  At the start no loop has been
entered, so for a whole function nothing else is left.

Labels are numbered modulo 2 ^ 32, so this holds of functions that take at most that many.  Looking
for mistakes then finds none, and the places of labels come out the same without looking.
-/

namespace JumpCode

/-! ### Labels that follow one another -/

/-- The `k` labels handed out from the one with the number `n` on. -/
def labelsFrom (n k : Nat) : List Label := (List.range' n k).map .ofNat

theorem labelsFrom_add (n a b : Nat) :
    labelsFrom n (a + b) = labelsFrom n a ++ labelsFrom (n + a) b := by
  simp only [labelsFrom, ← List.map_append, List.range'_append_1]

theorem mem_labelsFrom {n k : Nat} {l : Label} :
    l ∈ labelsFrom n k ↔ ∃ i, n ≤ i ∧ i < n + k ∧ Label.ofNat i = l := by
  simp [labelsFrom, and_assoc]

theorem Label.toNat_ofNat {n : Nat} (h : n < UInt32.size) : (Label.ofNat n).number.toNat = n :=
  UInt32.toNat_ofNat_of_lt h

theorem Label.ofNat_toNat (l : Label) : Label.ofNat l.number.toNat = l := by
  simp [Label.ofNat]

/-- As long as there are enough of them, the labels handed out first are those with the least
    numbers. -/
theorem mem_labelsFrom_zero {n : Nat} (hn : n ≤ UInt32.size) {l : Label} :
    l ∈ labelsFrom 0 n ↔ l.number.toNat < n := by
  rw [mem_labelsFrom]
  constructor
  · rintro ⟨i, -, hi, rfl⟩
    rw [Label.toNat_ofNat (by omega)]
    omega
  · intro hl
    exact ⟨l.number.toNat, by omega, by omega, l.ofNat_toNat⟩

/-- As long as there are enough of them, no label is handed out twice. -/
theorem nodup_labelsFrom_zero {n : Nat} (hn : n ≤ UInt32.size) : (labelsFrom 0 n).Nodup := by
  unfold labelsFrom
  rw [List.nodup_iff_pairwise_ne, List.pairwise_map]
  refine List.Pairwise.imp_of_mem ?_ (List.nodup_iff_pairwise_ne.mp (List.nodup_range' 1))
  intro i j hi hj hne heq
  have hi' := (List.mem_range'_1.mp hi).2
  have hj' := (List.mem_range'_1.mp hj).2
  have hnumber : (Label.ofNat i).number.toNat = (Label.ofNat j).number.toNat := by rw [heq]
  rw [Label.toNat_ofNat (by omega), Label.toNat_ofNat (by omega)] at hnumber
  exact hne hnumber

/-! ### Labels and jumps in the code of a tree -/

namespace Expr

mutual

/-- Expressions neither place labels nor jump. -/
theorem straight_code (slot : String → Slot) (n : Reg) (e : Expr) :
    ∀ i ∈ e.code slot n, i.target? = none ∧ ∀ l, i ≠ .label l := by
  cases e with
  | int o v => simp [code, Instr.target?]
  | bool o b => simp [code, Instr.target?]
  | ident o x => simp [code, Instr.target?]
  | unary o op e =>
    intro i hi
    rcases List.mem_append.mp hi with hi | hi
    · exact straight_code slot n e i hi
    · simp_all [Instr.target?]
  | binary o op l r =>
    intro i hi
    rcases List.mem_append.mp hi with hi | hi
    · exact straight_code slot n l i hi
    · rcases List.mem_append.mp hi with hi | hi
      · exact straight_code slot _ r i hi
      · simp_all [Instr.target?]
  | assign o x e =>
    intro i hi
    rcases List.mem_append.mp hi with hi | hi
    · exact straight_code slot n e i hi
    · simp_all [Instr.target?]
  | call o f args =>
    intro i hi
    rcases List.mem_append.mp hi with hi | hi
    · exact straight_codeAll slot n args i hi
    · simp_all [Instr.target?]

theorem straight_codeAll (slot : String → Slot) (n : Reg) (es : List Expr) :
    ∀ i ∈ codeAll slot n es, i.target? = none ∧ ∀ l, i ≠ .label l := by
  cases es with
  | nil => simp [codeAll]
  | cons e es =>
    intro i hi
    rcases List.mem_append.mp hi with hi | hi
    · exact straight_code slot n e i hi
    · exact straight_codeAll slot _ es i hi

end

theorem no_target {slot : String → Slot} {n : Reg} {e : Expr} {i : Instr} (hi : i ∈ e.code slot n)
    {l : Label} : i.target? ≠ some l := by
  rw [(straight_code slot n e i hi).1]
  exact nofun

@[simp] theorem count_label_code (slot : String → Slot) (n : Reg) (e : Expr) (l : Label) :
    (e.code slot n).count (.label l) = 0 := by
  rw [List.count_eq_zero]
  intro hmem
  exact (straight_code slot n e _ hmem).2 l rfl

end Expr

/-- A break jumps to the label that was noted for some loop. -/
theorem Point.exists_of_exit? {p : Point} {link : Option StmtId} {l : Label}
    (h : p.exit? link = some l) : ∃ x ∈ p.exits, x.2 = l := by
  cases link with
  | none => cases h
  | some i =>
    obtain ⟨before, rest, hexits, -⟩ := List.lookup_eq_some_iff.mp h
    exact ⟨(i, l), by simp [hexits], rfl⟩

namespace Stmt

/-! The labels of a statement are its own, in the order in which they are handed out, with those of
the statements inside it between. -/

theorem labels_ifThen (n : Nat) (m : Mark) (c : Expr) (t : Stmt) :
    labelsFrom n (ifThen m c t).labelCount = .ofNat n :: labelsFrom (n + 1) t.labelCount := by
  rw [labelCount, Nat.add_comm, labelsFrom_add]
  rfl

theorem labels_ifElse (n : Nat) (m : Mark) (c : Expr) (t e : Stmt) :
    labelsFrom n (ifElse m c t e).labelCount =
      .ofNat n :: (labelsFrom (n + 1) t.labelCount ++
        .ofNat (n + 1 + t.labelCount) :: labelsFrom (n + 1 + t.labelCount + 1) e.labelCount) := by
  have hcount : t.labelCount + e.labelCount + 2 = 1 + (t.labelCount + (1 + e.labelCount)) := by
    omega
  rw [labelCount, hcount, labelsFrom_add, labelsFrom_add, labelsFrom_add]
  rfl

theorem labels_whileLoop (n : Nat) (m : Mark) (c : Expr) (body : Stmt) :
    labelsFrom n (whileLoop m c body).labelCount =
      .ofNat n :: .ofNat (n + 1) :: labelsFrom (n + 2) body.labelCount := by
  have hcount : body.labelCount + 2 = 1 + (1 + body.labelCount) := by omega
  rw [labelCount, hcount, labelsFrom_add, labelsFrom_add]
  rfl

mutual

/-- A statement places the labels that it takes, each as often as it is handed out. -/
theorem count_label_code (slot : String → Slot) (p : Point) (s : Stmt) (l : Label) :
    (s.code slot p).count (.label l) = (labelsFrom p.label s.labelCount).count l := by
  cases s with
  | block m body => exact count_label_codeAll slot p body l
  | eval m e => simp [code, labelCount, labelsFrom]
  | ret m e => cases e <;> simp [code, labelCount, labelsFrom]
  | ifThen m c t =>
    have ht := count_label_code slot ((p.useRegs c.regCount).useLabels 1) t l
    simp only [Point.useLabels_label, Point.useRegs_label] at ht
    rw [labels_ifThen]
    simp [code, List.count_cons, ht]
  | ifElse m c t e =>
    have ht := count_label_code slot ((p.useRegs c.regCount).useLabels 1) t l
    have he := count_label_code slot
      ((t.after ((p.useRegs c.regCount).useLabels 1)).useLabels 1) e l
    simp only [Point.useLabels_label, Point.useRegs_label, label_after] at ht he
    rw [labels_ifElse]
    simp [code, List.count_cons, ht, he]
    omega
  | whileLoop m c body =>
    have hbody := count_label_code slot ((p.enter m.id).useRegs c.regCount) body l
    simp only [Point.useRegs_label, Point.enter_label] at hbody
    rw [labels_whileLoop]
    simp [code, List.count_cons, hbody]
  | breakLoop m link => simp [code, labelCount, labelsFrom]

theorem count_label_codeAll (slot : String → Slot) (p : Point) (ss : List Stmt) (l : Label) :
    (codeAll slot p ss).count (.label l) = (labelsFrom p.label (labelCountAll ss)).count l := by
  cases ss with
  | nil => rfl
  | cons s ss =>
    rw [codeAll, labelCountAll, labelsFrom_add, List.count_append, List.count_append,
      count_label_code slot p s l, count_label_codeAll slot (s.after p) ss l, label_after]

end

mutual

/-- The exits known after a statement are those known before and labels of its own. -/
theorem exit_after {p : Point} {s : Stmt} {x : StmtId × Label} (h : x ∈ (s.after p).exits) :
    x.2 ∈ labelsFrom p.label s.labelCount ∨ x ∈ p.exits := by
  cases s with
  | block m body => exact exit_afterAll h
  | eval m e => exact Or.inr h
  | ret m e => cases e <;> exact Or.inr h
  | ifThen m c t =>
    rw [labels_ifThen]
    rcases exit_after (s := t) h with ht | hp
    · exact Or.inl (List.mem_cons_of_mem _ ht)
    · exact Or.inr hp
  | ifElse m c t e =>
    rw [labels_ifElse]
    rcases exit_after (s := e) h with he | hq
    · simp only [Point.useLabels_label, Point.useRegs_label, label_after] at he
      left
      simp [he]
    · rcases exit_after (s := t) hq with ht | hp
      · simp only [Point.useLabels_label, Point.useRegs_label] at ht
        left
        simp [ht]
      · exact Or.inr hp
  | whileLoop m c body =>
    rw [labels_whileLoop]
    rcases exit_after (s := body) h with hb | hp
    · simp only [Point.useRegs_label, Point.enter_label] at hb
      left
      simp [hb]
    · rcases List.mem_cons.mp hp with rfl | hp
      · left
        simp
      · exact Or.inr hp
  | breakLoop m link => exact Or.inr h

theorem exit_afterAll {p : Point} {ss : List Stmt} {x : StmtId × Label}
    (h : x ∈ (afterAll p ss).exits) :
    x.2 ∈ labelsFrom p.label (labelCountAll ss) ∨ x ∈ p.exits := by
  cases ss with
  | nil => exact Or.inr h
  | cons s ss =>
    rw [labelCountAll, labelsFrom_add]
    have h : x ∈ (afterAll (s.after p) ss).exits := h
    rcases exit_afterAll h with hss | hs
    · rw [label_after] at hss
      exact Or.inl (List.mem_append_right _ hss)
    · rcases exit_after hs with hs | hp
      · exact Or.inl (List.mem_append_left _ hs)
      · exact Or.inr hp

end

mutual

/-- The jumps of a statement without a violation lead to its own labels or to exits known before
    it. -/
theorem target_code {ctx : Context} {ns : List String} {slot : String → Slot} {p : Point} {s : Stmt}
    {i : Instr} (hi : i ∈ s.code slot p) {l : Label} (hl : i.target? = some l)
    (hs : s.violation? ctx ns (p.exits.map Prod.fst) = none) :
    l ∈ labelsFrom p.label s.labelCount ∨ ∃ x ∈ p.exits, x.2 = l := by
  cases s with
  | block m body => exact target_codeAll hi hl hs
  | eval m e => exact absurd hl (Expr.no_target hi)
  | ret m e =>
    cases e with
    | none =>
      rw [List.mem_singleton.mp hi] at hl
      cases hl
    | some e =>
      rcases List.mem_append.mp hi with hi | hi
      · exact absurd hl (Expr.no_target hi)
      · rw [List.mem_singleton.mp hi] at hl
        cases hl
  | ifThen m c t =>
    rw [violation?, orElse_eq_none_iff] at hs
    rw [labels_ifThen]
    simp only [code, List.mem_append, List.mem_cons, List.not_mem_nil, or_false] at hi
    rcases hi with hi | rfl | hi | rfl
    · exact absurd hl (Expr.no_target hi)
    · cases hl
      exact Or.inl List.mem_cons_self
    · rcases target_code hi hl hs.2 with h | h
      · exact Or.inl (List.mem_cons_of_mem _ h)
      · exact Or.inr h
    · cases hl
  | ifElse m c t e =>
    rw [violation?, orElse_eq_none_iff, orElse_eq_none_iff] at hs
    rw [labels_ifElse]
    simp only [code, List.mem_append, List.mem_cons, List.not_mem_nil, or_false] at hi
    rcases hi with hi | rfl | hi | rfl | rfl | hi | rfl
    · exact absurd hl (Expr.no_target hi)
    · cases hl
      exact Or.inl List.mem_cons_self
    · rcases target_code hi hl hs.2.1 with h | h
      · simp only [Point.useLabels_label, Point.useRegs_label] at h
        left
        simp [h]
      · exact Or.inr h
    · cases hl
      left
      simp
    · cases hl
    · -- A break in the second branch may lead to an exit that was noted in the first.
      have he : e.violation? ctx (addNames ns (c.targets ++ t.targets))
          ((t.after ((p.useRegs c.regCount).useLabels 1)).exits.map Prod.fst) = none := by
        rw [entered_after]
        exact hs.2.2
      rcases target_code hi hl he with h | ⟨x, hx, rfl⟩
      · simp only [Point.useLabels_label, Point.useRegs_label, label_after] at h
        left
        simp [h]
      · rcases exit_after (s := t) hx with h | h
        · simp only [Point.useLabels_label, Point.useRegs_label] at h
          left
          simp [h]
        · exact Or.inr ⟨x, h, rfl⟩
    · cases hl
  | whileLoop m c body =>
    rw [violation?, orElse_eq_none_iff] at hs
    rw [labels_whileLoop]
    simp only [code, List.mem_append, List.mem_cons, List.not_mem_nil, or_false] at hi
    rcases hi with rfl | hi | rfl | hi | rfl | rfl
    · cases hl
    · exact absurd hl (Expr.no_target hi)
    · cases hl
      left
      simp
    · -- Of the exits known in the body one is a label of this loop.
      rcases target_code hi hl hs.2 with h | ⟨x, hx, rfl⟩
      · simp only [Point.useRegs_label, Point.enter_label] at h
        left
        simp [h]
      · rcases List.mem_cons.mp hx with rfl | hx
        · left
          simp
        · exact Or.inr ⟨x, hx, rfl⟩
    · cases hl
      exact Or.inl List.mem_cons_self
    · cases hl
  | breakLoop m link =>
    rw [List.mem_singleton.mp hi] at hl
    have hexit : (p.exit? link).isSome := by
      rw [violation?] at hs
      split at hs
      · next h => rwa [Point.exit?_isSome]
      · cases hs
    obtain ⟨l', hl'⟩ := Option.isSome_iff_exists.mp hexit
    rw [hl'] at hl
    cases hl
    exact Or.inr (Point.exists_of_exit? hl')

theorem target_codeAll {ctx : Context} {ns : List String} {slot : String → Slot} {p : Point}
    {ss : List Stmt} {i : Instr} (hi : i ∈ codeAll slot p ss) {l : Label}
    (hl : i.target? = some l) (hs : violationAll? ctx ns (p.exits.map Prod.fst) ss = none) :
    l ∈ labelsFrom p.label (labelCountAll ss) ∨ ∃ x ∈ p.exits, x.2 = l := by
  cases ss with
  | nil => cases hi
  | cons s ss =>
    rw [violationAll?, orElse_eq_none_iff] at hs
    rw [labelCountAll, labelsFrom_add]
    rcases List.mem_append.mp hi with hi | hi
    · rcases target_code hi hl hs.1 with h | h
      · exact Or.inl (List.mem_append_left _ h)
      · exact Or.inr h
    · rw [← entered_after] at hs
      rcases target_codeAll hi hl hs.2 with h | ⟨x, hx, rfl⟩
      · rw [label_after] at h
        exact Or.inl (List.mem_append_right _ h)
      · rcases exit_after hx with h | h
        · exact Or.inl (List.mem_append_left _ h)
        · exact Or.inr ⟨x, h, rfl⟩

end

end Stmt

/-! ### Failures of the walk -/

/-- A failure of two parts together is one of the first or one of the second. -/
theorem orElse_eq_some {a b : Option LowerError} {e : LowerError} (h : (a <|> b) = some e) :
    a = some e ∨ b = some e := by
  cases a with
  | none => exact Or.inr h
  | some e' => exact Or.inl h

namespace Expr

mutual

/-- Expressions fail for reasons that a checked program can have. -/
theorem kind_of_violation {ctx : Context} {ns : List String} {e : Expr} {err : LowerError}
    (h : e.violation? ctx ns = some err) : err.kind.isInternal = false := by
  cases e with
  | int o v => cases h
  | bool o b => cases h
  | ident o x =>
    rw [violation?] at h
    split at h <;> cases h
    rfl
  | unary o op e => exact kind_of_violation (e := e) h
  | binary o op l r =>
    rcases orElse_eq_some h with h | h
    · exact kind_of_violation h
    · exact kind_of_violation h
  | assign o x e => exact kind_of_violation (e := e) h
  | call o f args =>
    rw [violation?] at h
    split at h
    · cases h
      rfl
    · split at h
      · exact kind_of_violationAll h
      · cases h
        rfl

theorem kind_of_violationAll {ctx : Context} {ns : List String} {es : List Expr} {err : LowerError}
    (h : violationAll? ctx ns es = some err) : err.kind.isInternal = false := by
  cases es with
  | nil => cases h
  | cons e es =>
    rcases orElse_eq_some h with h | h
    · exact kind_of_violation h
    · exact kind_of_violationAll h

end

/-- In particular they do not fail over the places of labels. -/
theorem not_about_places {ctx : Context} {ns : List String} {e : Expr} {err : LowerError}
    (h : e.violation? ctx ns = some err) : err.kind.isAboutPlaces = false := by
  have hkind := kind_of_violation h
  revert hkind
  cases err.kind <;> simp [LowerErrorKind.isInternal, LowerErrorKind.isAboutPlaces]

end Expr

namespace Stmt

mutual

/-- A walk does not fail over the places of labels. -/
theorem not_about_places {ctx : Context} {ns : List String} {entered : List StmtId} {s : Stmt}
    {err : LowerError} (h : s.violation? ctx ns entered = some err) :
    err.kind.isAboutPlaces = false := by
  cases s with
  | block m body => exact not_about_placesAll h
  | eval m e => exact Expr.not_about_places h
  | ret m e =>
    cases e with
    | none => cases h
    | some e => exact Expr.not_about_places h
  | ifThen m c t =>
    rcases orElse_eq_some h with h | h
    · exact Expr.not_about_places h
    · exact not_about_places h
  | ifElse m c t e =>
    rcases orElse_eq_some h with h | h
    · exact Expr.not_about_places h
    · rcases orElse_eq_some h with h | h
      · exact not_about_places h
      · exact not_about_places h
  | whileLoop m c body =>
    rcases orElse_eq_some h with h | h
    · exact Expr.not_about_places h
    · exact not_about_places h
  | breakLoop m link =>
    rw [violation?] at h
    split at h <;> cases h
    rfl

theorem not_about_placesAll {ctx : Context} {ns : List String} {entered : List StmtId}
    {ss : List Stmt} {err : LowerError} (h : violationAll? ctx ns entered ss = some err) :
    err.kind.isAboutPlaces = false := by
  cases ss with
  | nil => cases h
  | cons s ss =>
    rcases orElse_eq_some h with h | h
    · exact not_about_places h
    · exact not_about_placesAll h

end

end Stmt

/-! ### Functions -/

namespace Function

variable {ctx : Context} {f : Function}

/-- Each of the labels that a function takes stands once in its code, and no other does. -/
theorem count_label_bodyCode (hn : f.body.labelCount ≤ UInt32.size) (l : Label) :
    f.bodyCode.count (.label l) = if l.number.toNat < f.body.labelCount then 1 else 0 := by
  have hnodup := nodup_labelsFrom_zero hn
  rw [bodyCode, Stmt.count_label_code, show Point.start.label = 0 from rfl, hnodup.count]
  simp only [mem_labelsFrom_zero hn]

/-- The jumps of a function lead to labels that it takes. -/
theorem target_bodyCode (hv : f.violation? ctx = none) (hn : f.body.labelCount ≤ UInt32.size)
    {i : Instr} (hi : i ∈ f.bodyCode) {l : Label} (hl : i.target? = some l) :
    l.number.toNat < f.body.labelCount := by
  rcases Stmt.target_code hi hl hv with h | ⟨x, hx, -⟩
  · exact (mem_labelsFrom_zero hn).mp h
  · cases hx

/-- However many labels a function takes, those that it jumps to stand in its code. -/
theorem label_mem_bodyCode (hv : f.violation? ctx = none) {i : Instr} (hi : i ∈ f.bodyCode)
    {l : Label} (hl : i.target? = some l) : Instr.label l ∈ f.bodyCode := by
  rcases Stmt.target_code hi hl hv with h | ⟨x, hx, -⟩
  · rw [← List.count_pos_iff, bodyCode, Stmt.count_label_code]
    exact List.count_pos_iff.mpr h
  · cases hx

end Function

/-- A return at the end changes nothing about labels. -/
theorem SoundLabels.append_retVoid {code : List Instr} (h : SoundLabels code) :
    SoundLabels (code ++ [.retVoid]) := by
  constructor
  · intro l
    simpa [List.count_append] using h.once l
  · intro op hop l hl
    rcases List.mem_append.mp hop with hop | hop
    · exact List.mem_append_left _ (h.targets op hop l hl)
    · rw [List.mem_singleton.mp hop] at hl
      cases hl

/-- Ending the code of a builder keeps its labels sound. -/
theorem SoundLabels.close {b : Builder} (h : SoundLabels b.code.toList) :
    SoundLabels b.close.code.toList := by
  unfold Builder.close
  split
  · exact h
  · simpa [Builder.emit] using h.append_retVoid

namespace Function

variable {ctx : Context} {f : Function}

theorem soundLabels_bodyCode (hv : f.violation? ctx = none) (hn : f.body.labelCount ≤ UInt32.size) :
    SoundLabels f.bodyCode := by
  constructor
  · intro l
    rw [count_label_bodyCode hn]
    split <;> omega
  · intro i hi l hl
    exact label_mem_bodyCode hv hi hl

/-- The builder of a function when its code has been ended as the options say. -/
def finished (implicitReturn : Bool) (f : Function) : Builder :=
  if implicitReturn then f.built.close else f.built

/-- However the code of a function is ended, the rest of its builder stays the same. -/
theorem finished_eq (implicitReturn : Bool) :
    f.finished implicitReturn = { f.built with code := (f.finished implicitReturn).code } := by
  unfold finished Builder.close
  split
  · split <;> rfl
  · rfl

/-- A function that was lowered has no violation, and its routine is what its builder gives. -/
theorem finish_of_lower {r : Routine} (h : f.lower ctx = .ok r) :
    f.violation? ctx = none ∧
      (f.finished ctx.options.implicitReturn).finish f.name ctx.options.verifyLabels = .ok r := by
  cases hv : f.violation? ctx with
  | none =>
    rw [lower_of_violation_none hv] at h
    exact ⟨rfl, h⟩
  | some e =>
    rw [lower_of_violation_some hv] at h
    cases h

/-- A function has the code of its body, and after it a return if one is called for. -/
theorem code_finished (implicitReturn : Bool) :
    (f.finished implicitReturn).code.toList = f.bodyCode ∨
      (f.finished implicitReturn).code.toList = f.bodyCode ++ [.retVoid] := by
  unfold finished Builder.close
  split
  · split
    · exact Or.inl rfl
    · right
      simp [Builder.emit, built]
  · exact Or.inl rfl

/-- The code of the body of a function comes first, however its code is ended. -/
theorem stands_bodyCode (implicitReturn : Bool) :
    Stands (f.finished implicitReturn).code.toList 0 f.bodyCode := by
  rcases f.code_finished implicitReturn with h | h
  · rw [h]
    exact .refl _
  · rw [h]
    exact (Stands.refl _).append _

theorem soundLabels_finished (hv : f.violation? ctx = none) (hn : f.body.labelCount ≤ UInt32.size)
    (implicitReturn : Bool) : SoundLabels (f.finished implicitReturn).code.toList := by
  have h : SoundLabels f.built.code.toList := soundLabels_bodyCode hv hn
  unfold finished
  split
  · exact h.close
  · exact h

end Function

/-- The same context, in which mistakes in labels are looked for or not. -/
def Context.verifying (ctx : Context) (verify : Bool) : Context :=
  { ctx with options := { ctx.options with verifyLabels := verify } }

namespace Function

variable {ctx : Context} {f : Function}

theorem violation?_verifying (verify : Bool) :
    f.violation? (ctx.verifying verify) = f.violation? ctx := by
  have h (g : String) : (ctx.verifying verify).find? g = ctx.find? g := rfl
  exact Stmt.violation?_congr h _ _ f.body

/-- A function without a violation is lowered to one routine, whether or not mistakes in its labels
    are looked for. -/
theorem lower_verifying (hv : f.violation? ctx = none) (hn : f.body.labelCount ≤ UInt32.size) :
    ∃ r, f.lower ctx = .ok r ∧ ∀ verify, f.lower (ctx.verifying verify) = .ok r := by
  obtain ⟨r, hr⟩ := Builder.finish_of_soundLabels f.name
    (soundLabels_finished hv hn ctx.options.implicitReturn)
  refine ⟨r, ?_, fun verify => ?_⟩
  · rw [lower_of_violation_none hv]
    exact hr _
  · rw [lower_of_violation_none ((violation?_verifying verify).trans hv)]
    exact hr _

/-- **Labels are placed once, and jumps lead to them.**  If the walk through a function succeeds, and
    the function takes no more labels than there are, then each label with a number below that
    number of labels stands once in the code, no other label stands there, and every jump leads to
    one of them.  So lowering a function never fails over the places of labels, and looking for such
    mistakes does not change its result. -/
theorem labels_stand_once (ctx : Context) (f : Function)
    (hn : ∀ w, f.walk ctx = .ok () w → f.body.labelCount ≤ UInt32.size) :
    (∀ w, f.walk ctx = .ok () w →
      w.builder.nextLabel = .ofNat f.body.labelCount ∧
      (∀ l : Label, w.builder.code.toList.count (.label l) =
        if l.number.toNat < f.body.labelCount then 1 else 0) ∧
      ∀ i ∈ w.builder.code.toList, ∀ l, i.target? = some l →
        l.number.toNat < f.body.labelCount) ∧
    (∀ e, f.lower ctx = .error e →
      (∀ l i j, e.kind ≠ .duplicateLabel l i j) ∧ ∀ l i, e.kind ≠ .danglingJump l i) ∧
    f.lower (ctx.verifying true) = f.lower (ctx.verifying false) := by
  cases hv : f.violation? ctx with
  | none =>
    obtain ⟨w, hw, hb, -⟩ := walk_of_violation_none hv none
    have hn := hn w hw
    obtain ⟨r, hr, hverify⟩ := lower_verifying hv hn
    refine ⟨?_, ?_, (hverify true).trans (hverify false).symm⟩
    · intro w' hw'
      rw [built_of_walk hw']
      exact ⟨rfl, count_label_bodyCode hn, fun i hi l hl => target_bodyCode hv hn hi hl⟩
    · intro e he
      rw [hr] at he
      cases he
  | some err =>
    have hlower := lower_of_violation_some hv
    refine ⟨?_, ?_, ?_⟩
    · intro w hw
      have hnone := violation_none_of_walk hw
      rw [hv] at hnone
      cases hnone
    · intro e he
      have hkind : e.kind.isAboutPlaces = false := by
        have herr : err.kind.isAboutPlaces = false := Stmt.not_about_places hv
        rw [hlower] at he
        cases he
        exact herr
      constructor
      · intro l i j h
        rw [h] at hkind
        cases hkind
      · intro l i h
        rw [h] at hkind
        cases hkind
    · rw [lower_of_violation_some ((violation?_verifying true).trans hv),
        lower_of_violation_some ((violation?_verifying false).trans hv)]

/-- A loop, a conditional in it that leaves it, and after both a break that still names the loop. -/
def lateBreak : Function where
  name := "f"
  params := []
  body := .block ⟨⟨4⟩, .unknown⟩
    [.whileLoop ⟨⟨2⟩, .unknown⟩ (.int .unknown 1)
      (.ifElse ⟨⟨1⟩, .unknown⟩ (.int .unknown 0) (.breakLoop ⟨⟨0⟩, .unknown⟩ (some ⟨2⟩))
        (.block ⟨⟨0⟩, .unknown⟩ [])),
      .breakLoop ⟨⟨3⟩, .unknown⟩ (some ⟨2⟩)]
  origin := .unknown

theorem labels_stand_once_lateBreak :
    (∃ w, lateBreak.walk (.empty {}) = .ok () w ∧ lateBreak.body.labelCount ≤ UInt32.size ∧
      ∀ l : Label, w.builder.code.toList.count (.label l) = if l.number.toNat < 4 then 1 else 0) ∧
    lateBreak.lower ((Context.empty {}).verifying true) =
      lateBreak.lower ((Context.empty {}).verifying false) := by
  have h := labels_stand_once (.empty {}) lateBreak (fun _ _ => by decide)
  have hv : lateBreak.violation? (.empty {}) = none := rfl
  obtain ⟨w, hw, -⟩ := walk_of_violation_none hv none
  exact ⟨⟨w, hw, by decide, (h.1 w hw).2.1⟩, h.2.2⟩

end Function

end JumpCode
