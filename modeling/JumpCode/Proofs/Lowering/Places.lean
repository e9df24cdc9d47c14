import JumpCode.Lowering.Builder

/-!
# The places of labels

What `resolveLabels` finds out about some code.  The place of a label is that of its first
occurrence, whether or not mistakes are looked for (`lookup_placeLabels`).  If no label stands twice
and every jump leads to a label that stands somewhere, looking for mistakes makes no difference
(`resolveLabels_eq`).
-/

namespace JumpCode

/-! ### Stretches of code -/

/-- The instructions `ops` stand in `code` one after another from the place `i` on. -/
def Stands (code : List Instr) (i : Nat) (ops : List Instr) : Prop :=
  ∀ k op, ops[k]? = some op → code[i + k]? = some op

namespace Stands

variable {code ops₁ ops₂ ops : List Instr} {i : Nat} {op : Instr}

theorem refl (code : List Instr) : Stands code 0 code := by
  intro k op h
  simpa using h

theorem left (h : Stands code i (ops₁ ++ ops₂)) : Stands code i ops₁ := by
  intro k op hk
  have hlt : k < ops₁.length := (List.getElem?_eq_some_iff.mp hk).1
  exact h k op (by rw [List.getElem?_append_left hlt, hk])

theorem right (h : Stands code i (ops₁ ++ ops₂)) : Stands code (i + ops₁.length) ops₂ := by
  intro k op hk
  rw [Nat.add_assoc]
  refine h _ op ?_
  rw [List.getElem?_append_right (Nat.le_add_right _ _), Nat.add_sub_cancel_left, hk]

theorem head (h : Stands code i (op :: ops)) : code[i]? = some op := h 0 op rfl

theorem tail (h : Stands code i (op :: ops)) : Stands code (i + 1) ops := by
  intro k op' hk
  have hk' := h (k + 1) op' hk
  rwa [Nat.add_comm k 1, ← Nat.add_assoc] at hk'

/-- A stretch stands where it stood in the first part of longer code. -/
theorem append (h : Stands code i ops) (more : List Instr) : Stands (code ++ more) i ops := by
  intro k op hk
  have hk' := h k op hk
  have hlt : i + k < code.length := (List.getElem?_eq_some_iff.mp hk').1
  rw [List.getElem?_append_left hlt, hk']

end Stands

/-! ### Finding labels -/

/-- A label that has no place yet gets the one where it stands. -/
theorem placeLabels_new {unique : Bool} {table : List (Label × Nat)} {i : Nat} {code : List Instr}
    {l : Label} (h : table.lookup l = none) :
    placeLabels unique table i (.label l :: code) =
      placeLabels unique (table ++ [(l, i)]) (i + 1) code := by
  rw [placeLabels, h]

/-- A label that has a place keeps it, or is refused. -/
theorem placeLabels_again {unique : Bool} {table : List (Label × Nat)} {i : Nat}
    {code : List Instr} {l : Label} {first : Nat} (h : table.lookup l = some first) :
    placeLabels unique table i (.label l :: code) =
      if unique then .error (.duplicateLabel l first i)
      else placeLabels unique table (i + 1) code := by
  rw [placeLabels, h]

/-- The first place of a label in code that begins with something else. -/
theorem idxOf?_label_cons {op : Instr} {l : Label} (h : op ≠ .label l) (i : Nat)
    (code : List Instr) :
    ((op :: code).idxOf? (.label l)).map (· + i) = (code.idxOf? (.label l)).map (· + (i + 1)) := by
  have hne : (op == .label l) = false := by simpa using h
  simp [List.idxOf?_cons, hne, Function.comp_def, Nat.add_assoc, Nat.add_comm 1]

/-- The place of a label is that of its first occurrence, unless it is known from before. -/
theorem lookup_placeLabels {unique : Bool} {table t : List (Label × Nat)} {i : Nat}
    {code : List Instr} (h : placeLabels unique table i code = .ok t) (l : Label) :
    t.lookup l = (table.lookup l).or ((code.idxOf? (.label l)).map (· + i)) := by
  induction code generalizing table i with
  | nil =>
    cases h
    simp
  | cons op code ih =>
    cases op with
    | label k =>
      cases hk : table.lookup k with
      | none =>
        -- The label is noted here, and later occurrences of it no longer count.
        rw [placeLabels_new hk] at h
        rw [ih h, List.lookup_append]
        by_cases hl : l = k
        · subst hl
          simp [hk, List.idxOf?_cons]
        · have hne : (l == k) = false := by simpa using hl
          have hlabel : Instr.label k ≠ .label l := by simpa using Ne.symm hl
          rw [idxOf?_label_cons hlabel]
          simp [List.lookup_cons, hne]
      | some first =>
        rw [placeLabels_again hk] at h
        split at h
        · cases h
        · rw [ih h]
          by_cases hl : l = k
          · subst hl
            simp [hk]
          · have hlabel : Instr.label k ≠ .label l := by simpa using Ne.symm hl
            rw [idxOf?_label_cons hlabel]
    | _ => rw [ih h, idxOf?_label_cons (l := l) (by simp)]

/-- Where no label stands twice, it makes no difference whether that is looked for. -/
theorem placeLabels_unique {table : List (Label × Nat)} {i : Nat} {code : List Instr}
    (honce : ∀ l, code.count (.label l) ≤ 1)
    (hnew : ∀ l, Instr.label l ∈ code → table.lookup l = none) :
    ∃ t, ∀ unique, placeLabels unique table i code = .ok t := by
  induction code generalizing table i with
  | nil => exact ⟨table, fun _ => rfl⟩
  | cons op code ih =>
    have honce' (l) : code.count (.label l) ≤ 1 :=
      Nat.le_trans (List.count_le_count_cons) (honce l)
    cases op with
    | label k =>
      have hk : table.lookup k = none := hnew k List.mem_cons_self
      have hnew' (l) (hl : Instr.label l ∈ code) : (table ++ [(k, i)]).lookup l = none := by
        have hne : l ≠ k := by
          rintro rfl
          have hcount := honce l
          rw [List.count_cons_self] at hcount
          exact absurd hl (List.count_eq_zero.mp (by omega))
        have hbeq : (l == k) = false := by simpa using hne
        rw [List.lookup_append, hnew l (List.mem_cons_of_mem _ hl)]
        simp [List.lookup_cons, hbeq]
      obtain ⟨t, ht⟩ := ih honce' hnew'
      refine ⟨t, fun unique => ?_⟩
      rw [placeLabels_new hk]
      exact ht unique
    | _ =>
      exact ih honce' fun l hl => hnew l (List.mem_cons_of_mem _ hl)

/-- No jump is found to lead nowhere if none does. -/
theorem danglingJump?_eq_none {table : List (Label × Nat)} {i : Nat} {code : List Instr}
    (h : ∀ op ∈ code, ∀ l, op.target? = some l → table.lookup l ≠ none) :
    danglingJump? table i code = none := by
  induction code generalizing i with
  | nil => rfl
  | cons op code ih =>
    have hrest := ih (i := i + 1) fun o ho => h o (List.mem_cons_of_mem _ ho)
    rw [danglingJump?]
    cases ht : op.target? with
    | none => exact hrest
    | some l =>
      cases hl : table.lookup l with
      | none => exact absurd hl (h op List.mem_cons_self l ht)
      | some place => simpa only [hl] using hrest

/-- Whether a failure is about the places of labels. -/
def LowerErrorKind.isAboutPlaces : LowerErrorKind → Bool
  | .duplicateLabel _ _ _ | .danglingJump _ _ => true
  | _ => false

theorem kind_of_placeLabels {unique : Bool} {table : List (Label × Nat)} {i : Nat}
    {code : List Instr} {e : LowerErrorKind} (h : placeLabels unique table i code = .error e) :
    e.isAboutPlaces = true := by
  induction code generalizing table i with
  | nil => cases h
  | cons op code ih =>
    cases op with
    | label k =>
      cases hk : table.lookup k with
      | none =>
        rw [placeLabels_new hk] at h
        exact ih h
      | some first =>
        rw [placeLabels_again hk] at h
        split at h
        · cases h
          rfl
        · exact ih h
    | _ => exact ih h

theorem kind_of_danglingJump? {table : List (Label × Nat)} {i : Nat} {code : List Instr}
    {e : LowerErrorKind} (h : danglingJump? table i code = some e) : e.isAboutPlaces = true := by
  induction code generalizing i with
  | nil => cases h
  | cons op code ih =>
    rw [danglingJump?] at h
    split at h
    · exact ih h
    · split at h
      · exact ih h
      · cases h
        rfl

/-- Labels of which none stands twice, and jumps that lead to labels that stand somewhere. -/
structure SoundLabels (code : List Instr) : Prop where
  once : ∀ l, code.count (.label l) ≤ 1
  targets : ∀ op ∈ code, ∀ l, op.target? = some l → Instr.label l ∈ code

/-- If a second occurrence is refused, no label stands twice, and none that was known before stands
    again. -/
theorem once_of_placeLabels {table t : List (Label × Nat)} {i : Nat} {code : List Instr}
    (h : placeLabels true table i code = .ok t) (l : Label) :
    code.count (.label l) ≤ 1 ∧ (Instr.label l ∈ code → table.lookup l = none) := by
  induction code generalizing table i with
  | nil => simp
  | cons op code ih =>
    cases op with
    | label k =>
      cases hk : table.lookup k with
      | some first =>
        rw [placeLabels_again hk] at h
        cases h
      | none =>
        rw [placeLabels_new hk] at h
        obtain ⟨honce, hnew⟩ := ih h
        rw [List.lookup_append, Option.or_eq_none_iff] at hnew
        by_cases hl : l = k
        · subst hl
          have hnot : Instr.label l ∉ code := by
            intro hmem
            have hnone := (hnew hmem).2
            simp at hnone
          simp [List.count_eq_zero.mpr hnot, hk]
        · have hlabel : Instr.label k ≠ .label l := by simpa using Ne.symm hl
          rw [List.count_cons_of_ne hlabel]
          refine ⟨honce, fun hmem => ?_⟩
          rcases List.mem_cons.mp hmem with heq | hmem
          · exact absurd heq.symm hlabel
          · exact (hnew hmem).1
    | _ => simpa using ih h

theorem targets_of_danglingJump? {table : List (Label × Nat)} {i : Nat} {code : List Instr}
    (h : danglingJump? table i code = none) :
    ∀ op ∈ code, ∀ l, op.target? = some l → table.lookup l ≠ none := by
  induction code generalizing i with
  | nil => simp
  | cons op code ih =>
    rw [danglingJump?] at h
    intro o ho l hl
    rcases List.mem_cons.mp ho with rfl | ho
    · intro hnone
      simp [hl, hnone] at h
    · refine ih (i := i + 1) ?_ o ho l hl
      split at h
      · exact h
      · split at h
        · exact h
        · cases h

/-- Labels among which mistakes were looked for and not found are sound. -/
theorem soundLabels_of_resolveLabels {code : List Instr} {t : List (Label × Nat)}
    (h : resolveLabels true code = .ok t) : SoundLabels code := by
  unfold resolveLabels at h
  cases hp : placeLabels true [] 0 code with
  | error e => simp [hp] at h
  | ok table =>
    cases hd : danglingJump? table 0 code with
    | some e => simp [hp, hd] at h
    | none =>
      constructor
      · intro l
        exact (once_of_placeLabels hp l).1
      · intro op hop l hl
        have hfound := targets_of_danglingJump? hd op hop l hl
        rw [lookup_placeLabels hp] at hfound
        simpa [List.idxOf?_eq_none_iff] using hfound

/-- Sound labels get their places, whether or not mistakes are looked for. -/
theorem resolveLabels_eq {code : List Instr} (h : SoundLabels code) :
    ∃ t, ∀ verify, resolveLabels verify code = .ok t := by
  have hnew (l) (_ : Instr.label l ∈ code) : ([] : List (Label × Nat)).lookup l = none := rfl
  obtain ⟨t, ht⟩ := placeLabels_unique (i := 0) h.once hnew
  refine ⟨t, fun verify => ?_⟩
  have hdangling : danglingJump? t 0 code = none := by
    refine danglingJump?_eq_none fun op hop l hl => ?_
    rw [lookup_placeLabels (ht verify)]
    have hmem := h.targets op hop l hl
    simpa [List.idxOf?_eq_none_iff] using hmem
  unfold resolveLabels
  rw [ht verify]
  cases verify <;> simp [hdangling]

/-- Looking for mistakes leaves the table as it is. -/
theorem placeLabels_of_resolveLabels {verify : Bool} {code : List Instr} {t : List (Label × Nat)}
    (h : resolveLabels verify code = .ok t) : placeLabels verify [] 0 code = .ok t := by
  unfold resolveLabels at h
  cases hp : placeLabels verify [] 0 code with
  | error e =>
    rw [hp] at h
    cases h
  | ok table =>
    simp only [hp] at h
    split at h
    · split at h <;> cases h
      rfl
    · cases h
      rfl

/-- The place of a label is that of its first occurrence. -/
theorem lookup_resolveLabels {verify : Bool} {code : List Instr} {t : List (Label × Nat)}
    (h : resolveLabels verify code = .ok t) (l : Label) :
    t.lookup l = code.idxOf? (.label l) := by
  simpa using lookup_placeLabels (placeLabels_of_resolveLabels h) l

/-- If a label stands but once, its first place is its only one. -/
theorem idxOf?_eq_of_once {code : List Instr} {l : Label} {i : Nat}
    (honce : code.count (.label l) ≤ 1) (hi : code[i]? = some (.label l)) :
    code.idxOf? (.label l) = some i := by
  induction code generalizing i with
  | nil => cases hi
  | cons op code ih =>
    by_cases hop : op = .label l
    · subst hop
      cases i with
      | zero => simp [List.idxOf?_cons]
      | succ i =>
        rw [List.count_cons_self] at honce
        have hmem : Instr.label l ∈ code := List.mem_of_getElem? hi
        exact absurd hmem (List.count_eq_zero.mp (by omega))
    · cases i with
      | zero =>
        simp at hi
        exact absurd hi hop
      | succ i =>
        have hne : (op == .label l) = false := by simpa using hop
        have hrest := ih (Nat.le_trans List.count_le_count_cons honce) hi
        simp [List.idxOf?_cons, hne, hrest]

namespace Builder

variable {b : Builder} {name : String}

/-- A routine has the code of its builder, and its labels have the places where they first stand. -/
theorem finish_eq_ok {verify : Bool} {r : Routine} (h : b.finish name verify = .ok r) :
    r.name = name ∧ r.paramCount = b.paramCount ∧ r.localCount = b.slotCount ∧
      r.regCount = b.nextReg ∧ r.code = b.code ∧
      ∀ l, r.positionOf l = b.code.toList.idxOf? (.label l) := by
  unfold finish at h
  split at h
  · next labels hlabels =>
    cases h
    exact ⟨rfl, rfl, rfl, rfl, rfl, lookup_resolveLabels hlabels⟩
  · cases h

/-- A routine in which mistakes were looked for has sound labels. -/
theorem soundLabels_of_finish {r : Routine} (h : b.finish name true = .ok r) :
    SoundLabels r.code.toList := by
  unfold finish at h
  split at h
  · next labels hlabels =>
    cases h
    exact soundLabels_of_resolveLabels hlabels
  · cases h

/-- Building a routine fails over the places of labels only. -/
theorem kind_of_finish {verify : Bool} {e : LowerError} (h : b.finish name verify = .error e) :
    e.kind.isAboutPlaces = true := by
  unfold finish resolveLabels at h
  cases hp : placeLabels verify [] 0 b.code.toList with
  | error k =>
    rw [hp] at h
    cases h
    exact kind_of_placeLabels hp
  | ok table =>
    rw [hp] at h
    cases verify with
    | false => cases h
    | true =>
      cases hd : danglingJump? table 0 b.code.toList with
      | none =>
        simp only [hd, if_true] at h
        cases h
      | some k =>
        simp only [hd, if_true] at h
        cases h
        exact kind_of_danglingJump? hd

/-- A builder whose labels are sound gives one routine, whether or not mistakes are looked for. -/
theorem finish_of_soundLabels (name : String) (h : SoundLabels b.code.toList) :
    ∃ r, ∀ verify, b.finish name verify = .ok r := by
  obtain ⟨labels, hlabels⟩ := resolveLabels_eq h
  refine ⟨⟨name, b.paramCount, b.slotCount, b.nextReg, b.code, labels⟩, fun verify => ?_⟩
  unfold finish
  rw [hlabels verify]

end Builder

end JumpCode
