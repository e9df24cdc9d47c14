import JumpCode.Proofs.Lowering.Places
import Mathlib.Data.List.NodupEquivFin
import Mathlib.Data.Set.Card
import Mathlib.Order.Bounds.Basic

/-!
# Which mistake in labels is reported

Resolving labels goes through the code twice with a table that grows.  What it answers can be said of
the code as a whole: the least place at which a label stands again, or else the least place of a jump
that leads nowhere.  Both scans are cut at that place (`placeLabels_append`, `danglingJump?_append`):
before it there is no mistake, and there the table says what it says of the whole code.

From this follows `resolveLabels_cases`, and from it what finishing a builder gives.
-/

namespace JumpCode

/-! ### Mistakes in code -/

/-- The places at which a label stands. -/
def labelPlaces (code : List Instr) (l : Label) : Set Nat := {i | code[i]? = some (.label l)}

/-- The places at which a label stands that stands at an earlier place too. -/
def repeatedLabels (code : List Instr) : Set Nat :=
  {j | ∃ l, j ∈ labelPlaces code l ∧ ∃ i < j, i ∈ labelPlaces code l}

/-- The places of the jumps to a label, if it stands nowhere. -/
def danglingTo (code : List Instr) (l : Label) : Set Nat :=
  {i | code[i]?.bind Instr.target? = some l ∧ labelPlaces code l = ∅}

/-- The places of the jumps that lead nowhere. -/
def danglingJumps (code : List Instr) : Set Nat := {i | ∃ l, i ∈ danglingTo code l}

theorem labelPlaces_eq_empty_iff {code : List Instr} {l : Label} :
    labelPlaces code l = ∅ ↔ Instr.label l ∉ code := by
  rw [Set.eq_empty_iff_forall_notMem, List.mem_iff_getElem?, not_exists]
  rfl

theorem idxOf?_eq_some_iff_isLeast {code : List Instr} {l : Label} {i : Nat} :
    code.idxOf? (.label l) = some i ↔ IsLeast (labelPlaces code l) i := by
  rw [List.idxOf?_eq_some_iff]
  constructor
  · rintro ⟨hi, hlabel, hbefore⟩
    refine ⟨List.getElem?_eq_some_iff.mpr ⟨hi, hlabel⟩, fun j hj => ?_⟩
    by_contra hlt
    obtain ⟨_, hj'⟩ := List.getElem?_eq_some_iff.mp hj
    exact hbefore j (Nat.lt_of_not_le hlt) hj'
  · rintro ⟨hi, hleast⟩
    obtain ⟨hlt, hlabel⟩ := List.getElem?_eq_some_iff.mp hi
    refine ⟨hlt, hlabel, fun j hj hj' => ?_⟩
    have hle : i ≤ j := hleast (List.getElem?_eq_some_iff.mpr ⟨by omega, hj'⟩)
    omega

/-- No place repeats a label exactly if no label stands twice. -/
theorem repeatedLabels_eq_empty_iff {code : List Instr} :
    repeatedLabels code = ∅ ↔ ∀ l, code.count (.label l) ≤ 1 := by
  rw [Set.eq_empty_iff_forall_notMem]
  constructor
  · intro h l
    by_contra hcount
    have hdup := List.duplicate_iff_two_le_count.mpr (Nat.lt_of_not_le hcount)
    obtain ⟨i, j, hij, hi, hj⟩ := List.duplicate_iff_exists_distinct_get.mp hdup
    refine h j ⟨l, ?_, i, hij, ?_⟩
    · exact List.getElem?_eq_some_iff.mpr ⟨j.isLt, hj.symm⟩
    · exact List.getElem?_eq_some_iff.mpr ⟨i.isLt, hi.symm⟩
  · rintro h j ⟨l, hj, i, hij, hi⟩
    obtain ⟨hjlt, hj⟩ := List.getElem?_eq_some_iff.mp hj
    obtain ⟨hilt, hi⟩ := List.getElem?_eq_some_iff.mp hi
    have hdup : List.Duplicate (.label l) code :=
      List.duplicate_iff_exists_distinct_get.mpr ⟨⟨i, hilt⟩, ⟨j, hjlt⟩, hij, hi.symm, hj.symm⟩
    have hcount := List.duplicate_iff_two_le_count.mp hdup
    have hle := h l
    omega

/-- Code without mistakes is code with sound labels. -/
theorem soundLabels_iff {code : List Instr} :
    SoundLabels code ↔ repeatedLabels code = ∅ ∧ danglingJumps code = ∅ := by
  rw [repeatedLabels_eq_empty_iff, Set.eq_empty_iff_forall_notMem]
  constructor
  · rintro ⟨honce, htargets⟩
    refine ⟨honce, ?_⟩
    rintro i ⟨l, htarget, hnone⟩
    obtain ⟨op, hop, hl⟩ := Option.bind_eq_some_iff.mp htarget
    exact labelPlaces_eq_empty_iff.mp hnone (htargets op (List.mem_of_getElem? hop) l hl)
  · rintro ⟨honce, hdangling⟩
    refine ⟨honce, fun op hop l hl => ?_⟩
    by_contra hnot
    obtain ⟨i, hi⟩ := List.mem_iff_getElem?.mp hop
    refine hdangling i ⟨l, ?_, labelPlaces_eq_empty_iff.mpr hnot⟩
    rw [hi]
    exact hl

/-! ### The first part of some code -/

section Take

variable {code : List Instr} {l : Label} {i j : Nat}

theorem mem_labelPlaces_take : i ∈ labelPlaces (code.take j) l ↔ i < j ∧ i ∈ labelPlaces code l := by
  change (code.take j)[i]? = some (.label l) ↔ i < j ∧ code[i]? = some (.label l)
  rw [List.getElem?_take]
  by_cases hij : i < j
  · simp [hij]
  · simp [hij]

/-- Before the least place that repeats a label, none is repeated. -/
theorem repeatedLabels_take (h : IsLeast (repeatedLabels code) j) :
    repeatedLabels (code.take j) = ∅ := by
  rw [Set.eq_empty_iff_forall_notMem]
  rintro k ⟨l, hk, i, hik, hi⟩
  rw [mem_labelPlaces_take] at hk hi
  have hle : j ≤ k := h.2 ⟨l, hk.2, i, hik, hi.2⟩
  omega

/-- A place in the first part of some code is the least for a label there if it is so in the whole
    code. -/
theorem isLeast_labelPlaces_take (hij : i < j) :
    IsLeast (labelPlaces (code.take j) l) i ↔ IsLeast (labelPlaces code l) i := by
  constructor
  · rintro ⟨hi, hleast⟩
    refine ⟨(mem_labelPlaces_take.mp hi).2, fun k hk => ?_⟩
    by_cases hkj : k < j
    · exact hleast (mem_labelPlaces_take.mpr ⟨hkj, hk⟩)
    · omega
  · rintro ⟨hi, hleast⟩
    refine ⟨mem_labelPlaces_take.mpr ⟨hij, hi⟩, fun k hk => ?_⟩
    exact hleast (mem_labelPlaces_take.mp hk).2

end Take

/-! ### The two scans -/

theorem placeLabels_append (unique : Bool) (table : List (Label × Nat)) (i : Nat)
    (before rest : List Instr) :
    placeLabels unique table i (before ++ rest) =
      (placeLabels unique table i before).bind fun t =>
        placeLabels unique t (i + before.length) rest := by
  induction before generalizing table i with
  | nil => rfl
  | cons op before ih =>
    have hlength : i + (op :: before).length = i + 1 + before.length := by
      rw [List.length_cons]
      omega
    rw [List.cons_append, hlength]
    cases op with
    | label l =>
      rw [placeLabels, placeLabels]
      cases table.lookup l with
      | none => exact ih _ _
      | some first =>
        cases unique with
        | true => rfl
        | false => exact ih _ _
    | _ => exact ih _ _

theorem danglingJump?_append (table : List (Label × Nat)) (i : Nat) (before rest : List Instr) :
    danglingJump? table i (before ++ rest) =
      (danglingJump? table i before).or (danglingJump? table (i + before.length) rest) := by
  induction before generalizing i with
  | nil => rfl
  | cons op before ih =>
    have hlength : i + (op :: before).length = i + 1 + before.length := by
      rw [List.length_cons]
      omega
    rw [List.cons_append, hlength, danglingJump?, danglingJump?]
    cases op.target? with
    | none => exact ih _
    | some l =>
      cases hl : table.lookup l with
      | none => simp only [hl, Option.some_or]
      | some place => simpa only [hl] using ih _

/-- Code without a repeated label gets its table. -/
theorem placeLabels_of_not_repeated {code : List Instr} (h : repeatedLabels code = ∅) :
    ∃ t, ∀ unique, placeLabels unique [] 0 code = .ok t :=
  placeLabels_unique (repeatedLabels_eq_empty_iff.mp h) fun _ _ => rfl

/-- If a second occurrence is allowed, every code gets its table. -/
theorem placeLabels_false (table : List (Label × Nat)) (i : Nat) (code : List Instr) :
    ∃ t, placeLabels false table i code = .ok t := by
  induction code generalizing table i with
  | nil => exact ⟨table, rfl⟩
  | cons op code ih =>
    cases op with
    | label l =>
      rw [placeLabels]
      cases table.lookup l with
      | none => exact ih _ _
      | some first => exact ih _ _
    | _ => exact ih _ _

theorem lookup_eq_none_iff_of_placeLabels {unique : Bool} {code : List Instr}
    {t : List (Label × Nat)} (h : placeLabels unique [] 0 code = .ok t) (l : Label) :
    t.lookup l = none ↔ labelPlaces code l = ∅ := by
  rw [lookup_placeLabels h, labelPlaces_eq_empty_iff, ← List.idxOf?_eq_none_iff]
  simp

/-- The first scan stops at the least place that repeats a label, and knows where the label stands
    first. -/
theorem placeLabels_of_repeated {code : List Instr} {l : Label} {j : Nat}
    (hleast : IsLeast (repeatedLabels code) j) (hj : j ∈ labelPlaces code l) :
    ∃ first, IsLeast (labelPlaces code l) first ∧
      placeLabels true [] 0 code = .error (.duplicateLabel l first j) := by
  obtain ⟨l', hj', i, hij, hi⟩ := hleast.1
  obtain rfl : l' = l := by
    have hsame : some (Instr.label l') = some (.label l) := hj'.symm.trans hj
    cases hsame
    rfl
  obtain ⟨t, ht⟩ := placeLabels_of_not_repeated (repeatedLabels_take hleast)
  obtain ⟨hlt, hop⟩ := List.getElem?_eq_some_iff.mp hj
  -- The table of what comes before has the label, as it stands there.
  have hsome : t.lookup l' ≠ none := by
    rw [Ne, lookup_eq_none_iff_of_placeLabels (ht true)]
    exact Set.nonempty_iff_ne_empty.mp ⟨i, mem_labelPlaces_take.mpr ⟨hij, hi⟩⟩
  obtain ⟨first, hfirst⟩ := Option.ne_none_iff_exists'.mp hsome
  have hplace : (code.take j).idxOf? (.label l') = some first := by
    have hlookup := lookup_placeLabels (ht true) l'
    rw [hfirst] at hlookup
    simpa using hlookup.symm
  rw [idxOf?_eq_some_iff_isLeast] at hplace
  have hfirst_lt : first < j := (mem_labelPlaces_take.mp hplace.1).1
  refine ⟨first, (isLeast_labelPlaces_take hfirst_lt).mp hplace, ?_⟩
  have hlength : (code.take j).length = j := List.length_take_of_le (Nat.le_of_lt hlt)
  rw [← List.take_append_drop j code, List.drop_eq_getElem_cons hlt, hop, placeLabels_append,
    ht true, hlength]
  simp only [Except.bind, placeLabels, hfirst, if_true, Nat.zero_add]

/-- The second scan stops at the least place of a jump that leads nowhere. -/
theorem danglingJump?_of_dangling {code : List Instr} {t : List (Label × Nat)} {l : Label} {i : Nat}
    (ht : ∀ l, t.lookup l = none ↔ labelPlaces code l = ∅)
    (hleast : IsLeast (danglingJumps code) i) (hi : i ∈ danglingTo code l) :
    danglingJump? t 0 code = some (.danglingJump l i) := by
  obtain ⟨htarget, hnone⟩ := hi
  obtain ⟨op, hop, hl⟩ := Option.bind_eq_some_iff.mp htarget
  obtain ⟨hlt, hop'⟩ := List.getElem?_eq_some_iff.mp hop
  have hlength : (code.take i).length = i := List.length_take_of_le (Nat.le_of_lt hlt)
  have hbefore : danglingJump? t 0 (code.take i) = none := by
    refine danglingJump?_eq_none fun o ho k hk hlookup => ?_
    obtain ⟨n, hn⟩ := List.mem_iff_getElem?.mp ho
    rw [List.getElem?_take] at hn
    by_cases hni : n < i
    · rw [if_pos hni] at hn
      have hle : i ≤ n := by
        refine hleast.2 ⟨k, ?_, (ht k).mp hlookup⟩
        rw [hn]
        exact hk
      omega
    · rw [if_neg hni] at hn
      cases hn
  rw [← List.take_append_drop i code, List.drop_eq_getElem_cons hlt, hop', danglingJump?_append,
    hbefore, hlength, danglingJump?]
  simp only [hl, (ht l).mpr hnone, Nat.zero_add, Option.none_or]

/-! ### Resolving labels -/

section Resolve

variable {code : List Instr} {l : Label}

theorem resolveLabels_of_repeated {first second : Nat}
    (hsecond : IsLeast (repeatedLabels code) second) (hl : second ∈ labelPlaces code l)
    (hfirst : IsLeast (labelPlaces code l) first) :
    resolveLabels true code = .error (.duplicateLabel l first second) := by
  obtain ⟨first', hfirst', hplace⟩ := placeLabels_of_repeated hsecond hl
  rw [resolveLabels, hplace, hfirst'.unique hfirst]

theorem resolveLabels_of_dangling {place : Nat} (hnone : repeatedLabels code = ∅)
    (hplace : IsLeast (danglingJumps code) place) (hl : place ∈ danglingTo code l) :
    resolveLabels true code = .error (.danglingJump l place) := by
  obtain ⟨t, ht⟩ := placeLabels_of_not_repeated hnone
  have hjump := danglingJump?_of_dangling (lookup_eq_none_iff_of_placeLabels (ht true)) hplace hl
  rw [resolveLabels, ht true]
  simp only [hjump, if_true]

variable (code) in
/-- A label stands again, and the least place where one does is reported; or none does, and the least
    place of a jump that leads nowhere is reported; or there is no mistake. -/
theorem resolveLabels_cases :
    (∃ l first second, IsLeast (repeatedLabels code) second ∧ second ∈ labelPlaces code l ∧
      IsLeast (labelPlaces code l) first ∧
      resolveLabels true code = .error (.duplicateLabel l first second)) ∨
    (∃ l place, repeatedLabels code = ∅ ∧ IsLeast (danglingJumps code) place ∧
      place ∈ danglingTo code l ∧ resolveLabels true code = .error (.danglingJump l place)) ∨
    (repeatedLabels code = ∅ ∧ danglingJumps code = ∅ ∧ ∃ t, resolveLabels true code = .ok t) := by
  classical
  rcases (repeatedLabels code).eq_empty_or_nonempty with hnone | hsome
  · rcases (danglingJumps code).eq_empty_or_nonempty with hsound | hdangling
    · obtain ⟨t, ht⟩ := resolveLabels_eq (soundLabels_iff.mpr ⟨hnone, hsound⟩)
      exact Or.inr (Or.inr ⟨hnone, hsound, t, ht true⟩)
    · have hleast : IsLeast (danglingJumps code) _ := Nat.isLeast_find hdangling
      obtain ⟨l, hl⟩ := hleast.1
      exact Or.inr (Or.inl ⟨l, _, hnone, hleast, hl, resolveLabels_of_dangling hnone hleast hl⟩)
  · have hleast : IsLeast (repeatedLabels code) _ := Nat.isLeast_find hsome
    obtain ⟨l, hl, i, -, hi⟩ := hleast.1
    have hfirst : IsLeast (labelPlaces code l) _ := Nat.isLeast_find ⟨i, hi⟩
    exact Or.inl ⟨l, _, _, hleast, hl, hfirst, resolveLabels_of_repeated hleast hl hfirst⟩

theorem resolveLabels_eq_duplicateLabel_iff {first second : Nat} :
    resolveLabels true code = .error (.duplicateLabel l first second) ↔
      IsLeast (repeatedLabels code) second ∧ second ∈ labelPlaces code l ∧
        IsLeast (labelPlaces code l) first := by
  constructor
  · intro h
    rcases resolveLabels_cases code with ⟨l', i, j, hj, hl, hi, h'⟩ | ⟨l', i, -, -, -, h'⟩ |
      ⟨-, -, t, h'⟩
    · rw [h] at h'
      cases h'
      exact ⟨hj, hl, hi⟩
    · rw [h] at h'
      cases h'
    · rw [h] at h'
      cases h'
  · rintro ⟨hsecond, hl, hfirst⟩
    exact resolveLabels_of_repeated hsecond hl hfirst

theorem resolveLabels_eq_danglingJump_iff {place : Nat} :
    resolveLabels true code = .error (.danglingJump l place) ↔
      repeatedLabels code = ∅ ∧ IsLeast (danglingJumps code) place ∧ place ∈ danglingTo code l := by
  constructor
  · intro h
    rcases resolveLabels_cases code with ⟨l', i, j, -, -, -, h'⟩ | ⟨l', i, hnone, hi, hl, h'⟩ |
      ⟨-, -, t, h'⟩
    · rw [h] at h'
      cases h'
    · rw [h] at h'
      cases h'
      exact ⟨hnone, hi, hl⟩
    · rw [h] at h'
      cases h'
  · rintro ⟨hnone, hplace, hl⟩
    exact resolveLabels_of_dangling hnone hplace hl

theorem resolveLabels_isOk_iff :
    (∃ t, resolveLabels true code = .ok t) ↔
      repeatedLabels code = ∅ ∧ danglingJumps code = ∅ := by
  rw [← soundLabels_iff]
  constructor
  · rintro ⟨t, ht⟩
    exact soundLabels_of_resolveLabels ht
  · intro h
    obtain ⟨t, ht⟩ := resolveLabels_eq h
    exact ⟨t, ht true⟩

end Resolve

theorem resolveLabels_false (code : List Instr) : ∃ t, resolveLabels false code = .ok t := by
  obtain ⟨t, ht⟩ := placeLabels_false [] 0 code
  refine ⟨t, ?_⟩
  rw [resolveLabels, ht]
  rfl

theorem nodup_labels_of_placeLabels {unique : Bool} {table t : List (Label × Nat)} {i : Nat}
    {code : List Instr} (h : placeLabels unique table i code = .ok t)
    (htable : (table.map Prod.fst).Nodup) : (t.map Prod.fst).Nodup := by
  induction code generalizing table i with
  | nil =>
    cases h
    exact htable
  | cons op code ih =>
    cases op with
    | label l =>
      cases hl : table.lookup l with
      | none =>
        rw [placeLabels_new hl] at h
        refine ih h ?_
        -- A label is noted only if it is not in the table.
        rw [List.map_append, List.map_singleton, List.nodup_append]
        refine ⟨htable, List.nodup_singleton l, ?_⟩
        rintro k hk k' hk' rfl
        obtain ⟨x, hx, rfl⟩ := List.mem_map.mp hk
        have hne := List.lookup_eq_none_iff.mp hl x hx
        rw [List.mem_singleton.mp hk'] at hne
        simp at hne
      | some first =>
        rw [placeLabels_again hl] at h
        split at h
        · cases h
        · exact ih h htable
    | _ => exact ih h htable

/-- The table has one entry for each label that stands in the code. -/
theorem length_of_resolveLabels {verify : Bool} {code : List Instr} {t : List (Label × Nat)}
    (h : resolveLabels verify code = .ok t) :
    t.length = {l : Label | (labelPlaces code l).Nonempty}.ncard := by
  have hplace := placeLabels_of_resolveLabels h
  have hset : {l : Label | (labelPlaces code l).Nonempty} =
      ((t.map Prod.fst).toFinset : Set Label) := by
    ext l
    have hlookup := lookup_eq_none_iff_of_placeLabels hplace l
    rw [List.lookup_eq_none_iff] at hlookup
    simp [Set.nonempty_iff_ne_empty, ← hlookup]
  rw [hset, Set.ncard_coe_finset,
    List.toFinset_card_of_nodup (nodup_labels_of_placeLabels hplace List.nodup_nil), List.length_map]

/-! ### Finishing a builder -/

namespace Builder

/-- What a routine is if it is what finishing a builder gives: the builder's code and counts under the
    given name, each label at the least place where it stands, and as many labels as stand in the
    code. -/
structure FinishesAs (b : Builder) (name : String) (r : Routine) : Prop where
  name : r.name = name
  paramCount : r.paramCount = b.paramCount
  localCount : r.localCount = b.slotCount
  regCount : r.regCount = b.nextReg
  code : r.code = b.code
  position : ∀ l i, r.positionOf l = some i ↔ IsLeast (labelPlaces b.code.toList l) i
  unplaced : ∀ l, r.positionOf l = none ↔ labelPlaces b.code.toList l = ∅
  labelCount : r.labelCount = {l : Label | (labelPlaces b.code.toList l).Nonempty}.ncard

theorem finishesAs_of_finish {b : Builder} {name : String} {verify : Bool} {r : Routine}
    (h : b.finish name verify = .ok r) : b.FinishesAs name r := by
  obtain ⟨hname, hparams, hlocals, hregs, hcode, hpositions⟩ := finish_eq_ok h
  refine ⟨hname, hparams, hlocals, hregs, hcode, fun l i => ?_, fun l => ?_, ?_⟩
  · rw [hpositions, idxOf?_eq_some_iff_isLeast]
  · rw [hpositions, List.idxOf?_eq_none_iff, labelPlaces_eq_empty_iff]
  · unfold finish at h
    split at h
    · next labels hlabels =>
      cases h
      exact length_of_resolveLabels hlabels
    · cases h

variable {b : Builder} {name : String} {verify : Bool}

theorem finish_eq_error_iff {e : LowerError} :
    b.finish name verify = .error e ↔
      ∃ k, resolveLabels verify b.code.toList = .error k ∧ e = ⟨k, some name, .unknown⟩ := by
  unfold finish
  cases resolveLabels verify b.code.toList with
  | ok t => simp
  | error k =>
    constructor
    · intro h
      cases h
      exact ⟨k, rfl, rfl⟩
    · rintro ⟨k', hk, rfl⟩
      cases hk
      rfl

theorem finish_isOk_iff :
    (∃ r, b.finish name verify = .ok r) ↔ ∃ t, resolveLabels verify b.code.toList = .ok t := by
  unfold finish
  cases resolveLabels verify b.code.toList <;> simp

/-- **Finishing resolves labels exactly.**  If mistakes are looked for, a label that stands again is
    reported with the least place at which one does and the least place of that label.  If there is
    none, a jump that leads nowhere is reported, the one at the least place.  If there is none either,
    there is a routine; and if mistakes are not looked for, there always is.  A routine has the
    builder's code and counts, and its labels have the least places where they stand.  Failures name
    the function. -/
theorem finish_is_exact (b : Builder) (name : String) :
    (∀ l first second,
      b.finish name true = .error ⟨.duplicateLabel l first second, some name, .unknown⟩ ↔
        IsLeast (repeatedLabels b.code.toList) second ∧ second ∈ labelPlaces b.code.toList l ∧
          IsLeast (labelPlaces b.code.toList l) first) ∧
    (∀ l place,
      b.finish name true = .error ⟨.danglingJump l place, some name, .unknown⟩ ↔
        repeatedLabels b.code.toList = ∅ ∧ IsLeast (danglingJumps b.code.toList) place ∧
          place ∈ danglingTo b.code.toList l) ∧
    ((∃ r, b.finish name true = .ok r) ↔
      repeatedLabels b.code.toList = ∅ ∧ danglingJumps b.code.toList = ∅) ∧
    (∃ r, b.finish name false = .ok r) ∧
    (∀ verify r, b.finish name verify = .ok r → b.FinishesAs name r) ∧
    ∀ verify e, b.finish name verify = .error e → e.function = some name := by
  refine ⟨fun l first second => ?_, fun l place => ?_, ?_, ?_, fun _ _ => finishesAs_of_finish, ?_⟩
  · rw [← resolveLabels_eq_duplicateLabel_iff, finish_eq_error_iff]
    simp
  · rw [← resolveLabels_eq_danglingJump_iff, finish_eq_error_iff]
    simp
  · rw [finish_isOk_iff, resolveLabels_isOk_iff]
  · exact finish_isOk_iff.mpr (resolveLabels_false b.code.toList)
  · intro verify e h
    obtain ⟨k, -, rfl⟩ := finish_eq_error_iff.mp h
    rfl

/-- A builder with a jump to a label that stands nowhere, and two labels that stand more than once. -/
def tangled : Builder :=
  ⟨0, 2, 0, [],
    #[.jump ⟨2⟩, .label ⟨0⟩, .label ⟨1⟩, .label ⟨1⟩, .label ⟨0⟩, .label ⟨0⟩]⟩

theorem finish_is_exact_tangled :
    IsLeast (repeatedLabels tangled.code.toList) 3 ∧
      IsLeast (labelPlaces tangled.code.toList ⟨1⟩) 2 ∧
      (∃ e, tangled.finish "f" true = .error e ∧ e.function = some "f") ∧
      ∃ r, tangled.finish "f" false = .ok r ∧ tangled.FinishesAs "f" r := by
  obtain ⟨hduplicate, -, -, ⟨r, hr⟩, hfinishes, hnames⟩ := finish_is_exact tangled "f"
  have herror : tangled.finish "f" true =
      .error ⟨.duplicateLabel ⟨1⟩ 2 3, some "f", .unknown⟩ := rfl
  obtain ⟨hsecond, -, hfirst⟩ := (hduplicate _ _ _).mp herror
  exact ⟨hsecond, hfirst, ⟨_, herror, hnames true _ herror⟩, r, hr, hfinishes false r hr⟩

end Builder

end JumpCode
