import JumpCode.Compile
import JumpCode.Proofs.Ast.Links
import Mathlib.Data.Set.Card

/-!
# Every problem is found, and found once

Checking a program hands lists of names seen so far down the program and down each list of
parameters.  Here the findings are told without them: a name is repeated if it stands among those
before it, and a break is stray if no loop is around its address.  The diagnostics of a program are
those owed for its functions in order (`findings_eq`), and their number is counted by what is in
excess: names beyond the different ones, and stray breaks (`length_findings`).

That nothing is found exactly in a program without problems follows from the count.
-/

namespace JumpCode

/-! ### Repeated names -/

/-- Each entry of a list with the entries before it. -/
def withEarlier {α : Type} (xs : List α) : List (α × List α) := xs.mapIdx fun i x => (x, xs.take i)

theorem withEarlier_cons {α : Type} (x : α) (xs : List α) :
    withEarlier (x :: xs) = (x, []) :: (withEarlier xs).map fun p => (p.1, x :: p.2) := by
  unfold withEarlier
  rw [List.mapIdx_cons]
  congr 1
  exact List.ext_getElem (by simp) (by simp)

/-- The names of a list that are among those before them. -/
def repeats (xs : List String) : List String :=
  ((withEarlier xs).filter fun p => p.1 ∈ p.2).map Prod.fst

theorem mem_or_mem_cons {x y : String} {seen zs : List String} :
    y ∈ seen ∨ y ∈ x :: zs ↔ y ∈ x :: seen ∨ y ∈ zs := by
  rw [List.mem_cons, List.mem_cons, or_left_comm, or_assoc]

theorem mem_cons_of_seen {x y : String} {seen : List String} (hx : x ∈ seen) :
    y ∈ x :: seen ↔ y ∈ seen := by
  rw [List.mem_cons]
  constructor
  · rintro (rfl | hy)
    · exact hx
    · exact hy
  · exact Or.inr

/-- A name is found where it was seen from the start or stands among those before it. -/
theorem repeatsAfter_eq (seen xs : List String) :
    repeatsAfter seen xs =
      ((withEarlier xs).filter fun p => p.1 ∈ seen ∨ p.1 ∈ p.2).map Prod.fst := by
  induction xs generalizing seen with
  | nil => rfl
  | cons x xs ih =>
    rw [repeatsAfter, withEarlier_cons]
    by_cases hx : x ∈ seen
    · rw [if_pos hx, ih seen, List.filter_cons_of_pos (by simp [hx]), List.filter_map]
      simp only [Function.comp_def, mem_or_mem_cons, mem_cons_of_seen hx, List.map_cons,
        List.map_map]
    · rw [if_neg hx, ih (x :: seen), List.filter_cons_of_neg (by simp [hx]), List.filter_map]
      simp only [Function.comp_def, mem_or_mem_cons, List.map_map]

/-- It makes no difference to see a name twice. -/
theorem repeatsAfter_cons_of_seen {x : String} {seen : List String} (hx : x ∈ seen)
    (xs : List String) : repeatsAfter (x :: seen) xs = repeatsAfter seen xs := by
  simp only [repeatsAfter_eq, mem_cons_of_seen hx]

theorem repeatsAfter_nil (xs : List String) : repeatsAfter [] xs = repeats xs := by
  simp [repeatsAfter_eq, repeats]

/-- How many names of a list are too many: those beyond the different ones. -/
def excess (xs : List String) : Nat := xs.length - xs.toFinset.card

theorem length_repeatsAfter (seen xs : List String) :
    (repeatsAfter seen xs).length + (xs.toFinset \ seen.toFinset).card = xs.length := by
  induction xs generalizing seen with
  | nil => simp [repeatsAfter]
  | cons x xs ih =>
    rw [repeatsAfter, List.toFinset_cons, List.length_cons]
    by_cases hx : x ∈ seen
    · rw [if_pos hx, Finset.insert_sdiff_of_mem _ (List.mem_toFinset.mpr hx), List.length_cons]
      have h := ih seen
      omega
    · have hnew : insert x xs.toFinset \ seen.toFinset =
          insert x (xs.toFinset \ (x :: seen).toFinset) := by
        ext y
        by_cases hy : y = x
        · simp [hy, hx]
        · simp [hy]
      rw [if_neg hx, hnew, Finset.card_insert_of_notMem (by simp)]
      have h := ih (x :: seen)
      omega

theorem length_repeatsAfter_nil (xs : List String) : (repeatsAfter [] xs).length = excess xs := by
  have h := length_repeatsAfter [] xs
  rw [List.toFinset_nil, Finset.sdiff_empty] at h
  unfold excess
  omega

/-- No name is too many exactly if no two are the same. -/
theorem excess_eq_zero_iff {xs : List String} : excess xs = 0 ↔ xs.Nodup := by
  have hle : xs.toFinset.card ≤ xs.length := xs.toFinset_card_le
  constructor
  · intro h
    have hcard : xs.toFinset.card = xs.length := by
      unfold excess at h
      omega
    exact Multiset.toFinset_card_eq_card_iff_nodup.mp hcard
  · intro h
    rw [excess, List.toFinset_card_of_nodup h, Nat.sub_self]

/-! ### Stray breaks -/

/-- The list has the stray breaks of a statement, each with its address, in the order of the tree. -/
structure Stmt.StraysInOrder (s : Stmt) (xs : List (List Nat × Mark)) : Prop where
  sorted : xs.Pairwise fun x y => x.1 < y.1
  mem_iff : ∀ a m, (a, m) ∈ xs ↔ s.StrayAt a m

/-- The addresses of the breaks of a statement that no loop is around. -/
def Stmt.strayAddresses (s : Stmt) : Set (List Nat) := {a | ∃ m, s.StrayAt a m}

theorem Stmt.StraysInOrder.length_eq {s : Stmt} {xs : List (List Nat × Mark)}
    (h : s.StraysInOrder xs) : xs.length = s.strayAddresses.ncard := by
  have hnodup : (xs.map Prod.fst).Nodup := by
    rw [List.nodup_iff_pairwise_ne, List.pairwise_map]
    exact h.sorted.imp fun hlt => ne_of_lt hlt
  have hset : s.strayAddresses = ((xs.map Prod.fst).toFinset : Set (List Nat)) := by
    ext a
    simp [strayAddresses, ← h.mem_iff]
  rw [hset, Set.ncard_coe_finset, List.toFinset_card_of_nodup hnodup, List.length_map]

/-- A statement without stray breaks has none that is outside all loops. -/
theorem Stmt.ncard_strayAddresses_eq_zero_iff {s : Stmt} :
    s.strayAddresses.ncard = 0 ↔
      ∀ a m link, s.subtree? a = some (.breakLoop m link) → s.innermostLoop? a ≠ none := by
  obtain ⟨xs, hxs⟩ := s.exists_listsStrays
  have hstrays : s.StraysInOrder xs := ⟨hxs.sorted, hxs.mem_iff⟩
  rw [← hstrays.length_eq, List.length_eq_zero_iff, List.eq_nil_iff_forall_not_mem]
  constructor
  · intro h a m link hbreak hnone
    exact h (a, m) ((hxs.mem_iff a m).mpr ⟨⟨link, hbreak⟩, hnone⟩)
  · rintro h ⟨a, m⟩ hx
    obtain ⟨⟨link, hbreak⟩, hnone⟩ := (hxs.mem_iff a m).mp hx
    exact h a m link hbreak hnone

/-! ### Functions -/

namespace Function

/-- The diagnostics owed for a function that has the stray breaks `strays` and comes after the
    functions `before`: one if its name is taken, one for each repeated parameter, and one for each
    stray break. -/
def owed (before : List Function) (strays : List (List Nat × Mark)) (f : Function) :
    List Diagnostic :=
  (if f.name ∈ before.map Function.name then
    [⟨.analysis, .error, s!"Function '{f.name}' is defined more than once",
      "flatline.analyzers.functions", f.origin.location, f.origin.span⟩]
  else []) ++
  (repeats f.params).map (fun x =>
    ⟨.analysis, .error, s!"Parameter '{x}' of '{f.name}' is declared more than once",
      "flatline.analyzers.functions", f.origin.location, f.origin.span⟩) ++
  strays.map fun x =>
    ⟨.analysis, .error, "'break' used outside of a loop", "flatline.analyzers.loops",
      x.2.origin.location, x.2.origin.span⟩

theorem findings_eq_owed {f : Function} {before : List Function}
    {strays : List (List Nat × Mark)} (h : f.body.ListsStrays strays) :
    (f.findings (f.name ∈ before.map Function.name)).map Finding.toDiagnostic =
      f.owed before strays := by
  unfold findings owed
  rw [← h.marks, repeatsAfter_nil, List.map_append, List.map_append, List.map_map, List.map_map,
    List.map_map]
  congr 2
  by_cases hname : f.name ∈ before.map Function.name
  · simp only [hname, decide_true, if_true]
    rfl
  · simp only [hname, decide_false, if_false]
    rfl

theorem length_findings (taken : Bool) (f : Function) :
    (f.findings taken).length =
      (if taken then 1 else 0) + excess f.params + f.body.strayAddresses.ncard := by
  obtain ⟨xs, hxs⟩ := f.body.exists_listsStrays
  have hstrays : f.body.StraysInOrder xs := ⟨hxs.sorted, hxs.mem_iff⟩
  rw [findings, ← hxs.marks, ← hstrays.length_eq, ← length_repeatsAfter_nil]
  simp only [List.length_append, List.length_map]
  cases taken <;> rfl

end Function

/-! ### Programs -/

namespace Program

theorem findingsAfter_eq (seen : List String) (fs : List Function) :
    findingsAfter seen fs =
      (withEarlier fs).flatMap fun p =>
        p.1.findings (p.1.name ∈ seen ∨ p.1.name ∈ p.2.map Function.name) := by
  induction fs generalizing seen with
  | nil => rfl
  | cons f fs ih =>
    rw [findingsAfter, ih, withEarlier_cons, List.flatMap_cons, List.flatMap_map]
    simp only [List.map_cons, mem_or_mem_cons, List.map_nil, List.not_mem_nil, or_false,
      List.contains_eq_mem]

/-- The number of findings: names of functions, names of parameters and breaks that are too many. -/
theorem length_findingsAfter (seen : List String) (fs : List Function) :
    (findingsAfter seen fs).length =
      (repeatsAfter seen (fs.map Function.name)).length +
        (fs.map fun f => excess f.params).sum +
        (fs.map fun f => f.body.strayAddresses.ncard).sum := by
  induction fs generalizing seen with
  | nil => rfl
  | cons f fs ih =>
    rw [findingsAfter, List.length_append, Function.length_findings, ih, List.map_cons,
      List.map_cons, List.map_cons, List.sum_cons, List.sum_cons, repeatsAfter,
      List.contains_eq_mem]
    by_cases hname : f.name ∈ seen
    · rw [if_pos hname, repeatsAfter_cons_of_seen hname, List.length_cons]
      simp only [hname, decide_true, if_true]
      omega
    · rw [if_neg hname]
      simp only [hname, decide_false, Bool.false_eq_true, if_false]
      omega

/-- How many things in a program are too many: names of functions, names of parameters in each
    function, and breaks that no loop is around. -/
noncomputable def excess (p : Program) : Nat :=
  JumpCode.excess (p.functions.map Function.name) +
    (p.functions.map fun f => JumpCode.excess f.params).sum +
    (p.functions.map fun f => f.body.strayAddresses.ncard).sum

theorem length_findings (p : Program) : p.findings.length = p.excess := by
  rw [findings, length_findingsAfter, length_repeatsAfter_nil]
  rfl

/-- A program in which no two functions share a name, no two parameters of a function do, and every
    break is inside a loop. -/
structure Proper (p : Program) : Prop where
  names : (p.functions.map Function.name).Nodup
  params : ∀ f ∈ p.functions, f.params.Nodup
  breaks : ∀ f ∈ p.functions, ∀ a m link,
    f.body.subtree? a = some (.breakLoop m link) → f.body.innermostLoop? a ≠ none

theorem excess_eq_zero_iff {p : Program} : p.excess = 0 ↔ p.Proper := by
  have hsum (g : Function → Nat) :
      (p.functions.map g).sum = 0 ↔ ∀ f ∈ p.functions, g f = 0 := by
    rw [List.sum_eq_zero_iff_forall_eq_nat, List.forall_mem_map]
  unfold excess
  rw [Nat.add_eq_zero_iff, Nat.add_eq_zero_iff, hsum, hsum, JumpCode.excess_eq_zero_iff]
  simp only [JumpCode.excess_eq_zero_iff, Stmt.ncard_strayAddresses_eq_zero_iff]
  constructor
  · rintro ⟨⟨hnames, hparams⟩, hbreaks⟩
    exact ⟨hnames, hparams, hbreaks⟩
  · rintro ⟨hnames, hparams, hbreaks⟩
    exact ⟨⟨hnames, hparams⟩, hbreaks⟩

/-- The diagnostics of a program are those owed for its functions, in the order of the program. -/
theorem findings_eq {strays : Stmt → List (List Nat × Mark)}
    (hstrays : ∀ s : Stmt, s.ListsStrays (strays s)) (p : Program) :
    p.findings.map Finding.toDiagnostic =
      (withEarlier p.functions).flatMap fun q => q.1.owed q.2 (strays q.1.body) := by
  rw [findings, findingsAfter_eq, List.map_flatMap]
  simp only [List.not_mem_nil, false_or, Function.findings_eq_owed (hstrays _)]

end Program

/-! ### Linked functions -/

/-- The function `g` is `f` with every break that has a loop around it linked to the innermost one,
    and nothing else changed. -/
structure Function.LinkedAs (f g : Function) : Prop where
  name : g.name = f.name
  params : g.params = f.params
  origin : g.origin = f.origin
  unlinked : g.body.unlinked = f.body.unlinked
  inside : ∀ a m old loop, f.body.subtree? a = some (.breakLoop m old) →
    f.body.innermostLoop? a = some loop → g.body.subtree? a = some (.breakLoop m (some loop))
  outside : ∀ a m old, f.body.subtree? a = some (.breakLoop m old) →
    f.body.innermostLoop? a = none → g.body.subtree? a = some (.breakLoop m old)

theorem Function.linkedAs_link (f : Function) : f.LinkedAs f.link where
  name := rfl
  params := rfl
  origin := rfl
  unlinked := Stmt.unlinked_link none f.body
  inside a m old loop hbreak hloop := by
    rw [link, Stmt.subtree?_link, hbreak, hloop]
    rfl
  outside a m old hbreak hnone := by
    rw [link, Stmt.subtree?_link, hbreak, hnone]
    rfl

namespace Program

theorem link_link (p : Program) : p.link.link = p.link := by
  have hfunction (f : Function) : f.link.link = f.link := by
    rw [Function.link, Function.link, Stmt.link_link]
  simp only [link, List.map_map, Function.comp_def, hfunction]

theorem findingsAfter_link (seen : List String) (fs : List Function) :
    findingsAfter seen (fs.map Function.link) = findingsAfter seen fs := by
  induction fs generalizing seen with
  | nil => rfl
  | cons f fs ih =>
    have hf (taken : Bool) : f.link.findings taken = f.findings taken := by
      simp only [Function.findings, Function.link, Stmt.strayBreaks_link]
    rw [List.map_cons, findingsAfter, findingsAfter, ih, hf]
    rfl

/-- Linking a program changes nothing about what is wrong with it. -/
theorem run_examine_link (p : Program) : examine.run p.link = examine.run p := by
  have hfindings : p.link.findings = p.findings := findingsAfter_link [] p.functions
  rw [run_examine, run_examine, hfindings, link_link]

/-- Nothing is found wrong with a program exactly if it is proper. -/
theorem findings_eq_nil_iff {p : Program} : p.findings = [] ↔ p.Proper := by
  rw [← excess_eq_zero_iff, ← length_findings, List.length_eq_zero_iff]

theorem linkedAs_link (p : Program) :
    List.Forall₂ Function.LinkedAs p.functions p.link.functions := by
  rw [link, List.forall₂_map_right_iff, List.forall₂_same]
  intro f _
  exact f.linkedAs_link

/-- What examining a program that has the findings `fs` comes to, if `q` is what is left of it. -/
def Examined (p : Program) (fs : List Finding) (q : Program) : Prop :=
  if fs = [] then examine.run p = .ok () q ∧ p.check = .ok q
  else examine.run p = .error fs q ∧ p.check = .error (fs.map Finding.toDiagnostic)

theorem examined (p : Program) : p.Examined p.findings p.link := by
  unfold Examined
  rw [check, analyze_eq, run_examine]
  cases p.findings with
  | nil => simp
  | cons f fs => simp

end Program

/-- **Checking reports every problem once and links regardless.**  Function by function, the
    diagnostics of a program are one if the name of the function was taken before, one for each
    parameter that stands among those before it, and one for each break without a loop around it, in
    the order of the tree.  So a program passes exactly if it is proper, and the number of diagnostics
    is the number of things that are too many.

    Whether the program passes or not, a program is left.  Its functions have the names and
    parameters that they had, every break inside a loop is linked to the innermost one, and to examine
    it gives the same program and the same findings. -/
theorem problems_are_reported_once (p : Program) :
    ∃ (strays : Stmt → List (List Nat × Mark)) (fs : List Finding) (q : Program),
      (∀ s : Stmt, s.StraysInOrder (strays s)) ∧
      p.Examined fs q ∧
      fs.map Finding.toDiagnostic =
        (withEarlier p.functions).flatMap (fun f => f.1.owed f.2 (strays f.1.body)) ∧
      ((∃ q, Program.examine.run p = .ok () q) ↔ p.Proper) ∧
      fs.length = p.excess ∧
      List.Forall₂ Function.LinkedAs p.functions q.functions ∧
      Program.examine.run q = Program.examine.run p := by
  choose strays hstrays using Stmt.exists_listsStrays
  refine ⟨strays, p.findings, p.link, ?_, p.examined, p.findings_eq hstrays, ?_, p.length_findings,
    p.linkedAs_link, p.run_examine_link⟩
  · intro s
    exact ⟨(hstrays s).sorted, (hstrays s).mem_iff⟩
  · rw [← Program.findings_eq_nil_iff, Program.run_examine]
    cases p.findings with
    | nil => simp
    | cons f fs => simp

end JumpCode
