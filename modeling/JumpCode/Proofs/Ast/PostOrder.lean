import JumpCode.Proofs.Ast.Links
import JumpCode.Proofs.Ast.Numbering
import JumpCode.Proofs.Lowering.Lockstep
import Mathlib.Data.List.Flatten

/-!
# The numbers of a program are its order of finishing

The numbers of the statements of a script, listed with each statement after those inside it, are 1,
2, 3 and so on.  So no number is used twice, and a statement has a greater number than whatever
stands inside it, however deep.

Which number comes first does not matter: a reader that has numbered other statements before reads
the same program with every number moved by as much (`readFunctions_moved`).
-/

namespace JumpCode

/-! ### Statements inside statements -/

namespace Stmt

theorem idsAll_eq_flatMap (ss : List Stmt) : idsAll ss = ss.flatMap ids := by
  induction ss with
  | nil => rfl
  | cons s ss ih => rw [idsAll, ih, List.flatMap_cons]

/-- The numbers of a statement are those of its children, from left to right, and its own. -/
theorem ids_eq (s : Stmt) : s.ids = s.children.flatMap ids ++ [s.id] := by
  cases s with
  | block m body => rw [ids, idsAll_eq_flatMap]; rfl
  | eval m e => rfl
  | ret m e => rfl
  | ifThen m c t => simp [ids, children, id, mark]
  | ifElse m c t e => simp [ids, children, id, mark]
  | whileLoop m c body => simp [ids, children, id, mark]
  | breakLoop m link => rfl

theorem id_mem_ids (s : Stmt) : s.id ∈ s.ids := by
  rw [ids_eq]
  exact List.mem_append_right _ List.mem_cons_self

/-- The numbers of a child stand among those of its parent, in the same order. -/
theorem ids_sublist_of_child {s t : Stmt} {i : Nat} (h : s.children[i]? = some t) :
    t.ids.Sublist (s.children.flatMap ids) := by
  have hmem := List.mem_of_getElem? h
  simpa using (List.singleton_sublist.mpr hmem).flatMap ids

theorem ids_sublist_of_subtree? {s t : Stmt} {a : List Nat} (h : s.subtree? a = some t) :
    t.ids.Sublist s.ids := by
  induction a generalizing s with
  | nil =>
    cases h
    exact List.Sublist.refl _
  | cons i a ih =>
    obtain ⟨u, hu, ht⟩ := subtree?_cons.mp h
    rw [ids_eq s]
    exact ((ih ht).trans (ids_sublist_of_child hu)).trans (List.sublist_append_left _ _)

/-- Where the numbers grow, a statement has a greater one than whatever stands inside it. -/
theorem number_lt_of_inside {s t : Stmt} {a : List Nat}
    (hs : s.ids.Pairwise fun i j => i.number < j.number) (h : s.subtree? a = some t) (ha : a ≠ []) :
    t.id.number < s.id.number := by
  cases a with
  | nil => exact absurd rfl ha
  | cons i a =>
    obtain ⟨u, hu, ht⟩ := subtree?_cons.mp h
    rw [ids_eq, List.pairwise_append] at hs
    have hinside : t.id ∈ s.children.flatMap ids :=
      (ids_sublist_of_child hu).subset ((ids_sublist_of_subtree? ht).subset t.id_mem_ids)
    exact hs.2.2 _ hinside _ List.mem_cons_self

end Stmt

theorem Reader.pairwise_idsFrom (n k : Nat) :
    (Reader.idsFrom n k).Pairwise fun i j => i.number < j.number := by
  rw [Reader.idsFrom, List.pairwise_map]
  exact List.pairwise_lt_range'

/-! ### Another first number -/

/-- Every statement gets a number that is greater by `d`. -/
def Renaming.moved (d : Nat) : Renaming where
  name x := x
  id i := ⟨d + i.number⟩
  name_injective _ _ h := h
  id_injective := by
    intro i j h
    exact congrArg StmtId.mk (Nat.add_left_cancel (StmtId.mk.inj h))

/-- The function with its statements renumbered. -/
def Function.moved (d : Nat) (f : Function) : Function :=
  { f with body := f.body.rename (.moved d) }

namespace Reader

variable {file : String}

/-- Moving the numbers leaves expressions as they are. -/
theorem rename_moved (d : Nat) (e : Expr) : e.rename (.moved d) = e := e.rename_eq_self fun _ => rfl

mutual

/-- Reading a statement from a number greater by `d` gives all numbers in it greater by `d`. -/
theorem ReadsStmt.moved (d : Nat) {p : Peg.Pair Rule} {n : Nat} {s : Stmt} {m : Nat}
    (h : ReadsStmt file p n s m) : ReadsStmt file p (d + n) (s.rename (.moved d)) (d + m) := by
  cases h with
  | statement h => exact .statement (h.moved d)
  | block h => exact .block (h.moved d)
  | ifThen hc ht =>
    rw [Stmt.rename, rename_moved]
    exact .ifThen hc (ht.moved d)
  | ifElse hc ht he =>
    rw [Stmt.rename, rename_moved]
    exact .ifElse hc (ht.moved d) (he.moved d)
  | elseClause h => exact .elseClause (h.moved d)
  | whileLoop hc h =>
    rw [Stmt.rename, rename_moved]
    exact .whileLoop hc (h.moved d)
  | ret => exact .ret
  | retValue he =>
    rw [Stmt.rename, Option.map_some, rename_moved]
    exact .retValue he
  | breakLoop => exact .breakLoop
  | eval he =>
    rw [Stmt.rename, rename_moved]
    exact .eval he

theorem ReadsStmts.moved (d : Nat) {ps : List (Peg.Pair Rule)} {n : Nat} {ss : List Stmt} {m : Nat}
    (h : ReadsStmts file ps n ss m) :
    ReadsStmts file ps (d + n) (Stmt.renameAll (.moved d) ss) (d + m) := by
  cases h with
  | nil => exact .nil
  | cons h hrest => exact .cons (h.moved d) (hrest.moved d)

end

/-- Reading a function from a number greater by `d` gives all numbers in its body greater by `d`. -/
theorem readFunction_moved (d : Nat) {p : Peg.Pair Rule} {n : Nat} {f : Function} {m : Nat}
    (h : readFunction file p n = .ok (f, m)) :
    readFunction file p (d + n) = .ok (f.moved d, d + m) := by
  cases p with
  | node r a b inner =>
  unfold readFunction at h
  dsimp only at h
  split at h
  · obtain ⟨body, n₁, hbody, hend⟩ := bind_eq_ok h
    cases hend
    rw [readFunction]
    exact bind_of_ok ((readsStmt_of_ok hbody).moved d).readStmt_eq
  · obtain ⟨body, n₁, hbody, hend⟩ := bind_eq_ok h
    cases hend
    rw [readFunction]
    exact bind_of_ok ((readsStmt_of_ok hbody).moved d).readStmt_eq
  · cases h

/-- **The first number does not matter.** -/
theorem readFunctions_moved (d : Nat) {ps : List (Peg.Pair Rule)} {n : Nat} {fs : List Function}
    {m : Nat} (h : readFunctions file ps n = .ok (fs, m)) :
    readFunctions file ps (d + n) = .ok (fs.map (Function.moved d), d + m) := by
  induction ps generalizing n fs m with
  | nil =>
    cases h
    rfl
  | cons q qs ih =>
    unfold readFunctions at h ⊢
    split at h
    · next hq =>
      rw [if_pos hq]
      exact ih h
    · next hq =>
      obtain ⟨f, n₁, hf, h₁⟩ := bind_eq_ok h
      obtain ⟨rest, n₂, hrest, hend⟩ := bind_eq_ok h₁
      cases hend
      rw [if_neg hq, bind_of_ok (readFunction_moved d hf)]
      exact bind_of_ok (ih hrest)

end Reader

/-! ### Programs -/

/-- **Statements are numbered in the order in which they are finished.**  The numbers of a program
    that was read from a script are 1, 2, 3 and so on, if they are listed function by function with
    each statement after those inside it.  So no two statements have the same number, and a
    statement has a greater one than the statements inside it.  If the script is read with `d`
    numbers taken before, every number is greater by `d`, and nothing else changes. -/
theorem numbered_in_order_of_finishing (s : Script) (p : Program)
    (h : Program.ofScript s = .ok p) :
    p.ids.map StmtId.number = List.range' 1 p.ids.length ∧
    p.ids.Nodup ∧
    (∀ f ∈ p.functions, ∀ a b t u, f.body.subtree? a = some t → t.subtree? b = some u → b ≠ [] →
      u.id.number < t.id.number) ∧
    ∃ pairs, scriptGrammar.parse .program s.content = .ok pairs ∧ ∀ d,
      Reader.readFunctions s.name (pairs.flatMap Peg.Pair.inner) (d + 1) =
        .ok (p.functions.map (Function.moved d), d + 1 + p.ids.length) := by
  obtain ⟨pairs, m, hparse, hread, -⟩ := Program.exists_readFunctions_of_ofScript h
  obtain ⟨k, rfl, hids⟩ := Reader.ids_of_readFunctions hread
  have hids : p.ids = Reader.idsFrom 1 k := hids
  have hlength : p.ids.length = k := by simp [hids, Reader.idsFrom]
  have hgrow : p.ids.Pairwise fun i j => i.number < j.number := by
    rw [hids]
    exact Reader.pairwise_idsFrom 1 k
  refine ⟨?_, ?_, ?_, pairs, hparse, ?_⟩
  · rw [hlength, hids, Reader.idsFrom, List.map_map]
    exact List.map_id _
  · rw [hids]
    exact Reader.nodup_idsFrom 1 k
  · intro f hf a b t u ht hu hb
    refine Stmt.number_lt_of_inside (hgrow.sublist ?_) hu hb
    have hbody : f.body.ids.Sublist p.ids := by
      simpa [Program.ids] using (List.singleton_sublist.mpr hf).flatMap fun f => f.body.ids
    exact (Stmt.ids_sublist_of_subtree? ht).trans hbody
  · intro d
    rw [Reader.readFunctions_moved d hread, hlength, Nat.add_assoc]

/-- A script with a choice in a loop, and a second function. -/
def branchingScript : Script :=
  .ofSource "branching"
    "fn f(a) \x7b while (a) \x7b if (a) break; else a = 0; \x7d return a; \x7d fn g() \x7b\x7d"

theorem numbered_in_order_of_finishing_branching :
    ∃ p, Program.ofScript branchingScript = .ok p ∧
      p.ids.map StmtId.number = [1, 2, 3, 4, 5, 6, 7, 8] ∧
      (∀ f ∈ p.functions, ∀ a b t u, f.body.subtree? a = some t → t.subtree? b = some u → b ≠ [] →
        u.id.number < t.id.number) ∧
      ∃ pairs, scriptGrammar.parse .program branchingScript.content = .ok pairs ∧
        Reader.readFunctions branchingScript.name (pairs.flatMap Peg.Pair.inner) 101 =
          .ok (p.functions.map (Function.moved 100), 109) := by
  have hcount : (match Program.ofScript branchingScript with
      | .ok p => p.ids.length
      | .error _ => 0) = 8 := by decide +kernel
  cases hp : Program.ofScript branchingScript with
  | error e =>
    rw [hp] at hcount
    cases hcount
  | ok p =>
    have hlength : p.ids.length = 8 := by simpa only [hp] using hcount
    obtain ⟨hnumbers, -, hinside, pairs, hparse, hmoved⟩ :=
      numbered_in_order_of_finishing branchingScript p hp
    rw [hlength] at hnumbers
    refine ⟨p, rfl, hnumbers, hinside, pairs, hparse, ?_⟩
    rw [hmoved 100, hlength]

end JumpCode
