import JumpCode.Compile
import JumpCode.Proofs.Lowering.Shape
import Mathlib.Data.List.Perm.Subperm

/-!
# Statements are numbered in the order in which they are finished

The reader gives each statement the next number when it has read all of it.  So the numbers of the
statements of a tree, listed with each statement after those inside it, follow one another without
a gap, and no two statements of a script have the same number.
-/

namespace JumpCode

namespace Stmt

mutual

/-- The numbers of a statement and of all statements inside it, its own last. -/
def ids : Stmt → List StmtId
  | .block m body => idsAll body ++ [m.id]
  | .eval m _ | .ret m _ | .breakLoop m _ => [m.id]
  | .ifThen m _ t => t.ids ++ [m.id]
  | .ifElse m _ t e => t.ids ++ (e.ids ++ [m.id])
  | .whileLoop m _ body => body.ids ++ [m.id]

def idsAll : List Stmt → List StmtId
  | [] => []
  | s :: ss => s.ids ++ idsAll ss

end

mutual

/-- The loops of a statement are some of its statements. -/
theorem loops_subperm_ids (s : Stmt) : s.loops.Subperm s.ids := by
  cases s with
  | block m body => exact (loops_subperm_idsAll body).trans (List.sublist_append_left _ _).subperm
  | eval m e => exact List.nil_subperm
  | ret m e => exact List.nil_subperm
  | ifThen m c t => exact (loops_subperm_ids t).trans (List.sublist_append_left _ _).subperm
  | ifElse m c t e =>
    have he := (loops_subperm_ids e).trans (List.sublist_append_left e.ids [m.id]).subperm
    exact (loops_subperm_ids t).append he
  | whileLoop m c body =>
    -- A loop is listed before what is inside it among the loops, and after it among all statements.
    have hbody := (List.subperm_cons m.id).mpr (loops_subperm_ids body)
    exact hbody.trans (List.perm_append_singleton m.id body.ids).symm.subperm
  | breakLoop m link => exact List.nil_subperm

theorem loops_subperm_idsAll (ss : List Stmt) : (loopsAll ss).Subperm (idsAll ss) := by
  cases ss with
  | nil => exact List.nil_subperm
  | cons s ss => exact (loops_subperm_ids s).append (loops_subperm_idsAll ss)

end

/-- If no two statements have the same number, no two loops have. -/
theorem nodup_loops {s : Stmt} (h : s.ids.Nodup) : s.loops.Nodup := by
  obtain ⟨l, hperm, hsub⟩ := loops_subperm_ids s
  exact hperm.nodup_iff.mp (h.sublist hsub)

end Stmt

/-! ### Pairs -/

mutual

/-- What holds of a pair whenever it holds of the pairs inside it holds of all pairs. -/
theorem Peg.Pair.inductionOn {ρ : Type} {motive : Pair ρ → Prop} (p : Pair ρ)
    (node : ∀ r a b inner, (∀ q ∈ inner, motive q) → motive (.node r a b inner)) : motive p := by
  cases p with
  | node r a b inner => exact node r a b inner (Peg.Pair.forall_mem_inductionOn inner node)

theorem Peg.Pair.forall_mem_inductionOn {ρ : Type} {motive : Pair ρ → Prop} (ps : List (Pair ρ))
    (node : ∀ r a b inner, (∀ q ∈ inner, motive q) → motive (.node r a b inner)) :
    ∀ p ∈ ps, motive p := by
  cases ps with
  | nil => simp
  | cons p ps =>
    rw [List.forall_mem_cons]
    exact ⟨Peg.Pair.inductionOn p node, Peg.Pair.forall_mem_inductionOn ps node⟩

end

namespace Reader

/-! ### Reading with numbers -/

/-- A reading that succeeds in two parts succeeds in each. -/
theorem bind_eq_ok {α β : Type} {x : Numbering α} {f : α → Numbering β} {n : Nat} {r : β × Nat}
    (h : (x >>= f) n = .ok r) : ∃ a m, x n = .ok (a, m) ∧ f a m = .ok r := by
  change (do let (a, m) ← x n; f a m : Except Refusal _) = .ok r at h
  cases hx : x n with
  | error e =>
    rw [hx] at h
    cases h
  | ok am =>
    rw [hx] at h
    exact ⟨am.1, am.2, rfl, h⟩

/-- Reading an expression leaves the next number as it is. -/
theorem lift_eq_ok {α : Type} {x : Except Refusal α} {n : Nat} {a : α} {m : Nat}
    (h : (liftM x : Numbering α) n = .ok (a, m)) : x = .ok a ∧ m = n := by
  cases x with
  | error e => cases h
  | ok b =>
    cases h
    exact ⟨rfl, rfl⟩

theorem bind_of_ok {α β : Type} {x : Numbering α} {f : α → Numbering β} {n m : Nat} {a : α}
    (h : x n = .ok (a, m)) : (x >>= f) n = f a m := by
  change (do let (a, m) ← x n; f a m : Except Refusal _) = _
  rw [h]
  rfl

theorem lift_of_ok {α : Type} {x : Except Refusal α} {a : α} (h : x = .ok a) (n : Nat) :
    (liftM x : Numbering α) n = .ok (a, n) := by
  rw [h]
  rfl

mutual

/-- A pair is read as a statement.  The next number is `n` before, and `m` after. -/
inductive ReadsStmt (file : String) : Peg.Pair Rule → Nat → Stmt → Nat → Prop where
  | statement {a b : Cursor} {q : Peg.Pair Rule} {n m : Nat} {s : Stmt}
      (h : ReadsStmt file q n s m) :
      ReadsStmt file (.node .statement a b [q]) n s m
  | block {a b : Cursor} {qs : List (Peg.Pair Rule)} {n m : Nat} {body : List Stmt}
      (h : ReadsStmts file qs n body m) :
      ReadsStmt file (.node .block a b qs) n (.block ⟨⟨m⟩, Cursor.originTo file a b⟩ body) (m + 1)
  | ifThen {a b : Cursor} {head c t : Peg.Pair Rule} {n m : Nat} {cond : Expr} {thenBranch : Stmt}
      (hc : readExpr file c = .ok cond) (ht : ReadsStmt file t n thenBranch m) :
      ReadsStmt file (.node .ifStmt a b [head, c, t]) n
        (.ifThen ⟨⟨m⟩, Cursor.originTo file a b⟩ cond thenBranch) (m + 1)
  | ifElse {a b : Cursor} {head c t e : Peg.Pair Rule} {n n' m : Nat} {cond : Expr}
      {thenBranch elseBranch : Stmt} (hc : readExpr file c = .ok cond)
      (ht : ReadsStmt file t n thenBranch n') (he : ReadsStmt file e n' elseBranch m) :
      ReadsStmt file (.node .ifStmt a b [head, c, t, e]) n
        (.ifElse ⟨⟨m⟩, Cursor.originTo file a b⟩ cond thenBranch elseBranch) (m + 1)
  | elseClause {a b : Cursor} {head q : Peg.Pair Rule} {n m : Nat} {s : Stmt}
      (h : ReadsStmt file q n s m) : ReadsStmt file (.node .elseClause a b [head, q]) n s m
  | whileLoop {a b : Cursor} {head c q : Peg.Pair Rule} {n m : Nat} {cond : Expr} {body : Stmt}
      (hc : readExpr file c = .ok cond) (h : ReadsStmt file q n body m) :
      ReadsStmt file (.node .whileStmt a b [head, c, q]) n
        (.whileLoop ⟨⟨m⟩, Cursor.originTo file a b⟩ cond body) (m + 1)
  | ret {a b : Cursor} {head : Peg.Pair Rule} {n : Nat} :
      ReadsStmt file (.node .returnStmt a b [head]) n
        (.ret ⟨⟨n⟩, Cursor.originTo file a b⟩ none) (n + 1)
  | retValue {a b : Cursor} {head e : Peg.Pair Rule} {n : Nat} {value : Expr}
      (he : readExpr file e = .ok value) :
      ReadsStmt file (.node .returnStmt a b [head, e]) n
        (.ret ⟨⟨n⟩, Cursor.originTo file a b⟩ (some value)) (n + 1)
  | breakLoop {a b : Cursor} {head : Peg.Pair Rule} {n : Nat} :
      ReadsStmt file (.node .breakStmt a b [head]) n
        (.breakLoop ⟨⟨n⟩, Cursor.originTo file a b⟩ none) (n + 1)
  | eval {a b : Cursor} {e : Peg.Pair Rule} {n : Nat} {value : Expr}
      (he : readExpr file e = .ok value) :
      ReadsStmt file (.node .exprStmt a b [e]) n
        (.eval ⟨⟨n⟩, Cursor.originTo file a b⟩ value) (n + 1)

inductive ReadsStmts (file : String) : List (Peg.Pair Rule) → Nat → List Stmt → Nat → Prop where
  | nil {n : Nat} : ReadsStmts file [] n [] n
  | cons {q : Peg.Pair Rule} {qs : List (Peg.Pair Rule)} {n n' m : Nat} {s : Stmt} {ss : List Stmt}
      (h : ReadsStmt file q n s n') (hrest : ReadsStmts file qs n' ss m) :
      ReadsStmts file (q :: qs) n (s :: ss) m

end

variable {file : String}

theorem readsStmts_of_ok {ps : List (Peg.Pair Rule)}
    (hps : ∀ p ∈ ps, ∀ n s m, readStmt file p n = .ok (s, m) → ReadsStmt file p n s m) {n : Nat}
    {ss : List Stmt} {m : Nat} (h : readStmts file ps n = .ok (ss, m)) :
    ReadsStmts file ps n ss m := by
  induction ps generalizing n ss with
  | nil =>
    cases h
    exact .nil
  | cons p ps ih =>
    rw [List.forall_mem_cons] at hps
    obtain ⟨s, n₁, hs, h₁⟩ := bind_eq_ok h
    obtain ⟨rest, n₂, hrest, hend⟩ := bind_eq_ok h₁
    cases hend
    exact .cons (hps.1 _ _ _ hs) (ih hps.2 hrest)

theorem readsStmt_of_ok {p : Peg.Pair Rule} {n : Nat} {s : Stmt} {m : Nat}
    (h : readStmt file p n = .ok (s, m)) : ReadsStmt file p n s m := by
  induction p using Peg.Pair.inductionOn generalizing n s m with
  | node r a b inner ih =>
  have hinner : ∀ q ∈ inner, ∀ n s m, readStmt file q n = .ok (s, m) → ReadsStmt file q n s m :=
    fun q hq n s m hs => ih q hq hs
  unfold readStmt at h
  dsimp only at h
  split at h
  · exact .statement (hinner _ (by simp) _ _ _ h)
  · obtain ⟨body, n₁, hbody, hend⟩ := bind_eq_ok h
    cases hend
    exact .block (readsStmts_of_ok hinner hbody)
  · obtain ⟨c, n₁, hlift, h₁⟩ := bind_eq_ok h
    obtain ⟨hc, rfl⟩ := lift_eq_ok hlift
    obtain ⟨t, n₂, ht, hend⟩ := bind_eq_ok h₁
    cases hend
    exact .ifThen hc (hinner _ (by simp) _ _ _ ht)
  · obtain ⟨c, n₁, hlift, h₁⟩ := bind_eq_ok h
    obtain ⟨hc, rfl⟩ := lift_eq_ok hlift
    obtain ⟨t, n₂, ht, h₂⟩ := bind_eq_ok h₁
    obtain ⟨e, n₃, he, hend⟩ := bind_eq_ok h₂
    cases hend
    exact .ifElse hc (hinner _ (by simp) _ _ _ ht) (hinner _ (by simp) _ _ _ he)
  · exact .elseClause (hinner _ (by simp) _ _ _ h)
  · obtain ⟨c, n₁, hlift, h₁⟩ := bind_eq_ok h
    obtain ⟨hc, rfl⟩ := lift_eq_ok hlift
    obtain ⟨t, n₂, ht, hend⟩ := bind_eq_ok h₁
    cases hend
    exact .whileLoop hc (hinner _ (by simp) _ _ _ ht)
  · cases h
    exact .ret
  · obtain ⟨e, n₁, hlift, hend⟩ := bind_eq_ok h
    obtain ⟨he, rfl⟩ := lift_eq_ok hlift
    cases hend
    exact .retValue he
  · cases h
    exact .breakLoop
  · obtain ⟨e, n₁, hlift, hend⟩ := bind_eq_ok h
    obtain ⟨he, rfl⟩ := lift_eq_ok hlift
    cases hend
    exact .eval he
  · cases h

mutual

theorem ReadsStmt.readStmt_eq {p : Peg.Pair Rule} {n : Nat} {s : Stmt} {m : Nat}
    (h : ReadsStmt file p n s m) : readStmt file p n = .ok (s, m) := by
  cases h with
  | statement h => exact h.readStmt_eq
  | block h => exact bind_of_ok h.readStmts_eq
  | ifThen hc ht =>
    rw [readStmt, bind_of_ok (lift_of_ok hc n)]
    exact bind_of_ok ht.readStmt_eq
  | ifElse hc ht he =>
    rw [readStmt, bind_of_ok (lift_of_ok hc n), bind_of_ok ht.readStmt_eq]
    exact bind_of_ok he.readStmt_eq
  | elseClause h => exact h.readStmt_eq
  | whileLoop hc h =>
    rw [readStmt, bind_of_ok (lift_of_ok hc n)]
    exact bind_of_ok h.readStmt_eq
  | ret => rfl
  | retValue he =>
    rw [readStmt]
    exact bind_of_ok (lift_of_ok he n)
  | breakLoop => rfl
  | eval he =>
    rw [readStmt]
    exact bind_of_ok (lift_of_ok he n)

theorem ReadsStmts.readStmts_eq {ps : List (Peg.Pair Rule)} {n : Nat} {ss : List Stmt} {m : Nat}
    (h : ReadsStmts file ps n ss m) : readStmts file ps n = .ok (ss, m) := by
  cases h with
  | nil => rfl
  | cons h hrest =>
    rw [readStmts, bind_of_ok h.readStmt_eq]
    exact bind_of_ok hrest.readStmts_eq

end

/-- The `k` numbers from `n` on. -/
def idsFrom (n k : Nat) : List StmtId := (List.range' n k).map .mk

theorem idsFrom_add (n a b : Nat) : idsFrom n (a + b) = idsFrom n a ++ idsFrom (n + a) b := by
  simp only [idsFrom, ← List.map_append, List.range'_append_1]

theorem idsFrom_succ (n k : Nat) : idsFrom n (k + 1) = idsFrom n k ++ [⟨n + k⟩] := idsFrom_add n k 1

theorem nodup_idsFrom (n k : Nat) : (idsFrom n k).Nodup := by
  rw [idsFrom, List.nodup_iff_pairwise_ne, List.pairwise_map]
  refine List.Pairwise.imp ?_ (List.nodup_iff_pairwise_ne.mp (List.nodup_range' 1))
  intro i j hne h
  exact hne (StmtId.mk.inj h)

mutual

/-- The statements of a tree get consecutive numbers in the order in which they are finished. -/
theorem ReadsStmt.ids {p : Peg.Pair Rule} {n : Nat} {s : Stmt} {m : Nat}
    (h : ReadsStmt file p n s m) : ∃ k, m = n + k ∧ s.ids = idsFrom n k := by
  cases h with
  | statement h => exact h.ids
  | block h =>
    -- A block comes after its statements.
    obtain ⟨k, rfl, hids⟩ := h.ids
    exact ⟨k + 1, rfl, by rw [Stmt.ids, hids, idsFrom_succ]⟩
  | ifThen hc ht =>
    obtain ⟨k, rfl, hids⟩ := ht.ids
    exact ⟨k + 1, rfl, by rw [Stmt.ids, hids, idsFrom_succ]⟩
  | ifElse hc ht he =>
    obtain ⟨k, rfl, hids⟩ := ht.ids
    obtain ⟨l, rfl, hids'⟩ := he.ids
    refine ⟨k + (l + 1), by omega, ?_⟩
    rw [Stmt.ids, hids, hids', idsFrom_add, idsFrom_succ]
  | elseClause h => exact h.ids
  | whileLoop hc h =>
    obtain ⟨k, rfl, hids⟩ := h.ids
    exact ⟨k + 1, rfl, by rw [Stmt.ids, hids, idsFrom_succ]⟩
  | ret => exact ⟨1, rfl, rfl⟩
  | retValue he => exact ⟨1, rfl, rfl⟩
  | breakLoop => exact ⟨1, rfl, rfl⟩
  | eval he => exact ⟨1, rfl, rfl⟩

theorem ReadsStmts.ids {ps : List (Peg.Pair Rule)} {n : Nat} {ss : List Stmt} {m : Nat}
    (h : ReadsStmts file ps n ss m) : ∃ k, m = n + k ∧ Stmt.idsAll ss = idsFrom n k := by
  cases h with
  | nil => exact ⟨0, rfl, rfl⟩
  | cons h hrest =>
    obtain ⟨k, rfl, hids⟩ := h.ids
    obtain ⟨l, rfl, hids'⟩ := hrest.ids
    refine ⟨k + l, by rw [Nat.add_assoc], ?_⟩
    rw [Stmt.idsAll, hids, hids', idsFrom_add]

end

/-- What reading a function needs its body for. -/
theorem readFunction_eq_ok {p : Peg.Pair Rule} {n : Nat} {f : Function} {m : Nat}
    (h : readFunction file p n = .ok (f, m)) : ∃ q, readStmt file q n = .ok (f.body, m) := by
  cases p with
  | node r a b inner =>
  unfold readFunction at h
  dsimp only at h
  split at h
  · obtain ⟨body, n₁, hbody, hend⟩ := bind_eq_ok h
    cases hend
    exact ⟨_, hbody⟩
  · obtain ⟨body, n₁, hbody, hend⟩ := bind_eq_ok h
    cases hend
    exact ⟨_, hbody⟩
  · cases h

/-- The statements of all functions of a script get consecutive numbers. -/
theorem ids_of_readFunctions {ps : List (Peg.Pair Rule)} {n : Nat} {fs : List Function} {m : Nat}
    (h : readFunctions file ps n = .ok (fs, m)) :
    ∃ k, m = n + k ∧ fs.flatMap (fun f => f.body.ids) = idsFrom n k := by
  induction ps generalizing n fs m with
  | nil =>
    cases h
    exact ⟨0, rfl, rfl⟩
  | cons q qs ih =>
    unfold readFunctions at h
    split at h
    · exact ih h
    · obtain ⟨f, n₁, hf, h₁⟩ := bind_eq_ok h
      obtain ⟨rest, n₂, hrest, hend⟩ := bind_eq_ok h₁
      cases hend
      obtain ⟨q, hbody⟩ := readFunction_eq_ok hf
      obtain ⟨k, rfl, hids⟩ := (readsStmt_of_ok hbody).ids
      obtain ⟨l, rfl, hids'⟩ := ih hrest
      refine ⟨k + l, by rw [Nat.add_assoc], ?_⟩
      rw [List.flatMap_cons, hids, hids', idsFrom_add]

end Reader

namespace Program

/-- A script that is read holds pairs which are read as the functions of the program, and there is
    one at least. -/
theorem exists_readFunctions_of_ofScript {s : Script} {p : Program} (h : ofScript s = .ok p) :
    ∃ pairs m, scriptGrammar.parse .program s.content = .ok pairs ∧
      Reader.readFunctions s.name (pairs.flatMap Peg.Pair.inner) 1 = .ok (p.functions, m) ∧
      p.functions ≠ [] := by
  unfold ofScript at h
  split at h
  · cases h
  · split at h
    · cases h
    · next pairs hparse =>
      split at h
      · cases h
      · cases h
      · next functions m hne hread =>
        cases h
        exact ⟨pairs, m, hparse, hread, hne⟩

/-- The numbers of all statements of a program, function by function. -/
def ids (p : Program) : List StmtId := p.functions.flatMap fun f => f.body.ids

/-- The statements of a script are numbered from 1 on in the order in which they are finished. -/
theorem ids_of_ofScript {s : Script} {p : Program} (h : ofScript s = .ok p) :
    ∃ k, p.ids = Reader.idsFrom 1 k := by
  obtain ⟨pairs, m, -, hread, -⟩ := exists_readFunctions_of_ofScript h
  obtain ⟨k, -, hids⟩ := Reader.ids_of_readFunctions hread
  exact ⟨k, hids⟩

/-- No two statements of a function that was read have the same number. -/
theorem nodup_ids_of_ofScript {s : Script} {p : Program} (h : ofScript s = .ok p) {f : Function}
    (hf : f ∈ p.functions) : f.body.ids.Nodup := by
  obtain ⟨k, hids⟩ := ids_of_ofScript h
  have hnodup : p.ids.Nodup := by
    rw [hids]
    exact Reader.nodup_idsFrom 1 k
  obtain ⟨before, rest, hfs⟩ := List.append_of_mem hf
  rw [ids, hfs, List.flatMap_append, List.flatMap_cons] at hnodup
  exact (List.nodup_append.mp (List.nodup_append.mp hnodup).2.1).1

end Program

end JumpCode
