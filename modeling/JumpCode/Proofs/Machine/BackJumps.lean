import Mathlib.Data.Finset.Card
import JumpCode.Proofs.Machine.Activations
import JumpCode.Proofs.Semantics.Simulation

/-!
# Only loops jump back

The code of a linked function goes forward: all jumps and branches lead to labels further on, with
one exception for each loop, the jump with which the loop goes back to its start.  Breaks lead
forward because the exit of the loop around them comes after everything in the loop.

So a frame moves to higher and higher places until it runs one of these jumps.  Between two times
that it is at the same place it has run one, and a frame of a function without loops is at no place
twice (`only_loops_jump_back`).
-/

namespace JumpCode

/-! ### The jumps of loops -/

/-- The place of the jump with which a loop goes back to its start, right before its last label. -/
def Placed.backJump? (q : Placed) : Option Nat :=
  match q.stmt with
  | .whileLoop _ _ _ => some (q.place + q.stmt.size - 2)
  | _ => none

namespace Stmt

/-- The places of the jumps with which the loops of a statement go back. -/
def backJumps (outer : Option Placed) (i : Nat) (s : Stmt) : List Nat :=
  (s.placed outer i).filterMap Placed.backJump?

def backJumpsAll (outer : Option Placed) (i : Nat) (ss : List Stmt) : List Nat :=
  (placedAll outer i ss).filterMap Placed.backJump?

variable {outer : Option Placed} {i : Nat} {m : Mark} {c : Expr} {t e body : Stmt}

theorem backJumps_ifElse : (ifElse m c t e).backJumps outer i =
    t.backJumps outer (i + c.size + 1) ++ e.backJumps outer (i + c.size + t.size + 3) :=
  List.filterMap_append

theorem backJumps_whileLoop : (whileLoop m c body).backJumps outer i =
    (i + c.size + body.size + 2) ::
      body.backJumps (some ⟨whileLoop m c body, i, outer⟩) (i + c.size + 2) := by
  simp [backJumps, placed, Placed.backJump?, size]
  omega

theorem backJumpsAll_cons {s : Stmt} {ss : List Stmt} : backJumpsAll outer i (s :: ss) =
    s.backJumps outer i ++ backJumpsAll outer (i + s.size) ss :=
  List.filterMap_append

mutual

/-- They are among the instructions of the statement. -/
theorem bounds_of_mem_backJumps {outer : Option Placed} {i j : Nat} (s : Stmt)
    (h : j ∈ s.backJumps outer i) : i ≤ j ∧ j < i + s.size := by
  cases s with
  | block m body => exact bounds_of_mem_backJumpsAll body h
  | eval m e => cases h
  | ret m e => cases h
  | ifThen m c t =>
    have hj := bounds_of_mem_backJumps t h
    rw [size]
    omega
  | ifElse m c t e =>
    rw [backJumps_ifElse] at h
    rw [size]
    rcases List.mem_append.mp h with h | h
    · have hj := bounds_of_mem_backJumps t h
      omega
    · have hj := bounds_of_mem_backJumps e h
      omega
  | whileLoop m c body =>
    rw [backJumps_whileLoop] at h
    rw [size]
    rcases List.mem_cons.mp h with rfl | h
    · omega
    · have hj := bounds_of_mem_backJumps body h
      omega
  | breakLoop m link => cases h

theorem bounds_of_mem_backJumpsAll {outer : Option Placed} {i j : Nat} (ss : List Stmt)
    (h : j ∈ backJumpsAll outer i ss) : i ≤ j ∧ j < i + sizeAll ss := by
  cases ss with
  | nil => cases h
  | cons s ss =>
    rw [backJumpsAll_cons] at h
    rw [sizeAll]
    rcases List.mem_append.mp h with h | h
    · have hj := bounds_of_mem_backJumps s h
      omega
    · have hj := bounds_of_mem_backJumpsAll ss h
      omega

end

mutual

/-- No two loops go back with the same jump. -/
theorem nodup_backJumps (outer : Option Placed) (i : Nat) (s : Stmt) :
    (s.backJumps outer i).Nodup := by
  cases s with
  | block m body => exact nodup_backJumpsAll outer i body
  | eval m e => exact List.nodup_nil
  | ret m e => exact List.nodup_nil
  | ifThen m c t => exact nodup_backJumps outer _ t
  | ifElse m c t e =>
    rw [backJumps_ifElse]
    refine List.nodup_append.mpr ⟨nodup_backJumps outer _ t, nodup_backJumps outer _ e, ?_⟩
    intro j hj k hk
    have hj := bounds_of_mem_backJumps t hj
    have hk := bounds_of_mem_backJumps e hk
    omega
  | whileLoop m c body =>
    rw [backJumps_whileLoop]
    refine List.nodup_cons.mpr ⟨fun hmem => ?_, nodup_backJumps _ _ body⟩
    have hj := bounds_of_mem_backJumps body hmem
    omega
  | breakLoop m link => exact List.nodup_nil

theorem nodup_backJumpsAll (outer : Option Placed) (i : Nat) (ss : List Stmt) :
    (backJumpsAll outer i ss).Nodup := by
  cases ss with
  | nil => exact List.nodup_nil
  | cons s ss =>
    rw [backJumpsAll_cons]
    refine List.nodup_append.mpr ⟨nodup_backJumps outer i s, nodup_backJumpsAll outer _ ss, ?_⟩
    intro j hj k hk
    have hj := bounds_of_mem_backJumps s hj
    have hk := bounds_of_mem_backJumpsAll ss hk
    omega

end

mutual

/-- There is one for each loop. -/
theorem length_backJumps (outer : Option Placed) (i : Nat) (s : Stmt) :
    (s.backJumps outer i).length = s.loops.length := by
  cases s with
  | block m body => exact length_backJumpsAll outer i body
  | eval m e => rfl
  | ret m e => rfl
  | ifThen m c t => exact length_backJumps outer _ t
  | ifElse m c t e =>
    rw [backJumps_ifElse, loops, List.length_append, List.length_append,
      length_backJumps outer _ t, length_backJumps outer _ e]
  | whileLoop m c body =>
    rw [backJumps_whileLoop, loops, List.length_cons, List.length_cons, length_backJumps _ _ body]
  | breakLoop m link => rfl

theorem length_backJumpsAll (outer : Option Placed) (i : Nat) (ss : List Stmt) :
    (backJumpsAll outer i ss).length = (loopsAll ss).length := by
  cases ss with
  | nil => rfl
  | cons s ss =>
    rw [backJumpsAll_cons, loopsAll, List.length_append, List.length_append,
      length_backJumps outer i s, length_backJumpsAll outer _ ss]

end

variable {code : List Instr} {slot : String → Slot}

mutual

/-- Wherever a statement stands in another, its code stands. -/
theorem stands_of_placed {p : Point} {s : Stmt} {i : Nat}
    (hcode : Stands code i (s.code slot p)) {outer : Option Placed} {q : Placed}
    (hq : q ∈ s.placed outer i) : ∃ p', Stands code q.place (q.stmt.code slot p') := by
  cases s with
  | block m body =>
    rcases List.mem_cons.mp hq with rfl | hq
    · exact ⟨p, hcode⟩
    · exact stands_of_placedAll hcode hq
  | eval m e =>
    rw [List.mem_singleton.mp hq]
    exact ⟨p, hcode⟩
  | ret m e =>
    rw [List.mem_singleton.mp hq]
    exact ⟨p, hcode⟩
  | ifThen m c t =>
    rcases List.mem_cons.mp hq with rfl | hq
    · exact ⟨p, hcode⟩
    · exact stands_of_placed (ifThenAt hcode).thenBranch hq
  | ifElse m c t e =>
    rcases List.mem_cons.mp hq with rfl | hq
    · exact ⟨p, hcode⟩
    · rcases List.mem_append.mp hq with hq | hq
      · exact stands_of_placed (ifElseAt hcode).thenBranch hq
      · rw [show i + c.size + t.size + 3 = i + c.size + 1 + t.size + 1 + 1 by omega] at hq
        exact stands_of_placed (ifElseAt hcode).elseBranch hq
  | whileLoop m c body =>
    rcases List.mem_cons.mp hq with rfl | hq
    · exact ⟨p, hcode⟩
    · rw [show i + c.size + 2 = i + 1 + c.size + 1 by omega] at hq
      exact stands_of_placed (whileLoopAt hcode).inside hq
  | breakLoop m link =>
    rw [List.mem_singleton.mp hq]
    exact ⟨p, hcode⟩

theorem stands_of_placedAll {p : Point} {ss : List Stmt} {i : Nat}
    (hcode : Stands code i (codeAll slot p ss)) {outer : Option Placed} {q : Placed}
    (hq : q ∈ placedAll outer i ss) : ∃ p', Stands code q.place (q.stmt.code slot p') := by
  cases ss with
  | nil => cases hq
  | cons s ss =>
    rcases List.mem_append.mp hq with hq | hq
    · exact stands_of_placed hcode.left hq
    · have hss := hcode.right
      rw [length_code] at hss
      exact stands_of_placedAll hss hq

end

/-- A loop goes back from the place that is said to the label with which it begins. -/
theorem jump_of_backJump {p : Point} {s : Stmt} {i : Nat} (hcode : Stands code i (s.code slot p))
    {outer : Option Placed} {q : Placed} (hq : q ∈ s.placed outer i) {j : Nat}
    (hj : q.backJump? = some j) :
    q.place < j ∧ ∃ top, code[q.place]? = some (.label top) ∧ code[j]? = some (.jump top) := by
  obtain ⟨p', hstands⟩ := stands_of_placed hcode hq
  obtain ⟨stmt, place, loop⟩ := q
  cases stmt with
  | whileLoop m c body =>
    cases hj
    obtain ⟨_, _, _, top, -, htop, hback, -⟩ := hasExit_whileLoop hstands loop
    refine ⟨?_, top, htop, hback⟩
    rw [size]
    omega
  | _ => cases hj

end Stmt

/-! ### Where jumps lead -/

namespace Routine

/-- The instructions from the place `i` up to the place `k` jump forward, but for jumps from the
    places `backs`. -/
def JumpsAhead (r : Routine) (backs : List Nat) (i k : Nat) : Prop :=
  ∀ j op l, i ≤ j → j < k → r.code.toList[j]? = some op → op.target? = some l →
    (∃ q, r.positionOf l = some q ∧ j < q) ∨ (op = .jump l ∧ j ∈ backs)

namespace JumpsAhead

variable {r : Routine} {backs : List Nat} {i k n : Nat} {op : Instr}

theorem refl (i : Nat) : r.JumpsAhead backs i i := by
  intro j op l hi hj
  omega

theorem trans (h₁ : r.JumpsAhead backs i k) (h₂ : r.JumpsAhead backs k n) :
    r.JumpsAhead backs i n := by
  intro j op l hi hj hop hl
  rcases Nat.lt_or_ge j k with hlt | hge
  · exact h₁ j op l hi hlt hop hl
  · exact h₂ j op l hge hj hop hl

theorem one (hop : r.code.toList[i]? = some op)
    (h : ∀ l, op.target? = some l →
      (∃ q, r.positionOf l = some q ∧ i < q) ∨ (op = .jump l ∧ i ∈ backs)) :
    r.JumpsAhead backs i (i + 1) := by
  intro j op' l hi hj hop' hl
  obtain rfl : j = i := by omega
  cases hop.symm.trans hop'
  exact h l hl

/-- An instruction that does not jump. -/
theorem straight (hop : r.code.toList[i]? = some op) (h : op.target? = none) :
    r.JumpsAhead backs i (i + 1) := by
  refine .one hop fun l hl => ?_
  rw [h] at hl
  cases hl

/-- A jump or a branch to a label that stands further on. -/
theorem to_label (hlabels : r.LabelsPlaced) (hop : r.code.toList[i]? = some op) {l : Label}
    (hl : op.target? = some l) {q : Nat} (hq : r.code.toList[q]? = some (.label l)) (hlt : i < q) :
    r.JumpsAhead backs i (i + 1) := by
  refine .one hop fun l' hl' => ?_
  cases hl.symm.trans hl'
  exact Or.inl ⟨q, hlabels q l hq, hlt⟩

theorem expr {slot : String → Slot} {e : Expr} {d : Reg}
    (hcode : Stands r.code.toList i (e.code slot d)) : r.JumpsAhead backs i (i + e.size) := by
  intro j op l hi hj hop hl
  have hlt : j - i < (e.code slot d).length := by
    rw [Expr.length_code]
    omega
  have hhere := hcode (j - i) _ (List.getElem?_eq_getElem hlt)
  rw [Nat.add_sub_cancel' hi] at hhere
  cases hhere.symm.trans hop
  exact absurd hl (Expr.no_target (List.getElem_mem hlt))

end JumpsAhead

end Routine

namespace Stmt

open Routine.JumpsAhead

variable {r : Routine} {backs : List Nat} {slot : String → Slot}

mutual

/-- The code of a linked statement jumps ahead, but for its loops, if the exit of the loop around
    the statement comes after it. -/
theorem jumpsAhead_code (hlabels : r.LabelsPlaced) {p : Point} {loop : Option (StmtId × Label)}
    {s : Stmt} (h : Enclosed p loop s) {i : Nat} (hcode : Stands r.code.toList i (s.code slot p))
    {stop : Nat} (hexit : ∀ x ∈ loop, ∃ q, r.positionOf x.2 = some q ∧ stop ≤ q)
    (hstop : i + s.size ≤ stop) {outer : Option Placed} (hbacks : s.backJumps outer i ⊆ backs) :
    r.JumpsAhead backs i (i + s.size) := by
  cases s with
  | block m body => exact jumpsAhead_codeAll hlabels h hcode hexit hstop hbacks
  | eval m e => exact expr hcode
  | ret m e =>
    cases e with
    | none => exact straight hcode.head rfl
    | some e =>
      have hret := hcode.right.head
      rw [Expr.length_code] at hret
      exact (expr hcode.left).trans (straight hret rfl)
  | ifThen m c t =>
    have hat := ifThenAt hcode
    rw [add_size_ifThen] at hstop ⊢
    have ht := jumpsAhead_code hlabels h.ifThen hat.thenBranch hexit (by omega) hbacks
    have hbr : r.JumpsAhead backs (i + c.size) (i + c.size + 1) :=
      to_label hlabels hat.branch rfl hat.last (by omega)
    exact (expr hat.cond).trans (hbr.trans (ht.trans (straight hat.last rfl)))
  | ifElse m c t e =>
    have hat := ifElseAt hcode
    rw [add_size_ifElse] at hstop ⊢
    rw [backJumps_ifElse, show i + c.size + t.size + 3 = i + c.size + 1 + t.size + 1 + 1 by omega]
      at hbacks
    obtain ⟨hbacks_t, hbacks_e⟩ := List.append_subset.mp hbacks
    have ht := jumpsAhead_code hlabels h.thenBranch hat.thenBranch hexit (by omega) hbacks_t
    have he := jumpsAhead_code hlabels h.elseBranch hat.elseBranch hexit (by omega) hbacks_e
    have hbr : r.JumpsAhead backs (i + c.size) (i + c.size + 1) :=
      to_label hlabels hat.branch rfl hat.middle (by omega)
    have hskip : r.JumpsAhead backs (i + c.size + 1 + t.size) (i + c.size + 1 + t.size + 1) :=
      to_label hlabels hat.skip rfl hat.last (by omega)
    exact (expr hat.cond).trans (hbr.trans (ht.trans (hskip.trans
      ((straight hat.middle rfl).trans (he.trans (straight hat.last rfl))))))
  | whileLoop m c body =>
    have hat := whileLoopAt hcode
    rw [add_size_whileLoop]
    rw [backJumps_whileLoop, show i + c.size + 2 = i + 1 + c.size + 1 by omega] at hbacks
    obtain ⟨hself, hbacks_body⟩ := List.cons_subset.mp hbacks
    -- The exit of this loop comes after its body.
    have hinside : ∀ x ∈ some (m.id, Label.ofNat (p.label + 1)),
        ∃ q, r.positionOf x.2 = some q ∧ i + 1 + c.size + 1 + body.size ≤ q := by
      intro x hx
      cases hx
      exact ⟨_, hlabels _ _ hat.last, by omega⟩
    have hbody := jumpsAhead_code hlabels h.whileLoop hat.inside hinside (Nat.le_refl _)
      hbacks_body
    have hbr : r.JumpsAhead backs (i + 1 + c.size) (i + 1 + c.size + 1) :=
      to_label hlabels hat.branch rfl hat.last (by omega)
    have hown : r.JumpsAhead backs (i + 1 + c.size + 1 + body.size)
        (i + 1 + c.size + 1 + body.size + 1) := by
      refine one hat.back fun l hl => Or.inr ?_
      cases hl
      refine ⟨rfl, ?_⟩
      rwa [show i + 1 + c.size + 1 + body.size = i + c.size + body.size + 2 by omega]
    exact (straight hat.top rfl).trans ((expr hat.cond).trans (hbr.trans
      (hbody.trans (hown.trans (straight hat.last rfl)))))
  | breakLoop m link =>
    obtain ⟨x, hx, hlink⟩ := h.exit_of_break
    obtain ⟨q, hq, hle⟩ := hexit x hx
    rw [code, hlink] at hcode
    refine one hcode.head fun l hl => Or.inl ?_
    cases hl
    exact ⟨q, hq, Nat.lt_of_succ_le (Nat.le_trans hstop hle)⟩

theorem jumpsAhead_codeAll (hlabels : r.LabelsPlaced) {p : Point}
    {loop : Option (StmtId × Label)} {m : Mark} {ss : List Stmt}
    (h : Enclosed p loop (.block m ss)) {i : Nat}
    (hcode : Stands r.code.toList i (codeAll slot p ss)) {stop : Nat}
    (hexit : ∀ x ∈ loop, ∃ q, r.positionOf x.2 = some q ∧ stop ≤ q)
    (hstop : i + sizeAll ss ≤ stop) {outer : Option Placed}
    (hbacks : backJumpsAll outer i ss ⊆ backs) : r.JumpsAhead backs i (i + sizeAll ss) := by
  cases ss with
  | nil => exact refl i
  | cons s ss =>
    have hss := hcode.right
    rw [length_code] at hss
    rw [sizeAll, ← Nat.add_assoc] at hstop ⊢
    rw [backJumpsAll_cons] at hbacks
    obtain ⟨hbacks_s, hbacks_ss⟩ := List.append_subset.mp hbacks
    exact (jumpsAhead_code hlabels h.head hcode.left hexit (by omega) hbacks_s).trans
      (jumpsAhead_codeAll hlabels h.tail hss hexit hstop hbacks_ss)

end

end Stmt

namespace Function

/-- The places of the jumps with which the loops of a function go back. -/
def backJumps (f : Function) : List Nat := f.body.backJumps none 0

variable {ctx : Context} {f : Function} {r : Routine}

theorem length_backJumps_link (f : Function) :
    f.link.backJumps.length = f.body.loops.length := by
  rw [backJumps, Stmt.length_backJumps, link, Stmt.loops_link]

/-- A lowered function begins with the code of its body. -/
theorem stands_of_lower (h : f.lower ctx = .ok r) : Stands r.code.toList 0 f.bodyCode := by
  obtain ⟨-, -, -, -, hcode, -⟩ := Builder.finish_eq_ok (finish_of_lower h).2
  rw [hcode]
  exact stands_bodyCode _

/-- The code of a linked function jumps ahead, but for its loops. -/
theorem jumpsAhead_of_lower (hids : f.body.loops.Nodup) (hstray : f.body.strayBreaks false = [])
    (h : f.link.lower ctx = .ok r) (hlabels : r.LabelsPlaced) :
    r.JumpsAhead f.link.backJumps 0 r.code.size := by
  obtain ⟨-, -, -, -, hcode, -⟩ := Builder.finish_eq_ok (finish_of_lower h).2
  have hbody : r.JumpsAhead f.link.backJumps 0 (0 + f.link.body.size) :=
    Stmt.jumpsAhead_code hlabels (enclosed_link hids hstray) (stands_of_lower h) nofun
      (Nat.le_refl _) (List.Subset.refl _)
  have hsize : f.link.bodyCode.length = f.link.body.size := Stmt.length_code _ _ _
  rw [Nat.zero_add, ← hsize] at hbody
  rw [← Array.length_toList]
  rcases f.link.code_finished ctx.options.implicitReturn with hend | hend
  · rwa [hcode, hend]
  · -- After the body stands a return.
    rw [← hcode] at hend
    have hret : r.code.toList[f.link.bodyCode.length]? = some .retVoid := by
      rw [hend, List.getElem?_concat_length]
    rw [hend, List.length_append]
    exact hbody.trans (.straight hret rfl)

end Function

/-! ### Frames go ahead -/

theorem Frame.Follows.pc_lt_or_mem {f g : Frame} {i : Instr} {backs : List Nat}
    (h : f.Follows i g) (hi : f.instr? = some i)
    (hahead : f.routine.JumpsAhead backs 0 f.routine.code.size) : f.pc < g.pc ∨ f.pc ∈ backs := by
  rcases h.pc with hpc | ⟨l, hl, hpc⟩
  · exact Or.inl (hpc ▸ Nat.lt_succ_self f.pc)
  · have hlt : f.pc < f.routine.code.size := (Array.getElem?_eq_some_iff.mp hi).1
    rw [Frame.instr?, ← Array.getElem?_toList] at hi
    rcases hahead f.pc i l (Nat.zero_le _) hlt hi hl with ⟨q, hq, hlt⟩ | ⟨-, hmem⟩
    · cases hpc.symm.trans hq
      exact Or.inl hlt
    · exact Or.inr hmem

namespace Machine

variable {rs : List Routine} {D : Nat} {x : Next} {s t : Nat} {m m' : Machine} {backs : List Nat}

/-- The frame that is on top after `s` steps runs an instruction at one of the places `backs`, some
    time from then on and before the step `t`. -/
def RunsFrom (rs : List Routine) (D : Nat) (x : Next) (backs : List Nat) (s t : Nat) : Prop :=
  ∃ u k, s ≤ u ∧ u < t ∧ SameFrame rs D x s u ∧ go rs D u x = .running k ∧ k.top.pc ∈ backs

namespace SameFrame

/-- A frame gets to higher places until it goes back. -/
theorem pc_lt_or_runsFrom (h : SameFrame rs D x s t) (hlt : s < t) (hrests : Rests rs D x)
    (hm : go rs D s x = .running m) (hm' : go rs D t x = .running m')
    (hahead : m.top.routine.JumpsAhead backs 0 m.top.routine.code.size) :
    m.top.pc < m'.top.pc ∨ RunsFrom rs D x backs s t := by
  -- At first the frame is at the same place, and after that at a higher one.
  let P (u : Nat) (f : Frame) : Prop := SameFrame rs D x s u ∧ f.routine = m.top.routine ∧
    ((m.top.pc ≤ f.pc ∧ (s < u → m.top.pc < f.pc)) ∨ RunsFrom rs D x backs s u)
  have hP : P t m'.top := by
    refine h.invariant (P := P) ?_ hrests hm hm'
      ⟨.refl hm, rfl, Or.inl ⟨Nat.le_refl _, fun hss => absurd hss (Nat.lt_irrefl s)⟩⟩
    rintro u v k k' i hk hk' huv hsame hi hfollows ⟨hsu, hroutine, hpc⟩
    refine ⟨hsu.trans hsame, hfollows.routine.trans hroutine, ?_⟩
    rcases hpc with ⟨hle, -⟩ | ⟨w, n, hsw, hwu, hrest⟩
    · rcases hfollows.pc_lt_or_mem hi (hroutine ▸ hahead) with hpc | hmem
      · exact Or.inl ⟨by omega, fun _ => by omega⟩
      · exact Or.inr ⟨u, k, hsu.1, huv, hsu, hk, hmem⟩
    · exact Or.inr ⟨w, n, hsw, Nat.lt_trans hwu huv, hrest⟩
  exact hP.2.2.imp_left fun hpc => hpc.2 hlt

end SameFrame

/-- The place at which the machine is in a state. -/
def placeAt (rs : List Routine) (D : Nat) (x : Next) (u : Nat) : Nat :=
  match go rs D u x with
  | .running k => k.top.pc
  | .finished _ | .failed _ => 0

theorem placeAt_of_running {u : Nat} {k : Machine} (h : go rs D u x = .running k) :
    placeAt rs D x u = k.top.pc := by
  rw [placeAt, h]

section Ahead

variable (hrests : Rests rs D x) (hm : go rs D s x = .running m)
  (hahead : m.top.routine.JumpsAhead [] 0 m.top.routine.code.size)

include hrests hm hahead

/-- A frame that never goes back is at a higher place after each of its steps. -/
theorem placeAt_lt {u v : Nat} (hu : SameFrame rs D x s u) (hv : SameFrame rs D x s v)
    (huv : u < v) : placeAt rs D x u < placeAt rs D x v := by
  obtain ⟨-, -, k, -, hk, -⟩ := id hu
  obtain ⟨-, -, k', -, hk', -⟩ := id hv
  rw [placeAt_of_running hk, placeAt_of_running hk']
  have hroutine := hu.routine hrests hm hk
  have hsame := hu.between hv (Nat.le_of_lt huv)
  rcases hsame.pc_lt_or_runsFrom huv hrests hk hk' (hroutine ▸ hahead) with hlt | hback
  · exact hlt
  · obtain ⟨w, n, -, -, -, -, hmem⟩ := hback
    cases hmem

/-- So it takes no more steps than it has instructions. -/
theorem card_steps_le {U : Finset Nat} (hU : ∀ u ∈ U, SameFrame rs D x s u) :
    U.card ≤ m.top.routine.code.size := by
  rw [← Finset.card_range m.top.routine.code.size]
  refine Finset.card_le_card_of_injOn (placeAt rs D x) (fun u hu => ?_) fun u hu v hv heq => ?_
  · obtain ⟨-, -, k, -, hk, -⟩ := hU u hu
    obtain ⟨-, i, hi⟩ : Rests rs D (.running k) := hk ▸ go_rests u hrests
    have hlt := (Array.getElem?_eq_some_iff.mp hi).1
    rw [(hU u hu).routine hrests hm hk] at hlt
    rw [placeAt_of_running hk]
    exact Finset.mem_coe.mpr (Finset.mem_range.mpr hlt)
  · rcases Nat.lt_trichotomy u v with huv | huv | huv
    · have hlt := placeAt_lt hrests hm hahead (hU u hu) (hU v hv) huv
      omega
    · exact huv
    · have hlt := placeAt_lt hrests hm hahead (hU v hv) (hU u hu) huv
      omega

end Ahead

end Machine

open Machine

/-- **Only loops jump back.**  Take a function whose loops have different numbers, in which every
    break has a loop around it and which takes no more labels than there are, and let it be lowered
    with its breaks linked.  Each of its loops has one jump, at a place of its own, that leads back
    to the start of the loop.  All other jumps, and all branches, lead to places after their own.
    So in any run a frame of the function that is at the same place twice has run such a jump from
    the first time on and before the second.  If the function has no loops, its frames are at no
    place twice, and take no more steps than there are instructions. -/
theorem only_loops_jump_back {ctx : Context} {f : Function} {r : Routine}
    (hids : f.body.loops.Nodup) (hstray : f.body.strayBreaks false = [])
    (hn : f.body.labelCount ≤ UInt32.size) (h : f.link.lower ctx = .ok r) :
    (f.link.backJumps.Nodup ∧ f.link.backJumps.length = f.body.loops.length) ∧
    (∀ q ∈ f.link.body.placed none 0, ∀ j, q.backJump? = some j →
      ∃ top, r.code[j]? = some (.jump top) ∧ r.positionOf top = some q.place ∧ q.place < j) ∧
    (∀ j op l, r.code[j]? = some op → op.target? = some l →
      (∃ k, r.positionOf l = some k ∧ j < k) ∨ (op = .jump l ∧ j ∈ f.link.backJumps)) ∧
    ∀ rs D entry args s m, go rs D s (start rs D entry args) = .running m → m.top.routine = r →
      (∀ t m', SameFrame rs D (start rs D entry args) s t → s < t →
        go rs D t (start rs D entry args) = .running m' → m'.top.pc = m.top.pc →
          RunsFrom rs D (start rs D entry args) f.link.backJumps s t) ∧
      (f.body.loops = [] →
        (∀ t m', SameFrame rs D (start rs D entry args) s t →
          go rs D t (start rs D entry args) = .running m' → m'.top.pc = m.top.pc → t = s) ∧
        ∀ U : Finset Nat, (∀ u ∈ U, SameFrame rs D (start rs D entry args) s u) →
          U.card ≤ r.code.size) := by
  have hlabels : r.LabelsPlaced := by
    refine Function.labelsPlaced_of_lower h ?_
    rw [Function.link, Stmt.labelCount_link]
    exact hn
  have hahead := Function.jumpsAhead_of_lower hids hstray h hlabels
  have hlength := f.length_backJumps_link
  refine ⟨⟨Stmt.nodup_backJumps _ _ _, hlength⟩, ?_, ?_, ?_⟩
  · intro q hq j hj
    obtain ⟨hlt, top, htop, hjump⟩ := Stmt.jump_of_backJump (Function.stands_of_lower h) hq hj
    rw [Array.getElem?_toList] at hjump
    exact ⟨top, hjump, hlabels _ _ htop, hlt⟩
  · intro j op l hop hl
    have hlt : j < r.code.size := (Array.getElem?_eq_some_iff.mp hop).1
    rw [← Array.getElem?_toList] at hop
    exact hahead j op l (Nat.zero_le j) hlt hop hl
  · rintro rs D entry args s m hm rfl
    have hback : ∀ t m', SameFrame rs D (start rs D entry args) s t → s < t →
        go rs D t (start rs D entry args) = .running m' → m'.top.pc = m.top.pc →
          RunsFrom rs D (start rs D entry args) f.link.backJumps s t := by
      intro t m' hsame hlt hm' hpc
      refine (hsame.pc_lt_or_runsFrom hlt start_rests hm hm' hahead).resolve_left ?_
      rw [hpc]
      exact Nat.lt_irrefl _
    refine ⟨hback, fun hnone => ?_⟩
    rw [hnone] at hlength
    rw [List.eq_nil_of_length_eq_zero hlength] at hahead hback
    refine ⟨fun t m' hsame hm' hpc => ?_, fun U hU => card_steps_le start_rests hm hahead hU⟩
    by_contra hne
    obtain ⟨u, k, -, -, -, -, hmem⟩ := hback t m' hsame (by have := hsame.1; omega) hm' hpc
    cases hmem

/-- As long as nothing waits for the frame on top, it is the first frame of the run. -/
theorem Machine.sameFrame_of_no_callers {rs : List Routine} {D : Nat} {x : Next} {s t : Nat}
    {m m' : Machine} (hle : s ≤ t) (hm : go rs D s x = .running m)
    (hm' : go rs D t x = .running m') (hnone : m.callers = []) (hnone' : m'.callers = []) :
    SameFrame rs D x s t := by
  refine ⟨hle, m, m', hm, hm', by rw [hnone, hnone'], fun u _ hut => ?_⟩
  rw [hnone]
  cases hu : go rs D u x with
  | running k => exact ⟨k, rfl, Nat.zero_le _⟩
  | finished v =>
    rw [← Nat.add_sub_cancel' hut, go_add, hu, go_finished] at hm'
    cases hm'
  | failed e =>
    rw [← Nat.add_sub_cancel' hut, go_add, hu, go_failed] at hm'
    cases hm'

/-- A loop with a break: `while n { n = n - 1; if !n { break; } }`. -/
def Function.drain : Function where
  name := "drain"
  params := ["n"]
  body := .whileLoop ⟨⟨5⟩, .unknown⟩ (.ident .unknown "n") (.block ⟨⟨4⟩, .unknown⟩
    [.eval ⟨⟨1⟩, .unknown⟩ (.assign .unknown "n"
        (.binary .unknown .sub (.ident .unknown "n") (.int .unknown 1))),
      .ifThen ⟨⟨3⟩, .unknown⟩ (.unary .unknown .not (.ident .unknown "n"))
        (.breakLoop ⟨⟨2⟩, .unknown⟩ none)])
  origin := .unknown

def Routine.drain : Routine where
  name := "drain"
  paramCount := 1
  localCount := 1
  regCount := 6
  code := #[.label ⟨0⟩, .load 0 0, .branchFalse 0 ⟨1⟩, .load 1 0, .const 2 (.int 1),
    .binary .sub 3 1 2, .store 3 0, .load 4 0, .unary .not 5 4, .branchFalse 5 ⟨2⟩, .jump ⟨1⟩,
    .label ⟨2⟩, .jump ⟨0⟩, .label ⟨1⟩, .retVoid]
  labels := [(⟨0⟩, 0), (⟨2⟩, 11), (⟨1⟩, 13)]

/-- The same without the loop: `if n { n = n - 1; }`. -/
def Function.lessen : Function where
  name := "lessen"
  params := ["n"]
  body := .ifThen ⟨⟨2⟩, .unknown⟩ (.ident .unknown "n") (.eval ⟨⟨1⟩, .unknown⟩
    (.assign .unknown "n" (.binary .unknown .sub (.ident .unknown "n") (.int .unknown 1))))
  origin := .unknown

def Routine.lessen : Routine where
  name := "lessen"
  paramCount := 1
  localCount := 1
  regCount := 4
  code := #[.load 0 0, .branchFalse 0 ⟨0⟩, .load 1 0, .const 2 (.int 1), .binary .sub 3 1 2,
    .store 3 0, .label ⟨0⟩, .retVoid]
  labels := [(⟨0⟩, 6)]

theorem only_loops_jump_back_drain :
    (Function.drain.link.lower (.empty {}) = .ok .drain ∧ Function.drain.link.backJumps = [12] ∧
      (∃ m, go [.drain] 0 12 (start [.drain] 0 "drain" [.int 2]) = .running m ∧ m.top.pc = 0) ∧
      RunsFrom [.drain] 0 (start [.drain] 0 "drain" [.int 2]) [12] 0 12) ∧
    Function.lessen.link.lower (.empty {}) = .ok .lessen ∧
      ∀ U : Finset Nat,
        (∀ u ∈ U, SameFrame [.lessen] 0 (start [.lessen] 0 "lessen" [.int 2]) 0 u) →
          U.card ≤ 8 := by
  constructor
  · have hlower : Function.drain.link.lower (.empty {}) = .ok .drain := by
      rw [Function.lower_of_violation_none rfl]
      rfl
    obtain ⟨-, -, -, hrun⟩ := only_loops_jump_back (f := .drain) (by decide) rfl (by decide) hlower
    obtain ⟨m, hm, hroutine, hnone, hpc⟩ : ∃ m,
        go [.drain] 0 0 (start [.drain] 0 "drain" [.int 2]) = .running m ∧
          m.top.routine = .drain ∧ m.callers = [] ∧ m.top.pc = 0 := ⟨_, rfl, rfl, rfl, rfl⟩
    obtain ⟨m', hm', hnone', hpc'⟩ : ∃ m,
        go [.drain] 0 12 (start [.drain] 0 "drain" [.int 2]) = .running m ∧
          m.callers = [] ∧ m.top.pc = 0 := ⟨_, rfl, rfl, rfl⟩
    have hsame := sameFrame_of_no_callers (Nat.zero_le 12) hm hm' hnone hnone'
    refine ⟨hlower, rfl, ⟨m', hm', hpc'⟩, ?_⟩
    exact (hrun _ _ _ _ _ m hm hroutine).1 12 m' hsame (by decide) hm' (hpc'.trans hpc.symm)
  · have hlower : Function.lessen.link.lower (.empty {}) = .ok .lessen := by
      rw [Function.lower_of_violation_none rfl]
      rfl
    obtain ⟨-, -, -, hrun⟩ := only_loops_jump_back (f := .lessen) (by decide) rfl (by decide) hlower
    obtain ⟨m, hm, hroutine⟩ : ∃ m,
        go [.lessen] 0 0 (start [.lessen] 0 "lessen" [.int 2]) = .running m ∧
          m.top.routine = .lessen := ⟨_, rfl, rfl⟩
    exact ⟨hlower, ((hrun _ _ _ _ _ m hm hroutine).2 rfl).2⟩

end JumpCode
