import JumpCode.Ast.Analysis

/-!
# Linking touches the links and nothing else

Linking hands the innermost loop down the tree.  Here its result is told without following it: a
statement is found by an address, which says which way to go at each statement above it, and the
innermost loop around an address is the last loop that the address goes through.

What stands at an address after linking is what stood there before, linked to that loop
(`subtree?_link`).  A break outside all loops is stray, and the stray breaks come in the order of
their addresses (`exists_listsStrays`).
-/

namespace JumpCode.Stmt

/-! ### Addresses -/

/-- The statements directly inside a statement, from left to right. -/
def children : Stmt → List Stmt
  | .block _ body => body
  | .eval _ _ | .ret _ _ | .breakLoop _ _ => []
  | .ifThen _ _ t => [t]
  | .ifElse _ _ t e => [t, e]
  | .whileLoop _ _ body => [body]

/-- The statement at an address: at each statement the next number says which child to go to. -/
def subtree? (s : Stmt) : List Nat → Option Stmt
  | [] => some s
  | i :: a => s.children[i]?.bind fun t => t.subtree? a

/-- The statements that an address goes through, the outermost first, without the one at the address
    itself. -/
def above (s : Stmt) : List Nat → List Stmt
  | [] => []
  | i :: a => s :: (s.children[i]?.map fun t => t.above a).getD []

/-- The number of a loop. -/
def loopId? : Stmt → Option StmtId
  | .whileLoop m _ _ => some m.id
  | _ => none

/-- The innermost loop around an address. -/
def innermostLoop? (s : Stmt) (a : List Nat) : Option StmtId :=
  ((s.above a).filterMap loopId?).getLast?

theorem subtree?_cons {s : Stmt} {i : Nat} {a : List Nat} {u : Stmt} :
    s.subtree? (i :: a) = some u ↔ ∃ t, s.children[i]? = some t ∧ t.subtree? a = some u := by
  simp [subtree?, Option.bind_eq_some_iff]

/-- A loop further down is further inside. -/
theorem innermostLoop?_cons {s t : Stmt} {i : Nat} (h : s.children[i]? = some t) (a : List Nat) :
    s.innermostLoop? (i :: a) = (t.innermostLoop? a <|> s.loopId?) := by
  have habove : s.above (i :: a) = s :: t.above a := by simp [above, h]
  unfold innermostLoop?
  rw [habove, List.filterMap_cons]
  cases s.loopId? with
  | none => simp
  | some l => rw [List.getLast?_cons]; cases ((t.above a).filterMap loopId?).getLast? <;> rfl

/-! ### What linking does at an address -/

theorem linkAll_eq_map (loop : Option StmtId) (ss : List Stmt) :
    linkAll loop ss = ss.map (link loop) := by
  induction ss with
  | nil => rfl
  | cons s ss ih => rw [linkAll, ih, List.map_cons]

/-- The statements inside a statement are linked to it, if it is a loop, and else to the loop around
    it. -/
theorem children_link (loop : Option StmtId) (s : Stmt) :
    (s.link loop).children = s.children.map (link (s.loopId? <|> loop)) := by
  cases s with
  | block m body => simp [link, children, linkAll_eq_map, loopId?]
  | eval m e => rfl
  | ret m e => rfl
  | ifThen m c t => simp [link, children, loopId?]
  | ifElse m c t e => simp [link, children, loopId?]
  | whileLoop m c body => simp [link, children, loopId?]
  | breakLoop m old => rfl

theorem subtree?_link (loop : Option StmtId) (s : Stmt) (a : List Nat) :
    (s.link loop).subtree? a = (s.subtree? a).map (link (s.innermostLoop? a <|> loop)) := by
  induction a generalizing s loop with
  | nil => simp [subtree?, innermostLoop?, above]
  | cons i a ih =>
    rw [subtree?, subtree?, children_link, List.getElem?_map]
    cases h : s.children[i]? with
    | none => rfl
    | some t =>
      rw [innermostLoop?_cons h]
      simpa [Option.or_assoc] using ih (s.loopId? <|> loop) t

mutual

/-- The statement with all its breaks unlinked. -/
def unlinked : Stmt → Stmt
  | .block m body => .block m (unlinkedAll body)
  | .eval m e => .eval m e
  | .ret m e => .ret m e
  | .ifThen m c t => .ifThen m c t.unlinked
  | .ifElse m c t e => .ifElse m c t.unlinked e.unlinked
  | .whileLoop m c body => .whileLoop m c body.unlinked
  | .breakLoop m _ => .breakLoop m none

def unlinkedAll : List Stmt → List Stmt
  | [] => []
  | s :: ss => s.unlinked :: unlinkedAll ss

end

mutual

/-- Linking changes the links of breaks and nothing else. -/
theorem unlinked_link (loop : Option StmtId) (s : Stmt) : (s.link loop).unlinked = s.unlinked := by
  cases s with
  | block m body => rw [link, unlinked, unlinked, unlinkedAll_linkAll loop body]
  | eval m e => rfl
  | ret m e => rfl
  | ifThen m c t => rw [link, unlinked, unlinked, unlinked_link loop t]
  | ifElse m c t e => rw [link, unlinked, unlinked, unlinked_link loop t, unlinked_link loop e]
  | whileLoop m c body => rw [link, unlinked, unlinked, unlinked_link (some m.id) body]
  | breakLoop m old => rfl

theorem unlinkedAll_linkAll (loop : Option StmtId) (ss : List Stmt) :
    unlinkedAll (linkAll loop ss) = unlinkedAll ss := by
  cases ss with
  | nil => rfl
  | cons s ss =>
    rw [linkAll, unlinkedAll, unlinkedAll, unlinked_link loop s, unlinkedAll_linkAll loop ss]

end

mutual

/-- Linking a second time changes nothing. -/
theorem link_link (loop : Option StmtId) (s : Stmt) : (s.link loop).link loop = s.link loop := by
  cases s with
  | block m body => rw [link, link, linkAll_linkAll loop body]
  | eval m e => rfl
  | ret m e => rfl
  | ifThen m c t => rw [link, link, link_link loop t]
  | ifElse m c t e => rw [link, link, link_link loop t, link_link loop e]
  | whileLoop m c body => rw [link, link, link_link (some m.id) body]
  | breakLoop m old => cases loop <;> rfl

theorem linkAll_linkAll (loop : Option StmtId) (ss : List Stmt) :
    linkAll loop (linkAll loop ss) = linkAll loop ss := by
  cases ss with
  | nil => rfl
  | cons s ss => rw [linkAll, linkAll, link_link loop s, linkAll_linkAll loop ss]

end

/-! ### Stray breaks -/

mutual

/-- Which breaks are stray does not depend on links. -/
theorem strayBreaks_link (inLoop : Bool) (loop : Option StmtId) (s : Stmt) :
    (s.link loop).strayBreaks inLoop = s.strayBreaks inLoop := by
  cases s with
  | block m body => exact strayBreaksAll_linkAll inLoop loop body
  | eval m e => rfl
  | ret m e => rfl
  | ifThen m c t => exact strayBreaks_link inLoop loop t
  | ifElse m c t e =>
    rw [link, strayBreaks, strayBreaks, strayBreaks_link inLoop loop t,
      strayBreaks_link inLoop loop e]
  | whileLoop m c body => exact strayBreaks_link true (some m.id) body
  | breakLoop m old => rfl

theorem strayBreaksAll_linkAll (inLoop : Bool) (loop : Option StmtId) (ss : List Stmt) :
    strayBreaksAll inLoop (linkAll loop ss) = strayBreaksAll inLoop ss := by
  cases ss with
  | nil => rfl
  | cons s ss =>
    rw [linkAll, strayBreaksAll, strayBreaksAll, strayBreaks_link inLoop loop s,
      strayBreaksAll_linkAll inLoop loop ss]

end

mutual

/-- Inside a loop no break is stray. -/
theorem strayBreaks_true (s : Stmt) : s.strayBreaks true = [] := by
  cases s with
  | block m body => exact strayBreaksAll_true body
  | eval m e => rfl
  | ret m e => rfl
  | ifThen m c t => exact strayBreaks_true t
  | ifElse m c t e => rw [strayBreaks, strayBreaks_true t, strayBreaks_true e]; rfl
  | whileLoop m c body => exact strayBreaks_true body
  | breakLoop m old => rfl

theorem strayBreaksAll_true (ss : List Stmt) : strayBreaksAll true ss = [] := by
  cases ss with
  | nil => rfl
  | cons s ss => rw [strayBreaksAll, strayBreaks_true s, strayBreaksAll_true ss]; rfl

end

/-- At the address there is a break with the given mark, and no loop is around it. -/
def StrayAt (s : Stmt) (a : List Nat) (m : Mark) : Prop :=
  (∃ link, s.subtree? a = some (.breakLoop m link)) ∧ s.innermostLoop? a = none

/-- The list has the stray breaks of a statement and their addresses, in the order of the
    addresses. -/
structure ListsStrays (s : Stmt) (xs : List (List Nat × Mark)) : Prop where
  sorted : xs.Pairwise fun x y => x.1 < y.1
  mem_iff : ∀ a m, (a, m) ∈ xs ↔ s.StrayAt a m
  marks : xs.map Prod.snd = s.strayBreaks false

/-- The same for statements that follow one another, of which the first is the child with the number
    `k`. -/
structure ListsStraysFrom (k : Nat) (ss : List Stmt) (xs : List (List Nat × Mark)) : Prop where
  sorted : xs.Pairwise fun x y => x.1 < y.1
  mem_iff : ∀ a m, (a, m) ∈ xs ↔ ∃ i b s, a = (k + i) :: b ∧ ss[i]? = some s ∧ s.StrayAt b m
  marks : xs.map Prod.snd = strayBreaksAll false ss

theorem strayAt_cons {s t : Stmt} {i : Nat} {a : List Nat} {m : Mark}
    (hi : s.children[i]? = some t) : s.StrayAt (i :: a) m ↔ t.StrayAt a m ∧ s.loopId? = none := by
  unfold StrayAt
  rw [innermostLoop?_cons hi, subtree?, hi]
  cases t.innermostLoop? a <;> simp

/-- A statement that is neither a break nor a loop has the stray breaks of its children. -/
theorem ListsStraysFrom.of_children {s : Stmt} {xs : List (List Nat × Mark)}
    (h : ListsStraysFrom 0 s.children xs) (hloop : s.loopId? = none)
    (hself : ∀ m link, s ≠ .breakLoop m link)
    (hmarks : s.strayBreaks false = strayBreaksAll false s.children) : s.ListsStrays xs where
  sorted := h.sorted
  mem_iff a m := by
    rw [h.mem_iff]
    constructor
    · rintro ⟨i, b, t, rfl, ht, hstray⟩
      rw [Nat.zero_add]
      exact (strayAt_cons ht).mpr ⟨hstray, hloop⟩
    · intro hstray
      cases a with
      | nil =>
        obtain ⟨⟨link, hself'⟩, -⟩ := hstray
        exact absurd (Option.some.inj hself') (hself m link)
      | cons i b =>
        obtain ⟨t, ht, -⟩ := subtree?_cons.mp hstray.1.choose_spec
        exact ⟨i, b, t, by rw [Nat.zero_add], ht, ((strayAt_cons ht).mp hstray).1⟩
  marks := h.marks.trans hmarks.symm

theorem ListsStraysFrom.nil (k : Nat) : ListsStraysFrom k [] [] := ⟨.nil, by simp, rfl⟩

theorem ListsStraysFrom.cons {k : Nat} {s : Stmt} {ss : List Stmt}
    {xs ys : List (List Nat × Mark)} (hs : s.ListsStrays xs) (hss : ListsStraysFrom (k + 1) ss ys) :
    ListsStraysFrom k (s :: ss) (xs.map (fun x => (k :: x.1, x.2)) ++ ys) where
  sorted := by
    refine List.pairwise_append.mpr ⟨?_, hss.sorted, ?_⟩
    · refine List.pairwise_map.mpr (hs.sorted.imp fun hlt => ?_)
      exact List.cons_lt_cons_iff.mpr (Or.inr ⟨rfl, hlt⟩)
    · -- Whatever is inside the first statement comes before whatever is inside the others.
      intro x hx y hy
      obtain ⟨x, -, rfl⟩ := List.mem_map.mp hx
      obtain ⟨i, b, -, hb, -⟩ := (hss.mem_iff y.1 y.2).mp hy
      rw [hb]
      exact List.cons_lt_cons_iff.mpr (Or.inl (by omega))
  mem_iff a m := by
    rw [List.mem_append, hss.mem_iff]
    constructor
    · rintro (hx | ⟨i, b, t, rfl, ht, hstray⟩)
      · obtain ⟨⟨b, m⟩, hb, heq⟩ := List.mem_map.mp hx
        cases heq
        exact ⟨0, b, s, rfl, rfl, (hs.mem_iff b m).mp hb⟩
      · exact ⟨i + 1, b, t, by rw [Nat.add_right_comm, Nat.add_assoc], ht, hstray⟩
    · rintro ⟨i, b, t, rfl, ht, hstray⟩
      cases i with
      | zero =>
        cases ht
        exact Or.inl (List.mem_map.mpr ⟨(b, m), (hs.mem_iff b m).mpr hstray, rfl⟩)
      | succ i => exact Or.inr ⟨i, b, t, by rw [Nat.add_right_comm, Nat.add_assoc], ht, hstray⟩
  marks := by
    rw [List.map_append, hss.marks, List.map_map, strayBreaksAll, ← hs.marks]
    rfl

mutual

theorem exists_listsStrays (s : Stmt) : ∃ xs, s.ListsStrays xs := by
  cases s with
  | block m body =>
    obtain ⟨xs, hxs⟩ := exists_listsStraysFrom 0 body
    exact ⟨xs, hxs.of_children (s := .block m body) rfl nofun rfl⟩
  | eval m e => exact ⟨[], (ListsStraysFrom.nil 0).of_children (s := .eval m e) rfl nofun rfl⟩
  | ret m e => exact ⟨[], (ListsStraysFrom.nil 0).of_children (s := .ret m e) rfl nofun rfl⟩
  | ifThen m c t =>
    obtain ⟨xs, hxs⟩ := exists_listsStrays t
    have hall := ListsStraysFrom.cons hxs (.nil 1)
    refine ⟨_, hall.of_children (s := .ifThen m c t) rfl nofun ?_⟩
    simp [strayBreaks, strayBreaksAll, children]
  | ifElse m c t e =>
    obtain ⟨xs, hxs⟩ := exists_listsStrays t
    obtain ⟨ys, hys⟩ := exists_listsStrays e
    have hall := ListsStraysFrom.cons hxs (.cons hys (.nil 2))
    refine ⟨_, hall.of_children (s := .ifElse m c t e) rfl nofun ?_⟩
    simp [strayBreaks, strayBreaksAll, children]
  | whileLoop m c body =>
    refine ⟨[], .nil, fun a m' => ?_, (strayBreaks_true body).symm⟩
    simp only [List.not_mem_nil, false_iff]
    rintro ⟨⟨link, hbreak⟩, hnone⟩
    cases a with
    | nil => cases hbreak
    | cons i a =>
      obtain ⟨t, ht, -⟩ := subtree?_cons.mp hbreak
      rw [innermostLoop?_cons ht] at hnone
      simp [loopId?] at hnone
  | breakLoop m link =>
    refine ⟨[([], m)], List.pairwise_singleton _ _, fun a m' => ?_, rfl⟩
    cases a with
    | nil => simp [StrayAt, subtree?, innermostLoop?, above, eq_comm]
    | cons i a => simp [StrayAt, subtree?, children]

theorem exists_listsStraysFrom (k : Nat) (ss : List Stmt) : ∃ xs, ListsStraysFrom k ss xs := by
  cases ss with
  | nil => exact ⟨[], .nil k⟩
  | cons s ss =>
    obtain ⟨xs, hxs⟩ := exists_listsStrays s
    obtain ⟨ys, hys⟩ := exists_listsStraysFrom (k + 1) ss
    exact ⟨_, .cons hxs hys⟩

end

/-- **Linking is exact, changes nothing else, and is done once and for all.**  Whatever links a
    statement has, linking it gives every break with a loop around it the number of the innermost
    one, leaves every other break as it was, and changes nothing but links.  It reports one error
    for each break without a loop around it, in the order of the tree, with the location and the
    span of that break.  Doing it again gives the same statement and the same errors. -/
theorem linking_is_exact (s : Stmt) :
    (∀ a m old, s.subtree? a = some (.breakLoop m old) →
      (∀ loop, s.innermostLoop? a = some loop →
        (s.link none).subtree? a = some (.breakLoop m (some loop))) ∧
      (s.innermostLoop? a = none → (s.link none).subtree? a = some (.breakLoop m old))) ∧
    (s.link none).unlinked = s.unlinked ∧
    (∃ xs : List (List Nat × Mark), xs.Pairwise (fun x y => x.1 < y.1) ∧
      (∀ a m, (a, m) ∈ xs ↔
        (∃ old, s.subtree? a = some (.breakLoop m old)) ∧ s.innermostLoop? a = none) ∧
      (s.strayBreaks false).map (fun m => (Finding.strayBreak m.origin).toDiagnostic) =
        xs.map fun x => ⟨.analysis, .error, "'break' used outside of a loop",
          "flatline.analyzers.loops", x.2.origin.location, x.2.origin.span⟩) ∧
    (s.link none).link none = s.link none ∧
    (s.link none).strayBreaks false = s.strayBreaks false := by
  refine ⟨?_, unlinked_link none s, ?_, link_link none s, strayBreaks_link false none s⟩
  · intro a m old hbreak
    have hlink := subtree?_link none s a
    rw [hbreak] at hlink
    constructor
    · intro loop hloop
      rw [hlink, hloop]
      rfl
    · intro hnone
      rw [hlink, hnone]
      rfl
  · obtain ⟨xs, hxs⟩ := exists_listsStrays s
    refine ⟨xs, hxs.sorted, hxs.mem_iff, ?_⟩
    rw [← hxs.marks, List.map_map]
    rfl

/-- A loop in a loop, with a break in each of them, and a break after both.  All three are linked to
    the wrong loop. -/
def misled : Stmt :=
  let o := Origin.unknown
  .block ⟨⟨7⟩, o⟩
    [.whileLoop ⟨⟨5⟩, o⟩ (.bool o true) (.block ⟨⟨4⟩, o⟩
        [.whileLoop ⟨⟨2⟩, o⟩ (.bool o true) (.breakLoop ⟨⟨1⟩, o⟩ (some ⟨5⟩)),
          .breakLoop ⟨⟨3⟩, o⟩ (some ⟨2⟩)]),
      .breakLoop ⟨⟨6⟩, o⟩ (some ⟨2⟩)]

theorem linking_is_exact_misled :
    (misled.link none).subtree? [0, 0, 0, 0] = some (.breakLoop ⟨⟨1⟩, .unknown⟩ (some ⟨2⟩)) ∧
    (misled.link none).subtree? [0, 0, 1] = some (.breakLoop ⟨⟨3⟩, .unknown⟩ (some ⟨5⟩)) ∧
    (misled.link none).subtree? [1] = some (.breakLoop ⟨⟨6⟩, .unknown⟩ (some ⟨2⟩)) := by
  obtain ⟨hlinks, -⟩ := linking_is_exact misled
  refine ⟨?_, ?_, ?_⟩
  · exact (hlinks [0, 0, 0, 0] _ _ rfl).1 _ rfl
  · exact (hlinks [0, 0, 1] _ _ rfl).1 _ rfl
  · exact (hlinks [1] _ _ rfl).2 rfl

end JumpCode.Stmt
