import JumpCode.Proofs.Lowering.Lockstep
import JumpCode.Proofs.Lowering.Places

/-!
# Code does not depend on names

The code of a function holds slots, registers and labels, and no trace of what its variables were
called or how its statements were numbered.  A renaming that keeps different names and different
numbers different leaves the routine as it is, and a failure tells of the new names where it told of
the old ones.

Parameters are bound before the body is walked through, so the two walks begin with names that differ
by the renaming and with equal counters.  Going on in step from there (`Stmt.lower_abreast`), they come
to builders that differ in their names alone.
-/

namespace JumpCode

/-- The function with its parameters and variables renamed and its statements renumbered.  It keeps
    its own name, by which others call it. -/
def Function.rename (ρ : Renaming) (f : Function) : Function :=
  { f with params := f.params.map ρ.name, body := f.body.rename ρ }

/-! ### Failures -/

namespace LowerError

/-- A failure about the places of labels tells of no name. -/
theorem rename_of_isAboutPlaces (ρ : Renaming) {e : LowerError}
    (h : e.kind.isAboutPlaces = true) : e.rename ρ = e := by
  obtain ⟨kind, function, origin⟩ := e
  cases kind with
  | duplicateLabel l first second => rfl
  | danglingJump l place => rfl
  | _ => cases h

end LowerError

/-! ### Builders -/

/-- Instructions that differ neither in their registers nor in their labels are equal. -/
theorem Instr.Alike.eq {R : Reg → Reg → Prop} {L : Label → Label → Prop} {i i' : Instr}
    (h : Alike R L i i') (hR : ∀ r r', R r r' → r = r') (hL : ∀ l l', L l l' → l = l') : i = i' := by
  cases h with
  | const v hd => rw [hR _ _ hd]
  | load i hd => rw [hR _ _ hd]
  | store i hs => rw [hR _ _ hs]
  | binary op hd hl hr => rw [hR _ _ hd, hR _ _ hl, hR _ _ hr]
  | unary op hd hs => rw [hR _ _ hd, hR _ _ hs]
  | label hl => rw [hL _ _ hl]
  | jump hl => rw [hL _ _ hl]
  | branchFalse hc hl => rw [hR _ _ hc, hL _ _ hl]
  | call f hd hargs =>
    have hsame : List.Forall₂ (· = ·) _ _ := hargs.imp hR
    rw [List.forall₂_eq_eq_eq] at hsame
    rw [hR _ _ hd, hsame]
  | ret hs => rw [hR _ _ hs]
  | retVoid => rfl

namespace Builder

/-- The builder with its names changed. -/
def rename (ρ : Renaming) (b : Builder) : Builder := { b with names := b.names.map ρ.name }

theorem withParams_map (ρ : Renaming) (params : List String) :
    withParams (params.map ρ.name) = (withParams params).rename ρ := by
  have hnames : addNames [] (params.map ρ.name) = (addNames [] params).map ρ.name :=
    (ρ.map_addNames [] params).symm
  rw [withParams_eq, withParams_eq, hnames, List.length_map]
  rfl

/-- Two walks that began with equal counters and equal code have equal ones all along. -/
theorem Apart.eq_rename {ρ : Renaming} {o b b' : Builder} {k : Nat}
    (h : Apart ρ o (o.rename ρ) k b b') : b' = b.rename ρ := by
  obtain ⟨reg, label, paramCount, names, code⟩ := b
  obtain ⟨reg', label', paramCount', names', code'⟩ := b'
  obtain ⟨ops, ops', hops, hops', halike⟩ := h.code
  obtain ⟨i, hreg, hreg'⟩ := h.reg
  have hcode : code' = code := by
    have hsame : List.Forall₂ (· = ·) ops ops' := by
      refine halike.imp fun i i' hi => hi.eq ?_ ?_
      · rintro r r' ⟨j, rfl, rfl⟩
        rfl
      · rintro l l' ⟨j, -, rfl, rfl⟩
        rfl
    rw [List.forall₂_eq_eq_eq] at hsame
    subst hsame
    apply Array.toList_inj.mp
    exact hops'.trans hops.symm
  have hregs : reg' = reg := hreg'.trans hreg.symm
  have hlabels : label' = label := h.label'.trans h.label.symm
  have hparams : paramCount' = paramCount := h.params'.trans h.params.symm
  have hnames : names' = names.map ρ.name := h.names
  rw [hregs, hlabels, hparams, hnames, hcode]
  rfl

theorem close_rename (ρ : Renaming) (b : Builder) : (b.rename ρ).close = b.close.rename ρ := by
  unfold close
  by_cases h : b.code.back?.any Instr.isReturn = true
  · rw [if_pos h]
    exact if_pos h
  · rw [if_neg h]
    exact if_neg h

theorem finish_rename (ρ : Renaming) (b : Builder) (name : String) (verify : Bool) :
    (b.rename ρ).finish name verify = b.finish name verify := by
  have hcount : (b.rename ρ).slotCount = b.slotCount := List.length_map _
  unfold finish
  rw [hcount]
  rfl

/-- Finishing fails, if it does, with something that tells of no name. -/
theorem mapError_finish (ρ : Renaming) (b : Builder) (name : String) (verify : Bool) :
    (b.finish name verify).mapError (LowerError.rename ρ) = b.finish name verify := by
  cases h : b.finish name verify with
  | ok r => rfl
  | error e =>
    have he : e.rename ρ = e := e.rename_of_isAboutPlaces ρ (kind_of_finish h)
    rw [Except.mapError, he]

end Builder

/-! ### Functions -/

/-- **Code does not depend on names.**  Lowering a renamed function gives the very routine that
    lowering the function gives, or its failure renamed. -/
theorem code_does_not_depend_on_names (ρ : Renaming) (ctx : Context) (f : Function) :
    (f.rename ρ).lower ctx = (f.lower ctx).mapError (LowerError.rename ρ) := by
  have hstart : Walk.Apart ρ (.withParams f.params) ((Builder.withParams f.params).rename ρ) 0
      (.start (.withParams f.params)) (.start ((Builder.withParams f.params).rename ρ)) :=
    ⟨.start rfl, .nil⟩
  have hstep := f.body.lower_abreast ρ _ _ ctx f.body.labelCount 0 _ _ hstart
    (Nat.le_of_eq (Nat.zero_add _))
  have hparams := Builder.withParams_map ρ f.params
  unfold Function.lower Function.walk Function.rename EStateM.run
  rcases hstep.cases with ⟨_, w, _, w', hrun, hrun', hapart⟩ | ⟨e, w, e', w', hrun, hrun', he, -⟩
  · have hbuilder : w'.builder = w.builder.rename ρ := hapart.builder.eq_rename
    rw [hparams, hrun, hrun']
    simp only [hbuilder]
    split
    · rw [Builder.close_rename, Builder.finish_rename, Builder.mapError_finish]
    · rw [Builder.finish_rename, Builder.mapError_finish]
  · rw [hparams, hrun, hrun', he]
    rfl

/-- Every name gets a letter more at its front and every statement the next number but one. -/
def Renaming.lengthened : Renaming where
  name x := "v" ++ x
  id i := ⟨i.number + 2⟩
  name_injective := by
    intro x y h
    simpa using h
  id_injective := by
    rintro ⟨i⟩ ⟨j⟩ h
    simpa using h

/-- A function that leaves a loop and then reads a name that nothing was assigned to. -/
def strayRead : Function where
  name := "f"
  params := ["a", "b"]
  body := .block ⟨⟨4⟩, .unknown⟩
    [.whileLoop ⟨⟨2⟩, .unknown⟩ (.ident .unknown "a") (.breakLoop ⟨⟨1⟩, .unknown⟩ (some ⟨2⟩)),
      .eval ⟨⟨3⟩, .unknown⟩ (.assign .unknown "c" (.ident .unknown "d"))]
  origin := .unknown

theorem code_does_not_depend_on_names_strayRead :
    strayRead.lower (.empty {}) = .error ⟨.unknownIdentifier "d", some "f", .unknown⟩ ∧
    (strayRead.rename .lengthened).lower (.empty {}) =
      .error ⟨.unknownIdentifier "vd", some "f", .unknown⟩ := by
  have hlower : strayRead.lower (.empty {}) =
      .error ⟨.unknownIdentifier "d", some "f", .unknown⟩ := by rfl
  refine ⟨hlower, ?_⟩
  rw [code_does_not_depend_on_names, hlower]
  rfl

end JumpCode
