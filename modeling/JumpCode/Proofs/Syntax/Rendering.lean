import JumpCode.Ast.Reader

/-!
# Renderings of programs

What it means that a text is a program, said without reading it.  A tree is *spelled* by sequences
of tokens: `Expr.Spells` puts parentheses around operands that bind too weakly and lets any
expression carry more of them, and `Stmt.Spells` keeps an `else` away from a branch that would take
it for itself.  A sequence of tokens is *laid out* in a text with gaps of blanks and comments between
the tokens.  A text is a *rendering* of a program if a sequence of tokens that spells the program is
laid out in it.

Trees carry origins and numbers that depend on the text.  `Program.bare` takes them off.
-/

namespace JumpCode

/-! ### Tokens -/

/-- The words that are no names. -/
def keywords : List String := ["fn", "if", "else", "while", "return", "break", "true", "false"]

/-- Whether a text can be the name of a function or of a variable. -/
def isName (x : String) : Bool :=
  match x.toList with
  | [] => false
  | c :: cs => (c.isAlpha || c == '_') && cs.all Rule.isWordChar && !keywords.contains x

inductive Token where
  /-- A name, a keyword or a numeral. -/
  | word (text : String)
  /-- An operator or a punctuation mark. -/
  | sign (text : String)
  deriving DecidableEq, Repr

namespace Token

def text : Token → String
  | .word w => w
  | .sign s => s

def isWord : Token → Bool
  | .word _ => true
  | .sign _ => false

def signs : List String :=
  ["(", ")", "\x7b", "\x7d", ",", ";", "=", "==", "!=", "<=", ">=", "<", ">", "+", "-", "*", "/",
   "%", "!"]

/-- Words are made of letters, digits and underscores, and there are 19 signs. -/
def isValid : Token → Bool
  | .word w => !w.toList.isEmpty && w.toList.all Rule.isWordChar
  | .sign s => signs.contains s

end Token

/-! ### Layout -/

/-- The gaps of blanks and comments that may stand before the text `rest`.  A comment ends with its
    line, or with the whole text. -/
inductive Gap (rest : List Char) : List Char → Prop where
  | none : Gap rest []
  | blank {c g} : isGapChar c = true → Gap rest g → Gap rest (c :: g)
  | comment {text g} : '\n' ∉ text → Gap rest g → Gap rest ('/' :: '/' :: (text ++ '\n' :: g))
  | last {text} : '\n' ∉ text → rest = [] → Gap rest ('/' :: '/' :: text)

/-- Whether the gap `g` keeps token `t` apart from the tokens `ts` after it, which begin with the
    text `rest`.  Two words would run together without a gap, and a slash must not be followed by
    another, or the two would begin a comment. -/
def Token.Apart (t : Token) (g : List Char) (ts : List Token) (rest : List Char) : Prop :=
  match t with
  | .word _ => ts.head?.any Token.isWord = true → g ≠ []
  | .sign s => s = "/" → (g ++ rest).head? ≠ some '/'

/-- A text that begins with the first of the given tokens and holds no others, with gaps between
    them and after the last. -/
inductive Layout : List Token → List Char → Prop where
  | nil : Layout [] []
  | cons {t ts g rest} : t.isValid = true → Gap rest g → t.Apart g ts rest → Layout ts rest →
      Layout (t :: ts) (t.text.toList ++ (g ++ rest))

/-! ### Spelling -/

/-- How tightly a binary operator binds.  An assignment has level 0, a prefix operator level 5, and
    what needs no parentheses anywhere has level 6. -/
def BinaryOp.level : BinaryOp → Nat
  | eq | ne => 1
  | lt | le | gt | ge => 2
  | add | sub => 3
  | mul | div | mod => 4

/-- The tokens of several parts with commas between them. -/
def commas (parts : List (List Token)) : List Token := [Token.sign ","].intercalate parts

theorem commas_cons (ts : List Token) (parts : List (List Token)) :
    commas (ts :: parts) = ts ++ parts.flatMap fun us => .sign "," :: us := by
  induction parts generalizing ts with
  | nil => simp [commas, List.intercalate]
  | cons us parts ih =>
    have hcons : commas (ts :: us :: parts) = ts ++ .sign "," :: commas (us :: parts) := by
      simp [commas, List.intercalate]
    rw [hcons, ih, List.flatMap_cons, List.cons_append]

/-- The tokens of an expression where only levels from `k` on may stand without parentheses. -/
inductive Expr.Spells : Nat → Expr → List Token → Prop where
  | int {k o v n} {digits : String} : Text.natural? digits.toList = some n → (n : Int) = v.toInt →
      Spells k (.int o v) [.word digits]
  | bool {k o b} : Spells k (.bool o b) [.word (if b then "true" else "false")]
  | ident {k o x} : isName x = true → Spells k (.ident o x) [.word x]
  | unary {k o op e ts} : k ≤ 5 → Spells 5 e ts → Spells k (.unary o op e) (.sign op.symbol :: ts)
  | binary {k o op l r ts us} : k ≤ op.level → Spells op.level l ts → Spells (op.level + 1) r us →
      Spells k (.binary o op l r) (ts ++ .sign op.symbol :: us)
  | assign {o x e ts} : isName x = true → Spells 0 e ts →
      Spells 0 (.assign o x e) (.word x :: .sign "=" :: ts)
  | call {k o f} (args : List (Expr × List Token)) : isName f = true →
      (∀ a ∈ args, Spells 0 a.1 a.2) →
      Spells k (.call o f (args.map Prod.fst))
        (.word f :: .sign "(" :: (commas (args.map Prod.snd) ++ [.sign ")"]))
  | paren {k e ts} : Spells 0 e ts → Spells k e (.sign "(" :: (ts ++ [.sign ")"]))

/-- Whether a statement ends in a conditional that could take an `else` after it. -/
def Stmt.endsOpen : Stmt → Bool
  | .ifThen _ _ _ => true
  | .ifElse _ _ _ e => e.endsOpen
  | .whileLoop _ _ body => body.endsOpen
  | _ => false

/-- The tokens of a statement. -/
inductive Stmt.Spells : Stmt → List Token → Prop where
  | block {m} (body : List (Stmt × List Token)) : (∀ s ∈ body, Spells s.1 s.2) →
      Spells (.block m (body.map Prod.fst))
        (.sign "\x7b" :: ((body.map Prod.snd).flatten ++ [.sign "\x7d"]))
  | eval {m e ts} : e.Spells 0 ts → Spells (.eval m e) (ts ++ [.sign ";"])
  | ret {m} : Spells (.ret m none) [.word "return", .sign ";"]
  | retValue {m e ts} : e.Spells 0 ts →
      Spells (.ret m (some e)) (.word "return" :: (ts ++ [.sign ";"]))
  | ifThen {m c t cs ts} : c.Spells 0 cs → Spells t ts →
      Spells (.ifThen m c t) (.word "if" :: .sign "(" :: (cs ++ .sign ")" :: ts))
  | ifElse {m c t e cs ts es} : c.Spells 0 cs → Spells t ts → t.endsOpen = false → Spells e es →
      Spells (.ifElse m c t e)
        (.word "if" :: .sign "(" :: (cs ++ .sign ")" :: (ts ++ .word "else" :: es)))
  | whileLoop {m c body cs ts} : c.Spells 0 cs → Spells body ts →
      Spells (.whileLoop m c body) (.word "while" :: .sign "(" :: (cs ++ .sign ")" :: ts))
  | breakLoop {m} : Spells (.breakLoop m none) [.word "break", .sign ";"]

/-- The tokens of a function.  Its body is a block. -/
inductive Function.Spells : Function → List Token → Prop where
  | intro {name params m body o ts} : isName name = true → (∀ x ∈ params, isName x = true) →
      (Stmt.block m body).Spells ts →
      Spells ⟨name, params, .block m body, o⟩
        (.word "fn" :: .word name :: .sign "(" ::
          (commas (params.map fun x => [.word x]) ++ .sign ")" :: ts))

/-- The tokens of a program, which has at least one function. -/
inductive Program.Spells : Program → List Token → Prop where
  | intro (functions : List (Function × List Token)) : functions ≠ [] →
      (∀ f ∈ functions, f.1.Spells f.2) →
      Spells ⟨functions.map Prod.fst⟩ (functions.map Prod.snd).flatten

/-- A text in which the tokens of the program are laid out. -/
def Program.Renders (p : Program) (text : String) : Prop :=
  ∃ ts g rest, p.Spells ts ∧ Layout ts rest ∧ Gap rest g ∧ text.toList = g ++ rest

/-! ### Trees without origins and numbers -/

mutual

def Expr.bare : Expr → Expr
  | .int _ v => .int .unknown v
  | .bool _ b => .bool .unknown b
  | .ident _ x => .ident .unknown x
  | .unary _ op e => .unary .unknown op e.bare
  | .binary _ op l r => .binary .unknown op l.bare r.bare
  | .assign _ x e => .assign .unknown x e.bare
  | .call _ f args => .call .unknown f (Expr.bareAll args)

def Expr.bareAll : List Expr → List Expr
  | [] => []
  | e :: es => e.bare :: Expr.bareAll es

end

/-- The mark of a statement that was never read. -/
def Mark.unknown : Mark := ⟨⟨0⟩, .unknown⟩

mutual

def Stmt.bare : Stmt → Stmt
  | .block _ body => .block .unknown (Stmt.bareAll body)
  | .eval _ e => .eval .unknown e.bare
  | .ret _ value => .ret .unknown (value.map Expr.bare)
  | .ifThen _ c t => .ifThen .unknown c.bare t.bare
  | .ifElse _ c t e => .ifElse .unknown c.bare t.bare e.bare
  | .whileLoop _ c body => .whileLoop .unknown c.bare body.bare
  | .breakLoop _ loop => .breakLoop .unknown loop

def Stmt.bareAll : List Stmt → List Stmt
  | [] => []
  | s :: ss => s.bare :: Stmt.bareAll ss

end

def Function.bare (f : Function) : Function := ⟨f.name, f.params, f.body.bare, .unknown⟩

/-- The program without what depends on the text it was read from. -/
def Program.bare (p : Program) : Program := ⟨p.functions.map Function.bare⟩

theorem Expr.bareAll_eq_map (es : List Expr) : Expr.bareAll es = es.map Expr.bare := by
  induction es with
  | nil => rfl
  | cons e es ih => rw [Expr.bareAll, ih, List.map_cons]

theorem Stmt.bareAll_eq_map (ss : List Stmt) : Stmt.bareAll ss = ss.map Stmt.bare := by
  induction ss with
  | nil => rfl
  | cons s ss ih => rw [Stmt.bareAll, ih, List.map_cons]

/-! ### Origins and numbers are not spelled -/

/-- Trees with the same bare trees as others, one by one, take over the tokens of the others. -/
theorem exists_parts_of_bare {α : Type} {bare : α → α} {P : α → List Token → Prop} {xs : List α}
    {parts : List (α × List Token)} (h : xs.map bare = (parts.map Prod.fst).map bare)
    (hparts : ∀ p ∈ parts, ∀ x, bare x = bare p.1 → P x p.2) :
    ∃ parts' : List (α × List Token), parts'.map Prod.fst = xs ∧
      parts'.map Prod.snd = parts.map Prod.snd ∧ ∀ p ∈ parts', P p.1 p.2 := by
  induction xs generalizing parts with
  | nil =>
    cases parts with
    | nil => exact ⟨[], rfl, rfl, List.forall_mem_nil _⟩
    | cons p parts => cases h
  | cons x xs ih =>
    cases parts with
    | nil => cases h
    | cons p parts =>
      obtain ⟨hx, hxs⟩ := List.cons.inj h
      obtain ⟨hp, hparts⟩ := List.forall_mem_cons.mp hparts
      obtain ⟨parts', rfl, htokens, hparts'⟩ := ih hxs hparts
      refine ⟨(x, p.2) :: parts', rfl, ?_, List.forall_mem_cons.mpr ⟨hp x hx, hparts'⟩⟩
      rw [List.map_cons, List.map_cons, htokens]

theorem Expr.Spells.of_bare {k : Nat} {e e' : Expr} {ts : List Token} (h : e.Spells k ts)
    (hbare : e'.bare = e.bare) : e'.Spells k ts := by
  induction h generalizing e' with
  | int hdigits hv =>
    cases e' <;> simp only [Expr.bare, reduceCtorEq, Expr.int.injEq] at hbare
    obtain ⟨-, rfl⟩ := hbare
    exact .int hdigits hv
  | bool =>
    cases e' <;> simp only [Expr.bare, reduceCtorEq, Expr.bool.injEq] at hbare
    obtain ⟨-, rfl⟩ := hbare
    exact .bool
  | ident hname =>
    cases e' <;> simp only [Expr.bare, reduceCtorEq, Expr.ident.injEq] at hbare
    obtain ⟨-, rfl⟩ := hbare
    exact .ident hname
  | unary hk _ ih =>
    cases e' <;> simp only [Expr.bare, reduceCtorEq, Expr.unary.injEq] at hbare
    obtain ⟨-, rfl, he⟩ := hbare
    exact .unary hk (ih he)
  | binary hk _ _ ihl ihr =>
    cases e' <;> simp only [Expr.bare, reduceCtorEq, Expr.binary.injEq] at hbare
    obtain ⟨-, rfl, hl, hr⟩ := hbare
    exact .binary hk (ihl hl) (ihr hr)
  | assign hname _ ih =>
    cases e' <;> simp only [Expr.bare, reduceCtorEq, Expr.assign.injEq] at hbare
    obtain ⟨-, rfl, he⟩ := hbare
    exact .assign hname (ih he)
  | call args hname _ ih =>
    cases e' <;> simp only [Expr.bare, reduceCtorEq, Expr.call.injEq, Expr.bareAll_eq_map] at hbare
    obtain ⟨-, rfl, hargs⟩ := hbare
    obtain ⟨args', rfl, htokens, hargs'⟩ :=
      exists_parts_of_bare (P := Expr.Spells 0) hargs fun a ha e' he => ih a ha he
    rw [← htokens]
    exact .call args' hname hargs'
  | paren _ ih => exact .paren (ih hbare)

theorem Stmt.endsOpen_bare (s : Stmt) : s.bare.endsOpen = s.endsOpen := by
  fun_induction Stmt.endsOpen s with
  | case1 => rfl
  | case2 _ _ _ f ih => rwa [Stmt.bare, Stmt.endsOpen]
  | case3 _ _ body ih => rwa [Stmt.bare, Stmt.endsOpen]
  | case4 s hthen helse hloop =>
    cases s with
    | ifThen m e t => exact absurd rfl (hthen m e t)
    | ifElse m e t f => exact absurd rfl (helse m e t f)
    | whileLoop m e body => exact absurd rfl (hloop m e body)
    | _ => rfl

theorem Stmt.Spells.of_bare {s s' : Stmt} {ts : List Token} (h : s.Spells ts)
    (hbare : s'.bare = s.bare) : s'.Spells ts := by
  induction h generalizing s' with
  | block body _ ih =>
    cases s' <;> simp only [Stmt.bare, reduceCtorEq, Stmt.block.injEq, Stmt.bareAll_eq_map] at hbare
    obtain ⟨body', rfl, htokens, hbody'⟩ :=
      exists_parts_of_bare (P := Stmt.Spells) hbare.2 fun p hp s' hs => ih p hp hs
    rw [← htokens]
    exact .block body' hbody'
  | eval he =>
    cases s' <;> simp only [Stmt.bare, reduceCtorEq, Stmt.eval.injEq] at hbare
    exact .eval (he.of_bare hbare.2)
  | ret =>
    cases s' <;> simp only [Stmt.bare, reduceCtorEq, Stmt.ret.injEq, Option.map_eq_none_iff,
      Option.map_none] at hbare
    obtain ⟨-, rfl⟩ := hbare
    exact .ret
  | retValue he =>
    cases s' <;> simp only [Stmt.bare, reduceCtorEq, Stmt.ret.injEq, Option.map_eq_some_iff,
      Option.map_some] at hbare
    obtain ⟨-, e', rfl, he'⟩ := hbare
    exact .retValue (he.of_bare he')
  | ifThen he _ ih =>
    cases s' <;> simp only [Stmt.bare, reduceCtorEq, Stmt.ifThen.injEq] at hbare
    obtain ⟨-, he', ht⟩ := hbare
    exact .ifThen (he.of_bare he') (ih ht)
  | ifElse he _ hopen _ iht ihf =>
    cases s' <;> simp only [Stmt.bare, reduceCtorEq, Stmt.ifElse.injEq] at hbare
    obtain ⟨-, he', ht, hf⟩ := hbare
    refine .ifElse (he.of_bare he') (iht ht) ?_ (ihf hf)
    rw [← Stmt.endsOpen_bare, ht, Stmt.endsOpen_bare, hopen]
  | whileLoop he _ ih =>
    cases s' <;> simp only [Stmt.bare, reduceCtorEq, Stmt.whileLoop.injEq] at hbare
    obtain ⟨-, he', hbody⟩ := hbare
    exact .whileLoop (he.of_bare he') (ih hbody)
  | breakLoop =>
    cases s' <;> simp only [Stmt.bare, reduceCtorEq, Stmt.breakLoop.injEq] at hbare
    obtain ⟨-, rfl⟩ := hbare
    exact .breakLoop

theorem Function.Spells.of_bare {f f' : Function} {ts : List Token} (h : f.Spells ts)
    (hbare : f'.bare = f.bare) : f'.Spells ts := by
  obtain ⟨name', params', body', o'⟩ := f'
  cases h with
  | intro hname hparams hbody =>
    simp only [Function.bare, Function.mk.injEq] at hbare
    obtain ⟨rfl, rfl, hbody', -⟩ := hbare
    have hspells := hbody.of_bare hbody'
    cases body' <;> simp only [Stmt.bare, reduceCtorEq] at hbody'
    exact .intro hname hparams hspells

theorem Program.Renders.of_bare {p p' : Program} {text : String} (h : p.Renders text)
    (hbare : p'.bare = p.bare) : p'.Renders text := by
  obtain ⟨ts, g, rest, hspells, hlayout, hg, htext⟩ := h
  refine ⟨ts, g, rest, ?_, hlayout, hg, htext⟩
  obtain ⟨fs⟩ := p'
  cases hspells with
  | intro functions hne hspells =>
    obtain ⟨functions', rfl, htokens, hspells'⟩ := exists_parts_of_bare (P := Function.Spells)
      (Program.mk.inj hbare) fun f hf f' hf' => (hspells f hf).of_bare hf'
    rw [← htokens]
    refine .intro functions' ?_ hspells'
    rintro rfl
    exact hne (List.map_eq_nil_iff.mp htokens.symm)

end JumpCode
