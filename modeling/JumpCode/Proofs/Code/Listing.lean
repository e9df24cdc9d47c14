import JumpCode.Lowering.Program
import JumpCode.Grammar
import JumpCode.Proofs.Lowering.Places
import JumpCode.Proofs.Text.Numerals

/-!
# The listing of code loses nothing

Numbers and names in a listing run on as long as there are digits or letters, and the code of a
routine as long as there are numbered lines.  What keeps the parts apart is what comes after each of
them.  So the statements here are about a part and the text after it: if two parts with two texts
after them read the same, the parts are equal and so are the texts.  They hold as long as the text
after a part does not begin with a character that would go on with it (`Stops`).

A line is a list of parts, and two lines with parts of the same kinds are equal part by part
(`lineText_append_inj`).  An instruction begins with a keyword, which tells its form and so the kinds
of its parts.  Listings give no places of labels, but these are known from the code
(`resolveLabels_unique`).
-/

namespace JumpCode

/-! ### Operands -/

/-- Only letters, digits and underscores, as in the names of a script. -/
def IsWord (x : String) : Prop := x.toList.all Rule.isWordChar = true

instance (x : String) : Decidable (IsWord x) := inferInstanceAs (Decidable (_ = _))

theorem IsWord.append_inj {x y : String} {s t : List Char} (hx : IsWord x) (hy : IsWord y)
    (hs : Stops Rule.isWordChar s) (ht : Stops Rule.isWordChar t)
    (h : x.toList ++ s = y.toList ++ t) : x = y ∧ s = t := by
  obtain ⟨hword, hrest⟩ := run_append_inj hx hy hs ht h
  exact ⟨String.toList_inj.mp hword, hrest⟩

theorem Value.text_append_inj {v w : Value} {s t : List Char} (hs : Stops Char.isDigit s)
    (ht : Stops Char.isDigit t) (h : v.text.toList ++ s = w.text.toList ++ t) : v = w ∧ s = t := by
  cases v with
  | int m =>
    cases w with
    | int n =>
      obtain ⟨hvalue, hrest⟩ := signedDecimal_append_inj hs ht h
      exact ⟨congrArg Value.int (Int64.toInt_inj.mp hvalue), hrest⟩
    | bool b => exact absurd h (signedDecimal_append_ne_boolText _ b s t)
  | bool b =>
    cases w with
    | int n => exact absurd h.symm (signedDecimal_append_ne_boolText _ b t s)
    | bool b' =>
      obtain ⟨rfl, hrest⟩ := boolText_append_inj h
      exact ⟨rfl, hrest⟩

/-- Labels are told apart by their numbers. -/
theorem Label.number_append_inj {l k : Label} {s t : List Char} (hs : Stops Char.isDigit s)
    (ht : Stops Char.isDigit t)
    (h : l.number.toNat.repr.toList ++ s = k.number.toNat.repr.toList ++ t) : l = k ∧ s = t := by
  obtain ⟨hnumber, hrest⟩ := repr_append_inj hs ht h
  exact ⟨congrArg Label.mk (UInt32.toNat_inj.mp hnumber), hrest⟩

/-- The registers of a call, with commas between. -/
def regsText (args : List Reg) : String := String.intercalate ", " (args.map fun r => s!"r{r}")

theorem toList_regsText_singleton (r : Reg) : (regsText [r]).toList = 'r' :: r.repr.toList := by
  simp [regsText, toString]

theorem toList_regsText_cons_cons (r r' : Reg) (rs : List Reg) :
    (regsText (r :: r' :: rs)).toList =
      'r' :: (r.repr.toList ++ ',' :: ' ' :: (regsText (r' :: rs)).toList) := by
  simp [regsText, toString]

/-- What comes after the first register of a call. -/
theorem exists_regsText_cons_append (r : Reg) (rs : List Reg) (s : List Char) :
    ∃ u, (regsText (r :: rs)).toList ++ ')' :: s = 'r' :: (r.repr.toList ++ u) ∧
      Stops Char.isDigit u ∧
      u = if rs.isEmpty then ')' :: s else ',' :: ' ' :: ((regsText rs).toList ++ ')' :: s) := by
  cases rs with
  | nil => exact ⟨_, by simp [toList_regsText_singleton], .cons rfl _, rfl⟩
  | cons r' rs => exact ⟨_, by simp [toList_regsText_cons_cons], .cons rfl _, rfl⟩

/-- The registers of a call end where the parenthesis is closed. -/
theorem regsText_append_inj {args args' : List Reg} {s t : List Char}
    (h : (regsText args).toList ++ ')' :: s = (regsText args').toList ++ ')' :: t) :
    args = args' ∧ s = t := by
  induction args generalizing args' with
  | nil =>
    cases args' with
    | nil => exact ⟨rfl, (List.cons.inj (List.append_cancel_left h)).2⟩
    | cons r' rs' =>
      obtain ⟨u, hu, -, -⟩ := exists_regsText_cons_append r' rs' t
      rw [hu] at h
      simp [regsText] at h
  | cons r rs ih =>
    obtain ⟨u, hu, hstop, hnext⟩ := exists_regsText_cons_append r rs s
    rw [hu] at h
    cases args' with
    | nil => simp [regsText] at h
    | cons r' rs' =>
      obtain ⟨u', hu', hstop', hnext'⟩ := exists_regsText_cons_append r' rs' t
      rw [hu'] at h
      obtain ⟨rfl, rfl⟩ := repr_append_inj hstop hstop' (List.cons.inj h).2
      -- a parenthesis and a comma tell the last register from the others
      rw [hnext] at hnext'
      cases rs with
      | nil =>
        cases rs' with
        | nil => exact ⟨rfl, (List.cons.inj hnext').2⟩
        | cons => simp at hnext'
      | cons =>
        cases rs' with
        | nil => simp at hnext'
        | cons =>
          have htails := (List.cons.inj (List.cons.inj hnext').2).2
          obtain ⟨hrs, hrest⟩ := ih htails
          exact ⟨congrArg (r :: ·) hrs, hrest⟩

/-! ### Lines -/

/-- What a line of a listing is made of. -/
inductive Part where
  | sign (text : String)
  | number (n : Nat)
  | value (v : Value)
  | label (l : Label)
  | name (x : String)
  | regs (args : List Reg)

namespace Part

def text : Part → String
  | sign text => text
  | number n => n.repr
  | value v => v.text
  | label l => l.number.toNat.repr
  | name x => x
  | regs args => regsText args

/-- The names in it are words. -/
def IsPlain : Part → Prop
  | name x => IsWord x
  | _ => True

/-- A part up to what may differ in two lines of one form. -/
inductive Kind where
  | sign (text : String)
  | number | value | label | name | regs

def kind : Part → Kind
  | sign text => .sign text
  | number _ => .number
  | value _ => .value
  | label _ => .label
  | name _ => .name
  | regs _ => .regs

namespace Kind

/-- Whether a part of the kind ends before the character. -/
def endsBefore : Kind → Char → Bool
  | sign _, _ => true
  | number, c | value, c | label, c => !c.isDigit
  | name, c => !Rule.isWordChar c
  | regs, c => c == ')'

/-- The text shows where a part of the kind before it ends. -/
def EndsAt : Kind → List Char → Prop
  | sign _, _ => True
  | k, s => s.head?.any k.endsBefore = true

/-- Whether every part but a sign is followed by a sign that shows its end. -/
def areDelimited : List Kind → Bool
  | [] => true
  | sign _ :: ks => areDelimited ks
  | k :: sign text :: ks => text.toList.head?.any k.endsBefore && areDelimited (sign text :: ks)
  | _ => false

theorem exists_eq_cons_of_endsAt_regs {s : List Char} (h : EndsAt regs s) :
    ∃ s', s = ')' :: s' := by
  cases s with
  | nil => cases h
  | cons c s =>
    have hc : c = ')' := by simpa [EndsAt, endsBefore] using h
    exact ⟨s, congrArg (· :: s) hc⟩

end Kind

theorem text_append_inj {p q : Part} {s t : List Char} (hkind : p.kind = q.kind)
    (hp : p.IsPlain) (hq : q.IsPlain) (hs : p.kind.EndsAt s) (ht : p.kind.EndsAt t)
    (h : p.text.toList ++ s = q.text.toList ++ t) : p = q ∧ s = t := by
  cases p with
  | sign w =>
    cases q with
    | sign w' =>
      cases hkind
      exact ⟨rfl, List.append_cancel_left h⟩
    | _ => cases hkind
  | number n =>
    cases q with
    | number m =>
      obtain ⟨rfl, hrest⟩ := repr_append_inj (.of_any hs) (.of_any ht) h
      exact ⟨rfl, hrest⟩
    | _ => cases hkind
  | value v =>
    cases q with
    | value w =>
      obtain ⟨rfl, hrest⟩ := Value.text_append_inj (.of_any hs) (.of_any ht) h
      exact ⟨rfl, hrest⟩
    | _ => cases hkind
  | label l =>
    cases q with
    | label k =>
      obtain ⟨rfl, hrest⟩ := Label.number_append_inj (.of_any hs) (.of_any ht) h
      exact ⟨rfl, hrest⟩
    | _ => cases hkind
  | name x =>
    cases q with
    | name y =>
      obtain ⟨rfl, hrest⟩ := IsWord.append_inj hp hq (.of_any hs) (.of_any ht) h
      exact ⟨rfl, hrest⟩
    | _ => cases hkind
  | regs args =>
    cases q with
    | regs args' =>
      obtain ⟨s, rfl⟩ := Kind.exists_eq_cons_of_endsAt_regs hs
      obtain ⟨t, rfl⟩ := Kind.exists_eq_cons_of_endsAt_regs ht
      obtain ⟨rfl, rfl⟩ := regsText_append_inj h
      exact ⟨rfl, rfl⟩
    | _ => cases hkind

end Part

/-- A line, from its parts. -/
def lineText : List Part → String
  | [] => ""
  | p :: ps => p.text ++ lineText ps

open Part.Kind in
theorem endsAt_of_areDelimited {k : Part.Kind} {ps : List Part} (s : List Char)
    (h : areDelimited (k :: ps.map Part.kind) = true) :
    k.EndsAt ((lineText ps).toList ++ s) ∧ areDelimited (ps.map Part.kind) = true := by
  cases k with
  | sign w => exact ⟨trivial, h⟩
  | _ =>
    cases ps with
    | nil => cases h
    | cons p ps =>
      cases p with
      | sign w =>
        obtain ⟨hfirst, hrest⟩ := Bool.and_eq_true_iff.mp h
        refine ⟨?_, hrest⟩
        cases hw : w.toList with
        | nil => simp [hw] at hfirst
        | cons c cs => simpa [EndsAt, lineText, Part.text, hw] using hfirst
      | _ => cases h

/-- Two lines with parts of the same kinds are equal part by part, as long as all parts show where
    they end. -/
theorem lineText_append_inj {ps qs : List Part} {s t : List Char}
    (hkinds : ps.map Part.kind = qs.map Part.kind) (hps : ∀ p ∈ ps, p.IsPlain)
    (hqs : ∀ q ∈ qs, q.IsPlain) (hends : Part.Kind.areDelimited (ps.map Part.kind) = true)
    (h : (lineText ps).toList ++ s = (lineText qs).toList ++ t) : ps = qs ∧ s = t := by
  induction ps generalizing qs with
  | nil =>
    cases qs with
    | nil => exact ⟨rfl, List.append_cancel_left h⟩
    | cons q qs => cases hkinds
  | cons p ps ih =>
    cases qs with
    | nil => cases hkinds
    | cons q qs =>
      obtain ⟨hkind, hrest⟩ := List.cons.inj hkinds
      obtain ⟨hend, hends'⟩ := endsAt_of_areDelimited s hends
      have hend' : p.kind.EndsAt ((lineText qs).toList ++ t) := by
        refine (endsAt_of_areDelimited t ?_).1
        rw [← hrest]
        exact hends
      rw [lineText, lineText, String.toList_append, String.toList_append, List.append_assoc,
        List.append_assoc] at h
      obtain ⟨rfl, htail⟩ :=
        Part.text_append_inj hkind (hps p (.head _)) (hqs q (.head _)) hend hend' h
      obtain ⟨rfl, hst⟩ := ih hrest (fun p hp => hps p (.tail _ hp))
        (fun q hq => hqs q (.tail _ hq)) hends' htail
      exact ⟨rfl, hst⟩

/-! ### Instructions -/

/-- What an instruction is apart from its registers, slots, labels and values. -/
inductive Form where
  | const | load | store
  | binary (op : BinaryOp)
  | unary (op : UnaryOp)
  | label | jump | branchFalse | call | ret | retVoid

namespace Form

def all : List Form :=
  [const, load, store, label, jump, branchFalse, call, ret, retVoid, unary .minus, unary .not] ++
    BinaryOp.all.map binary

/-- The letters that an instruction of the form begins with. -/
def keyword : Form → String
  | const => "LConst"
  | load => "LLocal"
  | store => "SLocal"
  | binary op => op.mnemonic
  | unary op => op.mnemonic
  | label => "L"
  | jump => "Jump"
  | branchFalse => "BrFalse"
  | call => "Call"
  | ret => "Ret"
  | retVoid => "RetVoid"

def ofKeyword? (s : String) : Option Form := all.find? (·.keyword == s)

theorem ofKeyword?_keyword (f : Form) : ofKeyword? f.keyword = some f := by
  cases f with
  | binary op => cases op <;> rfl
  | unary op => cases op <;> rfl
  | _ => rfl

theorem all_isAlpha_keyword (f : Form) : f.keyword.toList.all Char.isAlpha = true := by
  cases f with
  | binary op => cases op <;> rfl
  | unary op => cases op <;> rfl
  | _ => rfl

/-- The keyword tells the form. -/
theorem keyword_append_inj {f g : Form} {s t : List Char} (hs : Stops Char.isAlpha s)
    (ht : Stops Char.isAlpha t) (h : f.keyword.toList ++ s = g.keyword.toList ++ t) :
    f = g ∧ s = t := by
  obtain ⟨hword, hrest⟩ :=
    run_append_inj f.all_isAlpha_keyword g.all_isAlpha_keyword hs ht h
  have hform : some f = some g := by
    rw [← ofKeyword?_keyword f, ← ofKeyword?_keyword g, String.toList_inj.mp hword]
  exact ⟨Option.some.inj hform, hrest⟩

end Form

namespace Instr

def form : Instr → Form
  | .const _ _ => .const
  | .load _ _ => .load
  | .store _ _ => .store
  | .binary op _ _ _ => .binary op
  | .unary op _ _ => .unary op
  | .label _ => .label
  | .jump _ => .jump
  | .branchFalse _ _ => .branchFalse
  | .call _ _ _ => .call
  | .ret _ => .ret
  | .retVoid => .retVoid

/-- What comes after the keyword, up to the end of the line. -/
def parts : Instr → List Part
  | .const d v => [.sign " r", .number d, .sign " <- ", .value v, .sign "\n"]
  | .load d i => [.sign " r", .number d, .sign " <- local[", .number i, .sign "]", .sign "\n"]
  | .store s i => [.sign " local[", .number i, .sign "] <- r", .number s, .sign "\n"]
  | .binary op d l r =>
    [.sign " r", .number d, .sign " <- r", .number l, .sign (" " ++ op.symbol ++ " r"), .number r,
     .sign "\n"]
  | .unary op d s =>
    [.sign " r", .number d, .sign (" <- " ++ op.symbol ++ "r"), .number s, .sign "\n"]
  | .label l => [.label l, .sign ":", .sign "\n"]
  | .jump l => [.sign " L", .label l, .sign "\n"]
  | .branchFalse c l => [.sign " r", .number c, .sign " -> ", .sign "L", .label l, .sign "\n"]
  | .call d f args =>
    [.sign " r", .number d, .sign " <- ", .name f, .sign "(", .regs args, .sign ")", .sign "\n"]
  | .ret s => [.sign " r", .number s, .sign "\n"]
  | .retVoid => [.sign "\n"]

theorem text_append_newline (i : Instr) :
    i.text ++ "\n" = i.form.keyword ++ lineText i.parts := by
  cases i with
  | retVoid => rfl
  | _ =>
    simp only [text, form, Form.keyword, parts, lineText, Part.text, regsText, toString,
      ← String.append_assoc, String.append_empty] <;>
    simp only [String.reduceAppend]

theorem areDelimited_parts (i : Instr) : Part.Kind.areDelimited (i.parts.map Part.kind) = true := by
  cases i with
  | binary op d l r => cases op <;> rfl
  | unary op d s => cases op <;> rfl
  | _ => rfl

theorem kinds_eq_of_form_eq {i j : Instr} (h : i.form = j.form) :
    i.parts.map Part.kind = j.parts.map Part.kind := by
  cases i <;> cases j <;> cases h <;> rfl

theorem eq_of_parts_eq {i j : Instr} (hform : i.form = j.form) (hparts : i.parts = j.parts) :
    i = j := by
  cases i <;> cases j <;> cases hform <;> cases hparts <;> rfl

/-- The keyword ends where the parts begin. -/
theorem stops_lineText_parts (i : Instr) (s : List Char) :
    Stops Char.isAlpha ((lineText i.parts).toList ++ s) := by
  cases i with
  | label l =>
    obtain ⟨c, cs, hn, hc⟩ := exists_repr_eq_cons l.number.toNat
    simp [Stops, parts, lineText, Part.text, hn, isAlpha_eq_false_of_isDigit hc]
  | _ => simp [Stops, parts, lineText, Part.text]

/-- The function that an instruction calls. -/
def callee? : Instr → Option String
  | .call _ f _ => some f
  | _ => none

theorem isPlain_of_mem_parts {i : Instr} (h : ∀ f ∈ i.callee?, IsWord f) :
    ∀ p ∈ i.parts, p.IsPlain := by
  cases i with
  | call d f args =>
    have hf : IsWord f := h f rfl
    simp [parts, Part.IsPlain, hf]
  | _ => simp [parts, Part.IsPlain]

/-- An instruction ends where its line ends. -/
theorem text_append_inj {i j : Instr} {s t : List Char} (hi : ∀ f ∈ i.callee?, IsWord f)
    (hj : ∀ f ∈ j.callee?, IsWord f)
    (h : (i.text ++ "\n").toList ++ s = (j.text ++ "\n").toList ++ t) : i = j ∧ s = t := by
  rw [text_append_newline, text_append_newline, String.toList_append, String.toList_append,
    List.append_assoc, List.append_assoc] at h
  obtain ⟨hform, hline⟩ :=
    Form.keyword_append_inj (stops_lineText_parts i s) (stops_lineText_parts j t) h
  obtain ⟨hparts, hrest⟩ :=
    lineText_append_inj (kinds_eq_of_form_eq hform) (isPlain_of_mem_parts hi)
      (isPlain_of_mem_parts hj) i.areDelimited_parts hline
  exact ⟨eq_of_parts_eq hform hparts, hrest⟩

end Instr

/-! ### Routines -/

/-- Places of labels do not depend on whether mistakes are looked for. -/
theorem resolveLabels_unique {code : List Instr} {verify verify' : Bool} {t t' : List (Label × Nat)}
    (h : resolveLabels verify code = .ok t) (h' : resolveLabels verify' code = .ok t') :
    t = t' := by
  -- if either looks for mistakes, there are none
  have hsame {t : List (Label × Nat)} (h : resolveLabels true code = .ok t) (verify : Bool) :
      resolveLabels verify code = .ok t := by
    obtain ⟨u, hu⟩ := resolveLabels_eq (soundLabels_of_resolveLabels h)
    rw [hu true] at h
    cases h
    exact hu verify
  have heq : Except.ok t = (Except.ok t' : Except LowerErrorKind _) := by
    cases verify with
    | true => rw [← h', hsame h]
    | false =>
      cases verify' with
      | true => rw [← h, hsame h']
      | false => rw [← h, h']
  exact Except.ok.inj heq

namespace Routine

/-- The number of a line begins with a digit. -/
theorem not_stops_opIndex (i : Nat) (s : List Char) :
    ¬ Stops Char.isDigit ((Text.opIndex i).toList ++ s) := by
  obtain ⟨c, cs, hi, hc⟩ := exists_repr_eq_cons i
  rw [Text.opIndex, Text.padLeft, String.toList_append, Text.decimal, hi, String.toList_ofList]
  cases 4 - i.repr.length with
  | zero => simp [Stops, hc]
  | succ n => simp [Stops, List.replicate_succ]

theorem toList_join_codeLines_cons (i : Nat) (op : Instr) (ops : List Instr) :
    (String.join (codeLines i (op :: ops))).toList =
      (Text.opIndex i).toList ++ (": ".toList ++ ((op.text ++ "\n").toList ++
        (String.join (codeLines (i + 1) ops)).toList)) := by
  simp [codeLines, String.toList_join, toString]

/-- Code ends where no digit begins a line. -/
theorem codeLines_append_inj {ops ops' : List Instr} {i : Nat} {s t : List Char}
    (hops : ∀ op ∈ ops, ∀ f ∈ op.callee?, IsWord f)
    (hops' : ∀ op ∈ ops', ∀ f ∈ op.callee?, IsWord f) (hs : Stops Char.isDigit s)
    (ht : Stops Char.isDigit t)
    (h : (String.join (codeLines i ops)).toList ++ s =
      (String.join (codeLines i ops')).toList ++ t) : ops = ops' ∧ s = t := by
  -- a line and the text after the code differ in their first characters
  have hne {i : Nat} {op : Instr} {ops : List Instr} {s t : List Char}
      (ht : Stops Char.isDigit t) : (String.join (codeLines i (op :: ops))).toList ++ s ≠ t := by
    rintro rfl
    rw [toList_join_codeLines_cons, List.append_assoc] at ht
    exact not_stops_opIndex i _ ht
  induction ops generalizing ops' i with
  | nil =>
    cases ops' with
    | nil => exact ⟨rfl, List.append_cancel_left h⟩
    | cons op' ops' => exact absurd h.symm (hne hs)
  | cons op ops ih =>
    cases ops' with
    | nil => exact absurd h (hne ht)
    | cons op' ops' =>
      simp only [toList_join_codeLines_cons, List.append_assoc] at h
      have hline := List.append_cancel_left (List.append_cancel_left h)
      obtain ⟨rfl, htail⟩ := Instr.text_append_inj (hops op (.head _)) (hops' op' (.head _)) hline
      obtain ⟨rfl, hrest⟩ := ih (fun op hop => hops op (.tail _ hop))
        (fun op hop => hops' op (.tail _ hop)) htail
      exact ⟨rfl, hrest⟩

/-- The first line of a routine. -/
def heading (r : Routine) : List Part :=
  [.sign "fn ", .name r.name, .sign " (params: ", .number r.paramCount, .sign ", locals: ",
   .number r.localCount, .sign ", regs: ", .number r.regCount, .sign ")\n"]

theorem text_eq (r : Routine) :
    r.text = lineText r.heading ++ String.join (codeLines 0 r.code.toList) := by
  simp only [text, heading, lineText, Part.text, toString, String.append_assoc,
    String.append_empty]

/-- All names in it are words, so that a listing tells where they end. -/
structure IsPlain (r : Routine) : Prop where
  name : IsWord r.name
  callees : ∀ op ∈ r.code.toList, ∀ f ∈ op.callee?, IsWord f

/-- Routines that look alike differ at most in the places of labels. -/
theorem text_append_inj {r r' : Routine} {s t : List Char} (hr : r.IsPlain) (hr' : r'.IsPlain)
    (hs : Stops Char.isDigit s) (ht : Stops Char.isDigit t)
    (h : r.text.toList ++ s = r'.text.toList ++ t) :
    r = { r' with labels := r.labels } ∧ s = t := by
  simp only [text_eq, String.toList_append, List.append_assoc] at h
  have hplain {r : Routine} (hr : r.IsPlain) : ∀ p ∈ r.heading, p.IsPlain := by
    simp [heading, Part.IsPlain, hr.name]
  have hkinds : r.heading.map Part.kind = r'.heading.map Part.kind := rfl
  obtain ⟨hheading, hcode⟩ := lineText_append_inj hkinds (hplain hr) (hplain hr') rfl h
  obtain ⟨hops, hrest⟩ := codeLines_append_inj hr.callees hr'.callees hs ht hcode
  refine ⟨?_, hrest⟩
  cases r
  cases r'
  simp_all [heading]

/-- It has been built from some builder, whether or not mistakes were looked for. -/
def IsBuilt (r : Routine) : Prop :=
  ∃ (b : Builder) (name : String) (verify : Bool), b.finish name verify = .ok r

theorem IsBuilt.exists_resolveLabels {r : Routine} (h : r.IsBuilt) :
    ∃ verify, resolveLabels verify r.code.toList = .ok r.labels := by
  obtain ⟨b, name, verify, hfinish⟩ := h
  unfold Builder.finish at hfinish
  split at hfinish
  · next labels hlabels =>
    cases hfinish
    exact ⟨verify, hlabels⟩
  · cases hfinish

/-- The code of a routine tells the places of its labels. -/
theorem IsBuilt.labels_eq {r r' : Routine} (hr : r.IsBuilt) (hr' : r'.IsBuilt)
    (hcode : r.code = r'.code) : r.labels = r'.labels := by
  obtain ⟨verify, h⟩ := hr.exists_resolveLabels
  obtain ⟨verify', h'⟩ := hr'.exists_resolveLabels
  rw [← hcode] at h'
  exact resolveLabels_unique h h'

/-- Built routines that look alike are equal, whatever text comes after them. -/
theorem IsBuilt.text_append_inj {r r' : Routine} {s t : List Char} (hr : r.IsBuilt)
    (hr' : r'.IsBuilt) (hplain : r.IsPlain) (hplain' : r'.IsPlain) (hs : Stops Char.isDigit s)
    (ht : Stops Char.isDigit t) (h : r.text.toList ++ s = r'.text.toList ++ t) :
    r = r' ∧ s = t := by
  obtain ⟨heq, hrest⟩ := Routine.text_append_inj hplain hplain' hs ht h
  have hcode : r.code = r'.code := by rw [heq]
  rw [hr.labels_eq hr' hcode] at heq
  exact ⟨heq, hrest⟩

/-- What comes after a routine in a listing. -/
def afterText : List Routine → List Char
  | [] => []
  | r :: rs => '\n' :: (listing (r :: rs)).toList

theorem stops_afterText (rs : List Routine) : Stops Char.isDigit (afterText rs) := by
  cases rs with
  | nil => rfl
  | cons => exact .cons rfl _

theorem toList_listing_cons (r : Routine) (rs : List Routine) :
    (listing (r :: rs)).toList = r.text.toList ++ afterText rs := by
  cases rs with
  | nil => simp [listing, afterText]
  | cons => simp [listing, afterText]

theorem listing_cons_ne_listing_nil (r : Routine) (rs : List Routine) :
    listing (r :: rs) ≠ listing [] := by
  intro h
  have hlist := congrArg String.toList h
  rw [toList_listing_cons, text_eq] at hlist
  simp [listing, heading, lineText, Part.text] at hlist

/-- A listing tells its first routine and the listing of the others. -/
theorem listing_cons_inj {r r' : Routine} {rs rs' : List Routine} (hr : r.IsBuilt ∧ r.IsPlain)
    (hr' : r'.IsBuilt ∧ r'.IsPlain) (h : listing (r :: rs) = listing (r' :: rs')) :
    r = r' ∧ listing rs = listing rs' := by
  have hlist := congrArg String.toList h
  rw [toList_listing_cons, toList_listing_cons] at hlist
  obtain ⟨hfirst, hafter⟩ := hr.1.text_append_inj hr'.1 hr.2 hr'.2
    (stops_afterText rs) (stops_afterText rs') hlist
  refine ⟨hfirst, ?_⟩
  cases rs with
  | nil =>
    cases rs' with
    | nil => rfl
    | cons => cases hafter
  | cons =>
    cases rs' with
    | nil => cases hafter
    | cons => exact String.toList_inj.mp (List.cons.inj hafter).2

end Routine

/-- Lowered programs with the same listing have the same routines: the names, the counts, the code
    and the places of labels. -/
theorem listings_lose_nothing (p q : Lowered) (hp : ∀ r ∈ p.routines, r.IsBuilt ∧ r.IsPlain)
    (hq : ∀ r ∈ q.routines, r.IsBuilt ∧ r.IsPlain) (h : p.text = q.text) :
    p.routines = q.routines := by
  change Routine.listing p.routines = Routine.listing q.routines at h
  generalize p.routines = rs at *
  generalize q.routines = rs' at *
  induction rs generalizing rs' with
  | nil =>
    cases rs' with
    | nil => rfl
    | cons r' rs' => exact absurd h.symm (Routine.listing_cons_ne_listing_nil r' rs')
  | cons r rs ih =>
    cases rs' with
    | nil => exact absurd h (Routine.listing_cons_ne_listing_nil r rs)
    | cons r' rs' =>
      obtain ⟨hr, hrs⟩ := List.forall_mem_cons.mp hp
      obtain ⟨hr', hrs'⟩ := List.forall_mem_cons.mp hq
      obtain ⟨rfl, hrest⟩ := Routine.listing_cons_inj hr hr' h
      rw [ih hrs rs' hrs' hrest]

/-- A builder that has met `names` and has a loop with a call in it. -/
def pollBuilder (names : List String) : Builder where
  nextReg := 3
  nextLabel := 1
  paramCount := 0
  names := names
  code := #[.label ⟨0⟩, .call 1 "step" [0, 1], .const 2 (.bool true), .branchFalse 1 ⟨0⟩, .ret 2]

theorem listings_lose_nothing_pollBuilder :
    ∃ r r', (pollBuilder ["a"]).finish "poll" true = .ok r ∧
      (pollBuilder ["b"]).finish "poll" false = .ok r' ∧
      Lowered.text ⟨[r, r], []⟩ = Lowered.text ⟨[r', r'], []⟩ ∧ [r, r] = [r', r'] := by
  have hwords : IsWord "poll" ∧ IsWord "step" := by decide
  have hgood (names : List String) (verify : Bool) {r : Routine}
      (h : (pollBuilder names).finish "poll" verify = .ok r) :
      ∀ r' ∈ [r, r], r'.IsBuilt ∧ r'.IsPlain := by
    obtain ⟨hname, -, -, -, hcode, -⟩ := Builder.finish_eq_ok h
    have hbuilt : r.IsBuilt := ⟨_, _, _, h⟩
    have hplain : r.IsPlain := by
      constructor
      · rw [hname]
        exact hwords.1
      · simp [hcode, pollBuilder, Instr.callee?, hwords.2]
    simp [hbuilt, hplain]
  refine ⟨_, _, rfl, rfl, rfl, ?_⟩
  exact listings_lose_nothing ⟨_, []⟩ ⟨_, []⟩ (hgood ["a"] true rfl) (hgood ["b"] false rfl) rfl

end JumpCode
