import JumpCode.Proofs.Text.Numerals
import Mathlib.Data.List.Forall2

/-!
# JSON text can be read back

`Spells` says which texts are JSON for a value: blanks may stand around values and names, a
character of a string may be written as it is or escaped, but not as a surrogate pair, and numbers
are integers without leading zeros.  `read?` reads a text, and it reads every text that spells a
value as that value (`read?_of_spells`).  As values are written in one of these ways
(`spells_pretty`), nothing is lost when they are.
-/

namespace JumpCode.Text.Json

/-! ### Texts of values -/

/-- A character that may stand around values. -/
def isSpace (c : Char) : Bool := c == ' ' || c == '\t' || c == '\n' || c == '\r'

/-- What may follow a backslash, and the character that it stands for then. -/
def escapes : List (Char × Char) :=
  [('"', '"'), ('\\', '\\'), ('/', '/'), ('b', '\x08'), ('f', '\x0c'), ('n', '\n'), ('r', '\r'),
   ('t', '\t')]

/-- The value of a digit in base sixteen. -/
def hexDigit? (c : Char) : Option Nat :=
  if c.isDigit then some (c.toNat - '0'.toNat)
  else if 'a' ≤ c ∧ c ≤ 'f' then some (c.toNat - 'a'.toNat + 10)
  else if 'A' ≤ c ∧ c ≤ 'F' then some (c.toNat - 'A'.toNat + 10)
  else none

/-- The character whose number has the given four digits in base sixteen. -/
def hexChar? (a b c d : Char) : Option Char := do
  let n := (((← hexDigit? a) * 16 + (← hexDigit? b)) * 16 + (← hexDigit? c)) * 16 + (← hexDigit? d)
  if (Char.ofNat n).toNat = n then some (Char.ofNat n) else none

/-- The ways to write a character inside a string. -/
inductive SpellsChar : Char → List Char → Prop
  | plain {c : Char} (hcontrol : 0x20 ≤ c.toNat) (hquote : c ≠ '"') (hslash : c ≠ '\\') :
      SpellsChar c [c]
  | short {c e : Char} (h : escapes.lookup e = some c) : SpellsChar c ['\\', e]
  | hex {c h₁ h₂ h₃ h₄ : Char} (h : hexChar? h₁ h₂ h₃ h₄ = some c) :
      SpellsChar c ['\\', 'u', h₁, h₂, h₃, h₄]

inductive SpellsChars : List Char → List Char → Prop
  | nil : SpellsChars [] []
  | cons {c : Char} {s cs ds : List Char} (h : SpellsChar c cs) (hs : SpellsChars s ds) :
      SpellsChars (c :: s) (cs ++ ds)

def AreSpaces (cs : List Char) : Prop := cs.all isSpace = true

/-- The texts of the name of a member, up to the colon. -/
inductive SpellsName (k : String) : List Char → Prop
  | intro {cs ws ws' : List Char} (hws : AreSpaces ws) (h : SpellsChars k.toList cs)
      (hws' : AreSpaces ws') : SpellsName k (ws ++ ('"' :: (cs ++ ['"']) ++ ws'))

mutual

/-- The texts of a value, without blanks before and after it. -/
inductive Spells : Json → List Char → Prop
  | number (n : Int) : Spells (.number n) (signedDecimal n).toList
  | bool (b : Bool) : Spells (.bool b) (boolText b).toList
  | string {s : String} {cs : List Char} (h : SpellsChars s.toList cs) :
      Spells (.string s) ('"' :: (cs ++ ['"']))
  | emptyArray {ws : List Char} (h : AreSpaces ws) : Spells (.array []) ('[' :: (ws ++ [']']))
  | array {vs : List Json} {cs : List Char} (h : SpellsItems vs cs) :
      Spells (.array vs) ('[' :: (cs ++ [']']))
  | emptyObject {ws : List Char} (h : AreSpaces ws) :
      Spells (.object []) ('\x7b' :: (ws ++ ['\x7d']))
  | object {ms : List (String × Json)} {cs : List Char} (h : SpellsMembers ms cs) :
      Spells (.object ms) ('\x7b' :: (cs ++ ['\x7d']))

/-- The texts of the items of an array that has some. -/
inductive SpellsItems : List Json → List Char → Prop
  | last {v : Json} {cs ws ws' : List Char} (hws : AreSpaces ws) (h : Spells v cs)
      (hws' : AreSpaces ws') : SpellsItems [v] (ws ++ (cs ++ ws'))
  | next {v : Json} {vs : List Json} {cs ds ws ws' : List Char} (hws : AreSpaces ws)
      (h : Spells v cs) (hws' : AreSpaces ws') (hs : SpellsItems vs ds) :
      SpellsItems (v :: vs) (ws ++ (cs ++ (ws' ++ ',' :: ds)))

/-- The texts of the members of an object that has some. -/
inductive SpellsMembers : List (String × Json) → List Char → Prop
  | last {k : String} {v : Json} {ks cs ws ws' : List Char} (hk : SpellsName k ks)
      (hws : AreSpaces ws) (h : Spells v cs) (hws' : AreSpaces ws') :
      SpellsMembers [(k, v)] (ks ++ ':' :: (ws ++ (cs ++ ws')))
  | next {k : String} {v : Json} {ms : List (String × Json)} {ks cs ds ws ws' : List Char}
      (hk : SpellsName k ks) (hws : AreSpaces ws) (h : Spells v cs) (hws' : AreSpaces ws')
      (hs : SpellsMembers ms ds) :
      SpellsMembers ((k, v) :: ms) (ks ++ ':' :: (ws ++ (cs ++ (ws' ++ ',' :: ds))))

end

/-! ### Reading -/

def skipSpace (cs : List Char) : List Char := cs.dropWhile isSpace

/-- Read the rest of a string, up to its closing quote. -/
def readChars : List Char → Option (List Char × List Char)
  | [] => none
  | '"' :: cs => some ([], cs)
  | '\\' :: 'u' :: h₁ :: h₂ :: h₃ :: h₄ :: cs => do
    let c ← hexChar? h₁ h₂ h₃ h₄
    let (s, rest) ← readChars cs
    return (c :: s, rest)
  | '\\' :: e :: cs => do
    let c ← escapes.lookup e
    let (s, rest) ← readChars cs
    return (c :: s, rest)
  | c :: cs => do
    let (s, rest) ← readChars cs
    if 0x20 ≤ c.toNat then some (c :: s, rest) else none

/-- A character of an integer. -/
def isNumeral (c : Char) : Bool := c.isDigit || c == '-'

def readNumber (cs : List Char) : Option (Int × List Char) := do
  let n ← signed? (cs.takeWhile isNumeral)
  return (n, cs.dropWhile isNumeral)

def readBool : List Char → Option (Bool × List Char)
  | 't' :: 'r' :: 'u' :: 'e' :: cs => some (true, cs)
  | 'f' :: 'a' :: 'l' :: 's' :: 'e' :: cs => some (false, cs)
  | _ => none

section Sequences

variable {α : Type} (item : List Char → Option (α × List Char)) (closing : Char)

/-- Read items with commas between, up to the closing mark. -/
def readItems : Nat → List Char → Option (List α × List Char)
  | 0, _ => none
  | n + 1, cs => do
    let (x, cs) ← item cs
    match cs with
    | [] => none
    | c :: cs =>
      if c = ',' then do
        let (xs, cs) ← readItems n cs
        return (x :: xs, cs)
      else if c = closing then some ([x], skipSpace cs)
      else none

/-- Read no items or some, up to the closing mark. -/
def readSequence (n : Nat) (cs : List Char) : Option (List α × List Char) :=
  match skipSpace cs with
  | [] => none
  | c :: rest => if c = closing then some ([], skipSpace rest) else readItems item closing n cs

end Sequences

/-- Read the name and the value of a member. -/
def readMember (value : List Char → Option (Json × List Char)) (cs : List Char) :
    Option ((String × Json) × List Char) :=
  match value cs with
  | some (.string k, ':' :: cs) => do
    let (v, rest) ← value cs
    return ((k, v), rest)
  | _ => none

/-- Read a value and the blanks around it, where `n` bounds how deep it is and how many items its
    parts have. -/
def readValue : Nat → List Char → Option (Json × List Char)
  | 0, _ => none
  | n + 1, cs =>
    match skipSpace cs with
    | [] => none
    | c :: cs =>
      if c = '"' then do
        let (s, rest) ← readChars cs
        return (.string (String.ofList s), skipSpace rest)
      else if c = '[' then do
        let (vs, rest) ← readSequence (readValue n) ']' n cs
        return (.array vs, rest)
      else if c = '\x7b' then do
        let (ms, rest) ← readSequence (readMember (readValue n)) '\x7d' n cs
        return (.object ms, rest)
      else if c.isAlpha then do
        let (b, rest) ← readBool (c :: cs)
        return (.bool b, skipSpace rest)
      else do
        let (i, rest) ← readNumber (c :: cs)
        return (.number i, skipSpace rest)

/-- The value of a text.  No part of a value is deeper, or has more items, than the text is long. -/
def read? (s : String) : Option Json :=
  match readValue s.toList.length s.toList with
  | some (v, []) => some v
  | _ => none

/-! ### Blanks -/

theorem skipSpace_cons {c : Char} (hc : isSpace c = true) (cs : List Char) :
    skipSpace (c :: cs) = skipSpace cs := by
  simp [skipSpace, hc]

theorem skipSpace_of_not {c : Char} (hc : isSpace c = false) (cs : List Char) :
    skipSpace (c :: cs) = c :: cs := by
  simp [skipSpace, hc]

theorem skipSpace_append {ws : List Char} (h : AreSpaces ws) (cs : List Char) :
    skipSpace (ws ++ cs) = skipSpace cs := by
  induction ws with
  | nil => rfl
  | cons c ws ih =>
    rw [AreSpaces, List.all_cons, Bool.and_eq_true] at h
    rw [List.cons_append, skipSpace_cons h.1, ih h.2]

theorem isNumeral_of_isSpace {c : Char} (h : isSpace c = true) : isNumeral c = false := by
  simp only [isSpace, Bool.or_eq_true, beq_iff_eq] at h
  rcases h with ((rfl | rfl) | rfl) | rfl <;> rfl

theorem isSpace_of_isNumeral {c : Char} (h : isNumeral c = true) : isSpace c = false := by
  rw [Bool.eq_false_iff]
  intro hspace
  rw [isNumeral_of_isSpace hspace] at h
  cases h

/-- Blanks before a value do not matter. -/
theorem readValue_append_of_areSpaces {ws : List Char} (h : AreSpaces ws) (n : Nat)
    (cs : List Char) : readValue n (ws ++ cs) = readValue n cs := by
  cases n with
  | zero => rfl
  | succ n => rw [readValue, readValue, skipSpace_append h]

theorem stops_append_of_areSpaces {ws : List Char} (h : AreSpaces ws) {c : Char}
    (hc : isNumeral c = false) (cs : List Char) : Stops isNumeral (ws ++ c :: cs) := by
  cases ws with
  | nil => exact .cons hc cs
  | cons w ws =>
    rw [AreSpaces, List.all_cons, Bool.and_eq_true] at h
    exact .cons (isNumeral_of_isSpace h.1) _

/-! ### Strings and numbers -/

theorem readChars_of_spellsChar {c : Char} {cs : List Char} (h : SpellsChar c cs)
    {ds s rest : List Char} (hs : readChars ds = some (s, rest)) :
    readChars (cs ++ ds) = some (c :: s, rest) := by
  cases h with
  | plain hcontrol hquote hslash =>
    change readChars (c :: ds) = _
    rw [readChars, hs]
    · exact if_pos hcontrol
    · exact hquote
    · intro _ _ _ _ _ hc _
      exact hslash hc
    · intro _ _ hc _
      exact hslash hc
  | @short e h =>
    have he : e ≠ 'u' := by
      rintro rfl
      cases h
    change readChars ('\\' :: e :: ds) = _
    rw [readChars, h, hs]
    · rfl
    · intro _ _ _ _ _ hu _
      exact he hu
  | hex h =>
    change readChars ('\\' :: 'u' :: _ :: _ :: _ :: _ :: ds) = _
    rw [readChars, h, hs]
    rfl

theorem readChars_of_spellsChars {s cs : List Char} (h : SpellsChars s cs) (rest : List Char) :
    readChars (cs ++ '"' :: rest) = some (s, rest) := by
  induction h with
  | nil => rfl
  | cons h hs ih =>
    rw [List.append_assoc]
    exact readChars_of_spellsChar h ih

/-- An integer is a run of digits, perhaps after a sign. -/
theorem all_isNumeral_signedDecimal (n : Int) : (signedDecimal n).toList.all isNumeral = true := by
  have hdigits (k : Nat) : k.repr.toList.all isNumeral = true := by
    rw [List.all_eq_true]
    intro c hc
    rw [isNumeral, List.all_eq_true.mp (all_isDigit_repr k) c hc, Bool.true_or]
  cases n with
  | ofNat n => exact hdigits n
  | negSucc n =>
    rw [toList_signedDecimal_negSucc, List.all_cons, hdigits]
    rfl

theorem natural?_repr (n : Nat) : natural? n.repr.toList = some n := by
  obtain ⟨c, cs, hn, -⟩ := exists_repr_eq_cons n
  refine natural?_eq_some.mpr ⟨?_, all_isDigit_repr n, ofDigits_decimal n⟩
  rw [hn]
  exact List.cons_ne_nil c cs

theorem signed?_signedDecimal (n : Int) : signed? (signedDecimal n).toList = some n := by
  cases n with
  | ofNat n =>
    obtain ⟨c, cs, hn, hc⟩ := exists_repr_eq_cons n
    change signed? n.repr.toList = _
    have hnat := natural?_repr n
    rw [hn] at hnat ⊢
    rw [signed?, unsigned?, hnat]
    · rfl
    · rintro _ ⟨⟩
      cases hc
    · rintro _ ⟨⟩
      cases hc
  | negSucc n =>
    rw [toList_signedDecimal_negSucc, signed?, natural?_repr]
    rfl

theorem readNumber_signedDecimal (n : Int) {rest : List Char} (hrest : Stops isNumeral rest) :
    readNumber ((signedDecimal n).toList ++ rest) = some (n, rest) := by
  have hall := all_isNumeral_signedDecimal n
  rw [readNumber, hrest.takeWhile_append hall, hrest.dropWhile_append hall, signed?_signedDecimal]
  rfl

/-! ### Values -/

/-- An integer begins with a digit or a sign. -/
theorem exists_signedDecimal_eq_cons (n : Int) :
    ∃ c cs, (signedDecimal n).toList = c :: cs ∧ isNumeral c = true := by
  have hall := all_isNumeral_signedDecimal n
  cases h : (signedDecimal n).toList with
  | nil =>
    have hn := signed?_signedDecimal n
    rw [h] at hn
    cases hn
  | cons c cs =>
    rw [h, List.all_cons, Bool.and_eq_true] at hall
    exact ⟨c, cs, rfl, hall.1⟩

theorem readValue_number (n : Nat) (i : Int) {rest : List Char} (hrest : Stops isNumeral rest) :
    readValue (n + 1) ((signedDecimal i).toList ++ rest) = some (.number i, skipSpace rest) := by
  obtain ⟨c, cs, hi, hc⟩ := exists_signedDecimal_eq_cons i
  have hread := readNumber_signedDecimal i hrest
  rw [hi] at hread ⊢
  have hspace : isSpace c = false := isSpace_of_isNumeral hc
  have hquote : c ≠ '"' := by rintro rfl; cases hc
  have harray : c ≠ '[' := by rintro rfl; cases hc
  have hobject : c ≠ '\x7b' := by rintro rfl; cases hc
  have halpha : ¬ c.isAlpha = true := by
    rw [Bool.not_eq_true]
    rcases Bool.or_eq_true_iff.mp hc with hdigit | hminus
    · exact isAlpha_eq_false_of_isDigit hdigit
    · rw [beq_iff_eq.mp hminus]
      rfl
  rw [List.cons_append] at hread ⊢
  rw [readValue, skipSpace_of_not hspace]
  simp only [if_neg hquote, if_neg harray, if_neg hobject, if_neg halpha, hread]
  rfl

theorem readValue_bool (n : Nat) (b : Bool) (rest : List Char) :
    readValue (n + 1) ((boolText b).toList ++ rest) = some (.bool b, skipSpace rest) := by
  cases b with
  | true => rfl
  | false => rfl

theorem readValue_string (n : Nat) {s : String} {cs : List Char} (h : SpellsChars s.toList cs)
    (rest : List Char) :
    readValue (n + 1) ('"' :: (cs ++ ['"']) ++ rest) = some (.string s, skipSpace rest) := by
  have hread := readChars_of_spellsChars h rest
  rw [List.cons_append, List.append_assoc, List.singleton_append, readValue,
    skipSpace_of_not (by decide)]
  simp only [if_pos, hread]
  change some (Json.string (String.ofList s.toList), skipSpace rest) = _
  rw [String.ofList_toList]

/-- No value begins with a blank or with a closing mark. -/
theorem Spells.exists_eq_cons {v : Json} {cs : List Char} (h : Spells v cs) :
    ∃ c ds, cs = c :: ds ∧ isSpace c = false ∧ c ≠ ']' ∧ c ≠ '\x7d' := by
  cases h with
  | number n =>
    obtain ⟨c, ds, hn, hc⟩ := exists_signedDecimal_eq_cons n
    refine ⟨c, ds, hn, isSpace_of_isNumeral hc, ?_, ?_⟩
    · rintro rfl
      cases hc
    · rintro rfl
      cases hc
  | bool b => cases b <;> exact ⟨_, _, rfl, by decide, by decide, by decide⟩
  | string h => exact ⟨_, _, rfl, by decide, by decide, by decide⟩
  | emptyArray h => exact ⟨_, _, rfl, by decide, by decide, by decide⟩
  | array h => exact ⟨_, _, rfl, by decide, by decide, by decide⟩
  | emptyObject h => exact ⟨_, _, rfl, by decide, by decide, by decide⟩
  | object h => exact ⟨_, _, rfl, by decide, by decide, by decide⟩

section Sequences

variable {α : Type} {item : List Char → Option (α × List Char)} {closing : Char}

theorem readItems_last {x : α} {cs rest : List Char} (h : item cs = some (x, closing :: rest))
    (hclosing : closing ≠ ',') (n : Nat) :
    readItems item closing (n + 1) cs = some ([x], skipSpace rest) := by
  rw [readItems, h]
  change (if closing = ',' then _ else if closing = closing then _ else none) = _
  rw [if_neg hclosing, if_pos rfl]

theorem readItems_next {x : α} {xs : List α} {cs ds rest : List Char} {n : Nat}
    (h : item cs = some (x, ',' :: ds)) (hs : readItems item closing n ds = some (xs, rest)) :
    readItems item closing (n + 1) cs = some (x :: xs, rest) := by
  rw [readItems, h]
  change (readItems item closing n ds).bind _ = _
  rw [hs]
  rfl

theorem readSequence_of_areSpaces {ws : List Char} (h : AreSpaces ws)
    (hclosing : isSpace closing = false) (n : Nat) (rest : List Char) :
    readSequence item closing n (ws ++ closing :: rest) = some ([], skipSpace rest) := by
  rw [readSequence, skipSpace_append h, skipSpace_of_not hclosing]
  exact if_pos rfl

theorem readSequence_eq_readItems {c : Char} {cs ds : List Char} (h : skipSpace cs = c :: ds)
    (hc : c ≠ closing) (n : Nat) :
    readSequence item closing n cs = readItems item closing n cs := by
  rw [readSequence, h]
  exact if_neg hc

end Sequences

theorem readMember_eq {value : List Char → Option (Json × List Char)} {k : String} {v : Json}
    {cs ds rest : List Char} (hk : value cs = some (.string k, ':' :: ds))
    (hv : value ds = some (v, rest)) : readMember value cs = some ((k, v), rest) := by
  rw [readMember, hk]
  change (value ds).bind _ = _
  rw [hv]
  rfl

/-- A value that is read as it should be is so with blanks around it, too. -/
theorem readValue_padded {v : Json} {n : Nat} {cs ws ws' : List Char}
    (h : ∀ rest, Stops isNumeral rest → readValue n (cs ++ rest) = some (v, skipSpace rest))
    (hws : AreSpaces ws) (hws' : AreSpaces ws') {c : Char} (hspace : isSpace c = false)
    (hnumeral : isNumeral c = false) (rest : List Char) :
    readValue n (ws ++ (cs ++ (ws' ++ c :: rest))) = some (v, c :: rest) := by
  have hstops := stops_append_of_areSpaces hws' hnumeral rest
  rw [readValue_append_of_areSpaces hws, h _ hstops, skipSpace_append hws', skipSpace_of_not hspace]

theorem SpellsName.readValue_eq {k : String} {ks : List Char} (h : SpellsName k ks) (n : Nat)
    (rest : List Char) : readValue (n + 1) (ks ++ ':' :: rest) = some (.string k, ':' :: rest) := by
  cases h with
  | intro hws h hws' =>
    rw [List.append_assoc, List.append_assoc]
    exact readValue_padded (fun rest _ => readValue_string n h rest) hws hws' rfl rfl rest

/-- The first item of an array does not begin with the closing mark. -/
theorem SpellsItems.exists_skipSpace_eq_cons {vs : List Json} {cs : List Char}
    (h : SpellsItems vs cs) (rest : List Char) :
    ∃ c ds, skipSpace (cs ++ rest) = c :: ds ∧ c ≠ ']' := by
  cases h with
  | last hws h hws' =>
    obtain ⟨c, ds, rfl, hspace, hc, -⟩ := h.exists_eq_cons
    rw [List.append_assoc, skipSpace_append hws, List.cons_append, List.cons_append,
      skipSpace_of_not hspace]
    exact ⟨c, _, rfl, hc⟩
  | next hws h hws' hs =>
    obtain ⟨c, ds, rfl, hspace, hc, -⟩ := h.exists_eq_cons
    rw [List.append_assoc, skipSpace_append hws, List.cons_append, List.cons_append,
      skipSpace_of_not hspace]
    exact ⟨c, _, rfl, hc⟩

theorem SpellsName.skipSpace_eq {k : String} {ks : List Char} (h : SpellsName k ks)
    (rest : List Char) : ∃ ds, skipSpace (ks ++ rest) = '"' :: ds := by
  cases h with
  | intro hws h hws' =>
    rw [List.append_assoc, skipSpace_append hws]
    exact ⟨_, rfl⟩

/-- The first member of an object does not begin with the closing mark. -/
theorem SpellsMembers.exists_skipSpace_eq_cons {ms : List (String × Json)} {cs : List Char}
    (h : SpellsMembers ms cs) (rest : List Char) :
    ∃ c ds, skipSpace (cs ++ rest) = c :: ds ∧ c ≠ '\x7d' := by
  cases h with
  | last hk hws h hws' =>
    rw [List.append_assoc]
    obtain ⟨ds, hds⟩ := hk.skipSpace_eq (':' :: _ ++ rest)
    exact ⟨_, ds, hds, by decide⟩
  | next hk hws h hws' hs =>
    rw [List.append_assoc]
    obtain ⟨ds, hds⟩ := hk.skipSpace_eq (':' :: _ ++ rest)
    exact ⟨_, ds, hds, by decide⟩

theorem readValue_array {vs : List Json} {n : Nat} {cs rest : List Char}
    (h : readSequence (readValue n) ']' n (cs ++ ']' :: rest) = some (vs, skipSpace rest)) :
    readValue (n + 1) ('[' :: (cs ++ [']']) ++ rest) = some (.array vs, skipSpace rest) := by
  rw [List.cons_append, List.append_assoc, List.singleton_append, readValue,
    skipSpace_of_not (by decide)]
  change (readSequence (readValue n) ']' n (cs ++ ']' :: rest)).bind _ = _
  rw [h]
  rfl

theorem readValue_object {ms : List (String × Json)} {n : Nat} {cs rest : List Char}
    (h : readSequence (readMember (readValue n)) '\x7d' n (cs ++ '\x7d' :: rest) =
      some (ms, skipSpace rest)) :
    readValue (n + 1) ('\x7b' :: (cs ++ ['\x7d']) ++ rest) =
      some (.object ms, skipSpace rest) := by
  rw [List.cons_append, List.append_assoc, List.singleton_append, readValue,
    skipSpace_of_not (by decide)]
  change (readSequence (readMember (readValue n)) '\x7d' n (cs ++ '\x7d' :: rest)).bind _ = _
  rw [h]
  rfl

mutual

/-- A text of a value is read as that value, whatever comes after it. -/
theorem Spells.readValue_eq {v : Json} {cs : List Char} (h : Spells v cs) {n : Nat}
    (hn : cs.length ≤ n) {rest : List Char} (hrest : Stops isNumeral rest) :
    readValue n (cs ++ rest) = some (v, skipSpace rest) := by
  obtain ⟨n, rfl⟩ : ∃ m, n = m + 1 := by
    obtain ⟨c, ds, hcs, -⟩ := h.exists_eq_cons
    rw [hcs, List.length_cons] at hn
    exact ⟨n - 1, by omega⟩
  cases h with
  | number i => exact readValue_number n i hrest
  | bool b => exact readValue_bool n b rest
  | string h => exact readValue_string n h rest
  | emptyArray h => exact readValue_array (readSequence_of_areSpaces h rfl n rest)
  | array h =>
    simp only [List.length_append, List.length_cons, List.length_nil] at hn
    obtain ⟨c, ds, hcs, hc⟩ := h.exists_skipSpace_eq_cons (']' :: rest)
    apply readValue_array
    rw [readSequence_eq_readItems hcs hc]
    exact h.readItems_eq (by omega) (by omega) rest
  | emptyObject h => exact readValue_object (readSequence_of_areSpaces h rfl n rest)
  | object h =>
    simp only [List.length_append, List.length_cons, List.length_nil] at hn
    obtain ⟨c, ds, hcs, hc⟩ := h.exists_skipSpace_eq_cons ('\x7d' :: rest)
    apply readValue_object
    rw [readSequence_eq_readItems hcs hc]
    exact h.readItems_eq (by omega) (by omega) rest

theorem SpellsItems.readItems_eq {vs : List Json} {cs : List Char} (h : SpellsItems vs cs)
    {n m : Nat} (hn : cs.length ≤ n) (hm : cs.length < m) (rest : List Char) :
    readItems (readValue n) ']' m (cs ++ ']' :: rest) = some (vs, skipSpace rest) := by
  obtain ⟨m, rfl⟩ : ∃ k, m = k + 1 := ⟨m - 1, by omega⟩
  cases h with
  | @last v cs ws ws' hws h hws' =>
    simp only [List.length_append] at hn
    have hcs : cs.length ≤ n := by omega
    rw [List.append_assoc, List.append_assoc]
    apply readItems_last
    · exact readValue_padded (fun _ => h.readValue_eq hcs) hws hws' rfl rfl rest
    · decide
  | @next v vs cs ds ws ws' hws h hws' hs =>
    simp only [List.length_append, List.length_cons] at hn hm
    have hcs : cs.length ≤ n := by omega
    simp only [List.append_assoc, List.cons_append]
    apply readItems_next
    · exact readValue_padded (fun _ => h.readValue_eq hcs) hws hws' rfl rfl _
    · exact hs.readItems_eq (by omega) (by omega) rest

theorem SpellsMembers.readItems_eq {ms : List (String × Json)} {cs : List Char}
    (h : SpellsMembers ms cs) {n m : Nat} (hn : cs.length ≤ n) (hm : cs.length < m)
    (rest : List Char) :
    readItems (readMember (readValue n)) '\x7d' m (cs ++ '\x7d' :: rest) =
      some (ms, skipSpace rest) := by
  obtain ⟨m, rfl⟩ : ∃ k, m = k + 1 := ⟨m - 1, by omega⟩
  cases h with
  | @last k v ks cs ws ws' hk hws h hws' =>
    simp only [List.length_append, List.length_cons] at hn
    have hcs : cs.length ≤ n := by omega
    obtain ⟨n, rfl⟩ : ∃ k, n = k + 1 := ⟨n - 1, by omega⟩
    simp only [List.append_assoc, List.cons_append]
    apply readItems_last
    · apply readMember_eq (hk.readValue_eq n _)
      exact readValue_padded (fun _ => h.readValue_eq hcs) hws hws' rfl rfl rest
    · decide
  | @next k v ms ks cs ds ws ws' hk hws h hws' hs =>
    simp only [List.length_append, List.length_cons] at hn hm
    have hcs : cs.length ≤ n := by omega
    obtain ⟨n, rfl⟩ : ∃ k, n = k + 1 := ⟨n - 1, by omega⟩
    simp only [List.append_assoc, List.cons_append]
    apply readItems_next
    · apply readMember_eq (hk.readValue_eq n _)
      exact readValue_padded (fun _ => h.readValue_eq hcs) hws hws' rfl rfl _
    · exact hs.readItems_eq (by omega) (by omega) rest

end

/-- **Reading undoes writing**, however a value is written. -/
theorem read?_of_spells {v : Json} {s : String} (h : Spells v s.toList) : read? s = some v := by
  have hread := h.readValue_eq (Nat.le_refl _) (show Stops isNumeral [] from rfl)
  rw [List.append_nil] at hread
  rw [read?, hread]
  rfl

/-! ### Writing -/

theorem hexDigit?_digitChar : ∀ d < 16, hexDigit? d.digitChar = some d := by decide

/-- Every character is written in one of the ways that there are for it. -/
theorem spellsChar_stringChar (c : Char) : SpellsChar c (stringChar c) := by
  unfold stringChar
  split
  · next h =>
    rcases h with rfl | rfl
    · exact .short rfl
    · exact .short rfl
  next hplain =>
  -- The backspace, the tab, the line feed, the form feed and the carriage return.
  iterate 5
    split
    · next h =>
      subst h
      exact .short rfl
  split
  · next hcontrol =>
    have hhigh := hexDigit?_digitChar (c.toNat / 16) (by omega)
    have hlow := hexDigit?_digitChar (c.toNat % 16) (by omega)
    have hnumber : c.toNat / 16 * 16 + c.toNat % 16 = c.toNat := by omega
    apply SpellsChar.hex
    have hzero : hexDigit? '0' = some 0 := rfl
    simp [hexChar?, hzero, hhigh, hlow, hnumber, Char.ofNat_toNat]
  · next hcontrol =>
    exact .plain (Nat.not_lt.mp hcontrol) (fun h => hplain (Or.inl h)) (fun h => hplain (Or.inr h))

theorem spellsChars_flatMap_stringChar (s : List Char) :
    SpellsChars s (s.flatMap stringChar) := by
  induction s with
  | nil => exact .nil
  | cons c s ih => exact .cons (spellsChar_stringChar c) ih

/-- The beginning of a new line inside `depth` levels. -/
def lineBreak (depth : Nat) : String := "\n" ++ String.join (List.replicate depth "  ")

theorem areSpaces_lineBreak (depth : Nat) : AreSpaces (lineBreak depth).toList := by
  have hblanks : (List.replicate depth "  ").all (fun s => s.toList.all isSpace) = true := by
    rw [List.all_replicate]
    split <;> rfl
  rw [AreSpaces, lineBreak, String.toList_append, String.toList_join, List.all_append,
    List.all_flatMap, hblanks]
  rfl

theorem toList_spread (depth : Nat) (opening closing item : String) (items : List String) :
    (spread depth opening closing (item :: items)).toList =
      opening.toList ++ ((lineBreak (depth + 1)).toList ++
        ((String.intercalate ("," ++ lineBreak (depth + 1)) (item :: items)).toList ++
          (lineBreak depth).toList) ++ closing.toList) := by
  change (opening ++ lineBreak (depth + 1) ++
    String.intercalate ("," ++ lineBreak (depth + 1)) (item :: items) ++ lineBreak depth ++
      closing).toList = _
  simp only [String.toList_append, List.append_assoc]

theorem toList_stringText (s : String) :
    (stringText s).toList = '"' :: (s.toList.flatMap stringChar ++ ['"']) := by
  rw [stringText, String.toList_ofList, List.cons_append]

/-- The text of a member as it is written: its name, a colon and a blank, and its value. -/
def SpellsMember (m : String × Json) (text : String) : Prop :=
  ∃ cs, Spells m.2 cs ∧ text.toList = (stringText m.1).toList ++ ':' :: ' ' :: cs

section Lines

variable {br : String} {ws : List Char}

/-- Texts of items, each on a new line, are a text of the items of an array. -/
theorem spellsItems_of_lines (hbr : AreSpaces br.toList) (hws : AreSpaces ws) {v : Json}
    {vs : List Json} {text : String} {texts : List String}
    (h : List.Forall₂ (fun v text => Spells v text.toList) (v :: vs) (text :: texts)) :
    SpellsItems (v :: vs)
      (br.toList ++ ((String.intercalate ("," ++ br) (text :: texts)).toList ++ ws)) := by
  induction vs generalizing v text texts with
  | nil =>
    cases h with
    | cons hv hvs =>
    cases hvs with
    | nil =>
      rw [String.intercalate_singleton]
      exact .last hbr hv hws
  | cons w vs ih =>
    cases h with
    | cons hv hvs =>
    cases hvs with
    | cons hw hvs =>
      have hnext := SpellsItems.next hbr hv (show AreSpaces [] from rfl) (ih (.cons hw hvs))
      simpa [String.intercalate_cons_cons] using hnext

/-- Texts of members, each on a new line, are a text of the members of an object. -/
theorem spellsMembers_of_lines (hbr : AreSpaces br.toList) (hws : AreSpaces ws)
    {m : String × Json} {ms : List (String × Json)} {text : String} {texts : List String}
    (h : List.Forall₂ SpellsMember (m :: ms) (text :: texts)) :
    SpellsMembers (m :: ms)
      (br.toList ++ ((String.intercalate ("," ++ br) (text :: texts)).toList ++ ws)) := by
  have hname (k : String) : SpellsName k (br.toList ++ ((stringText k).toList ++ [])) := by
    rw [toList_stringText]
    exact .intro hbr (spellsChars_flatMap_stringChar k.toList) rfl
  induction ms generalizing m text texts with
  | nil =>
    cases h with
    | cons hm hms =>
    cases hms with
    | nil =>
      obtain ⟨cs, hv, htext⟩ := hm
      have hlast := SpellsMembers.last (hname m.1) (show AreSpaces [' '] from rfl) hv hws
      simpa [htext] using hlast
  | cons m' ms ih =>
    cases h with
    | cons hm hms =>
    cases hms with
    | cons hm' hms =>
      obtain ⟨cs, hv, htext⟩ := hm
      have hnext := SpellsMembers.next (hname m.1) (show AreSpaces [' '] from rfl) hv
        (show AreSpaces [] from rfl) (ih (.cons hm' hms))
      simpa [String.intercalate_cons_cons, htext] using hnext

end Lines

mutual

/-- A value is written as a text of it. -/
theorem spells_pretty (depth : Nat) (v : Json) : Spells v (v.pretty depth).toList := by
  cases v with
  | number n => exact .number n
  | bool b => exact .bool b
  | string s =>
    rw [pretty, toList_stringText]
    exact .string (spellsChars_flatMap_stringChar s.toList)
  | array vs =>
    have hitems := spells_prettyItems (depth + 1) vs
    cases vs with
    | nil =>
      rw [pretty, prettyItems, spread, String.toList_append]
      exact .emptyArray (show AreSpaces [] from rfl)
    | cons v vs =>
      rw [prettyItems] at hitems
      rw [pretty, prettyItems, toList_spread]
      exact .array (spellsItems_of_lines (areSpaces_lineBreak _) (areSpaces_lineBreak _) hitems)
  | object ms =>
    have hmembers := spells_prettyMembers (depth + 1) ms
    cases ms with
    | nil =>
      rw [pretty, prettyMembers, spread, String.toList_append]
      exact .emptyObject (show AreSpaces [] from rfl)
    | cons m ms =>
      rw [prettyMembers] at hmembers
      rw [pretty, prettyMembers, toList_spread]
      exact .object
        (spellsMembers_of_lines (areSpaces_lineBreak _) (areSpaces_lineBreak _) hmembers)

theorem spells_prettyItems (depth : Nat) (vs : List Json) :
    List.Forall₂ (fun v text => Spells v text.toList) vs (prettyItems depth vs) := by
  cases vs with
  | nil => exact .nil
  | cons v vs => exact .cons (spells_pretty depth v) (spells_prettyItems depth vs)

theorem spells_prettyMembers (depth : Nat) (ms : List (String × Json)) :
    List.Forall₂ SpellsMember ms (prettyMembers depth ms) := by
  cases ms with
  | nil => exact .nil
  | cons m ms =>
    obtain ⟨k, v⟩ := m
    refine .cons ⟨_, spells_pretty depth v, ?_⟩ (spells_prettyMembers depth ms)
    simp

end

/-- What is written can be read back. -/
theorem read?_pretty (depth : Nat) (v : Json) : read? (v.pretty depth) = some v :=
  read?_of_spells (spells_pretty depth v)

end JumpCode.Text.Json
