import JumpCode.Text.Json

/-!
# Numerals and what comes after them

A number in a text runs on as long as there are digits.  So where a numeral with some text after it
is looked at, the text must not begin with another digit (`Stops`).
-/

namespace JumpCode

/-! ### Runs of characters -/

/-- The text does not begin with a character of the class. -/
def Stops (p : Char → Bool) (s : List Char) : Prop := s.head?.all (fun c => !p c) = true

theorem Stops.cons {p : Char → Bool} {c : Char} (h : p c = false) (s : List Char) :
    Stops p (c :: s) := by
  simp [Stops, h]

theorem Stops.of_any {p : Char → Bool} {s : List Char}
    (h : s.head?.any (fun c => !p c) = true) : Stops p s := by
  cases s with
  | nil => cases h
  | cons c s => exact h

/-- What is taken from a text as long as the class goes on is the run that it begins with. -/
theorem Stops.takeWhile_append {p : Char → Bool} {a s : List Char} (hs : Stops p s)
    (ha : a.all p = true) : (a ++ s).takeWhile p = a := by
  rw [List.takeWhile_append_of_pos (List.all_eq_true.mp ha)]
  cases s with
  | nil => simp
  | cons c s =>
    have hc : p c = false := by simpa [Stops] using hs
    simp [hc]

theorem Stops.dropWhile_append {p : Char → Bool} {a s : List Char} (hs : Stops p s)
    (ha : a.all p = true) : (a ++ s).dropWhile p = s := by
  rw [List.dropWhile_append_of_pos (List.all_eq_true.mp ha)]
  cases s with
  | nil => rfl
  | cons c s =>
    have hc : p c = false := by simpa [Stops] using hs
    simp [hc]

/-- A run of characters of a class ends where the class ends. -/
theorem run_append_inj {p : Char → Bool} {a b s t : List Char} (ha : a.all p = true)
    (hb : b.all p = true) (hs : Stops p s) (ht : Stops p t) (h : a ++ s = b ++ t) :
    a = b ∧ s = t := by
  have hrun : a = b := by
    calc a = (a ++ s).takeWhile p := (hs.takeWhile_append ha).symm
      _ = (b ++ t).takeWhile p := by rw [h]
      _ = b := ht.takeWhile_append hb
  subst hrun
  exact ⟨rfl, List.append_cancel_left h⟩

theorem all_isDigit_repr (n : Nat) : n.repr.toList.all Char.isDigit = true := by
  rw [List.all_eq_true]
  intro c hc
  rw [Nat.toList_repr] at hc
  exact Nat.isDigit_of_mem_toDigits (by decide) (by decide) hc

theorem isAlpha_eq_false_of_isDigit {c : Char} (h : c.isDigit = true) : c.isAlpha = false := by
  change (48 ≤ c.val && c.val ≤ 57) = true at h
  change (decide (65 ≤ c.val ∧ c.val ≤ 90) || 97 ≤ c.val && c.val ≤ 122) = false
  grind

/-- A number is written with at least one digit. -/
theorem exists_repr_eq_cons (n : Nat) : ∃ c cs, n.repr.toList = c :: cs ∧ c.isDigit = true := by
  have hall := all_isDigit_repr n
  cases h : n.repr.toList with
  | nil =>
    rw [Nat.toList_repr] at h
    exact absurd h Nat.toDigits_ne_nil
  | cons c cs =>
    rw [h, List.all_cons, Bool.and_eq_true] at hall
    exact ⟨c, cs, rfl, hall.1⟩

/-- A number ends where its digits end. -/
theorem repr_append_inj {n m : Nat} {s t : List Char} (hs : Stops Char.isDigit s)
    (ht : Stops Char.isDigit t) (h : n.repr.toList ++ s = m.repr.toList ++ t) : n = m ∧ s = t := by
  obtain ⟨hdigits, hrest⟩ :=
    run_append_inj (all_isDigit_repr n) (all_isDigit_repr m) hs ht h
  have hvalue := congrArg Text.ofDigits hdigits
  exact ⟨(Text.ofDigits_decimal n).symm.trans (hvalue.trans (Text.ofDigits_decimal m)), hrest⟩

/-! ### Integers and truth values -/

theorem toList_signedDecimal_negSucc (n : Nat) :
    (Text.signedDecimal (.negSucc n)).toList = '-' :: (n + 1).repr.toList := by
  simp [Text.signedDecimal, Text.decimal]

/-- A minus sign is no digit. -/
theorem repr_append_ne_minus (n : Nat) (s t : List Char) : n.repr.toList ++ s ≠ '-' :: t := by
  obtain ⟨c, cs, hn, hc⟩ := exists_repr_eq_cons n
  rw [hn]
  intro h
  cases h
  cases hc

theorem signedDecimal_append_inj {m n : Int} {s t : List Char} (hs : Stops Char.isDigit s)
    (ht : Stops Char.isDigit t)
    (h : (Text.signedDecimal m).toList ++ s = (Text.signedDecimal n).toList ++ t) :
    m = n ∧ s = t := by
  cases m with
  | ofNat m =>
    cases n with
    | ofNat n =>
      obtain ⟨rfl, hrest⟩ := repr_append_inj hs ht h
      exact ⟨rfl, hrest⟩
    | negSucc n =>
      rw [toList_signedDecimal_negSucc] at h
      exact absurd h (repr_append_ne_minus m s _)
  | negSucc m =>
    rw [toList_signedDecimal_negSucc] at h
    cases n with
    | ofNat n => exact absurd h.symm (repr_append_ne_minus n t _)
    | negSucc n =>
      rw [toList_signedDecimal_negSucc] at h
      obtain ⟨hsucc, hrest⟩ := repr_append_inj hs ht (List.cons.inj h).2
      rw [Nat.succ.inj hsucc]
      exact ⟨rfl, hrest⟩

/-- A number does not begin like a truth value. -/
theorem signedDecimal_append_ne_boolText (n : Int) (b : Bool) (s t : List Char) :
    (Text.signedDecimal n).toList ++ s ≠ (Text.Json.boolText b).toList ++ t := by
  obtain ⟨c, u, hbool, hdigit, hminus⟩ : ∃ c u,
      (Text.Json.boolText b).toList ++ t = c :: u ∧ c.isDigit = false ∧ c ≠ '-' := by
    cases b with
    | false => exact ⟨'f', _, rfl, rfl, by decide⟩
    | true => exact ⟨'t', _, rfl, rfl, by decide⟩
  rw [hbool]
  intro h
  cases n with
  | ofNat n =>
    obtain ⟨d, ds, hn, hd⟩ := exists_repr_eq_cons n
    have hhead : d :: (ds ++ s) = c :: u := by
      rw [← h, ← List.cons_append, ← hn]
      rfl
    cases hhead
    rw [hdigit] at hd
    cases hd
  | negSucc n =>
    rw [toList_signedDecimal_negSucc] at h
    cases h
    exact hminus rfl

theorem boolText_append_inj {a b : Bool} {s t : List Char}
    (h : (Text.Json.boolText a).toList ++ s = (Text.Json.boolText b).toList ++ t) :
    a = b ∧ s = t := by
  have hne (u v : List Char) : "true".toList ++ u ≠ "false".toList ++ v := by simp
  cases a with
  | false =>
    cases b with
    | false => exact ⟨rfl, List.append_cancel_left h⟩
    | true => exact absurd h.symm (hne t s)
  | true =>
    cases b with
    | false => exact absurd h (hne s t)
    | true => exact ⟨rfl, List.append_cancel_left h⟩

end JumpCode
