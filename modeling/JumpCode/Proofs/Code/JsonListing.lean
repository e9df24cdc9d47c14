import JumpCode.Proofs.Code.Listing
import JumpCode.Proofs.Lowering.Mistakes
import JumpCode.Proofs.Text.JsonReading

/-!
# The JSON listing of code loses nothing

The JSON listing of a program is JSON text, and the routines can be read off it: their names, their
counts and their code, with every operand and all 64 bits of every constant.  Names may hold any
characters.  The places of labels are not listed, but the code gives them: they are the places where
the labels stand first.  So routines that were built are read back as they are.

An instruction is an object whose first member is a tag.  The tag gives the form of the instruction,
and the form says which members are its operands (`Form.read?`).
-/

namespace JumpCode

open Text (Json)

/-! ### Parts of values -/

namespace Text.Json

/-- Read the member with the given name. -/
def field? {α : Type} (ms : List (String × Json)) (name : String) (read : Json → Option α) :
    Option α :=
  (ms.lookup name).bind read

def toNat? : Json → Option Nat
  | .number (.ofNat n) => some n
  | _ => none

def toText? : Json → Option String
  | .string s => some s
  | _ => none

/-- Read the items of an array. -/
def toList? {α : Type} (read : Json → Option α) : Json → Option (List α)
  | .array vs => vs.mapM read
  | _ => none

theorem toList?_map {α β : Type} {write : α → Json} {read : Json → Option β} {f : α → β}
    (h : ∀ a, read (write a) = some (f a)) (as : List α) :
    toList? read (.array (as.map write)) = some (as.map f) := by
  induction as with
  | nil => rfl
  | cons a as ih =>
    change List.mapM read (write a :: as.map write) = _
    rw [List.mapM_cons, h a]
    change (toList? read (.array (as.map write))).bind _ = _
    rw [ih]
    rfl

end Text.Json

open Text.Json (field? toNat? toText? toList? toList?_map)

def Label.ofJson? (v : Json) : Option Label := do
  let n ← toNat? v
  if n < UInt32.size then some ⟨.ofNat n⟩ else none

theorem Label.ofJson?_number (l : Label) : ofJson? (.number l.number.toNat) = some l := by
  change (if l.number.toNat < UInt32.size then some (mk (.ofNat l.number.toNat)) else none) = _
  rw [if_pos l.number.toNat_lt, UInt32.ofNat_toNat]

/-- A number that does not fit into 64 bits is no value. -/
def Value.ofJson? : Json → Option Value
  | .object [("Int", .number n)] =>
    if (Int64.ofInt n).toInt = n then some (.int (.ofInt n)) else none
  | .object [("Bool", .bool b)] => some (.bool b)
  | _ => none

theorem Value.ofJson?_toJson (v : Value) : ofJson? v.toJson = some v := by
  cases v with
  | int n =>
    have hn : Int64.ofInt n.toInt = n := Int64.ofInt_toInt n
    rw [toJson, ofJson?, hn, if_pos rfl]
  | bool b => rfl

/-! ### Instructions -/

namespace Form

/-- The tag of an instruction of the form. -/
def tag : Form → String
  | .label => "Label"
  | f => f.keyword

def ofTag? (s : String) : Option Form := all.find? (·.tag == s)

theorem ofTag?_tag (f : Form) : ofTag? f.tag = some f := by
  cases f with
  | binary op => cases op <;> rfl
  | unary op => cases op <;> rfl
  | _ => rfl

/-- The instruction of the form with the operands that the members give. -/
def read? (ms : List (String × Json)) : Form → Option Instr
  | .const => do return .const (← field? ms "dest" toNat?) (← field? ms "value" Value.ofJson?)
  | .load => do return .load (← field? ms "dest" toNat?) (← field? ms "local_index" toNat?)
  | .store => do return .store (← field? ms "src" toNat?) (← field? ms "local_index" toNat?)
  | .binary op => do
    return .binary op (← field? ms "dest" toNat?) (← field? ms "src1" toNat?)
      (← field? ms "src2" toNat?)
  | .unary op => do return .unary op (← field? ms "dest" toNat?) (← field? ms "src" toNat?)
  | .label => do return .label (← field? ms "label" Label.ofJson?)
  | .jump => do return .jump (← field? ms "target" Label.ofJson?)
  | .branchFalse => do
    return .branchFalse (← field? ms "cond" toNat?) (← field? ms "target" Label.ofJson?)
  | .call => do
    return .call (← field? ms "dest" toNat?) (← field? ms "func" toText?)
      (← field? ms "args" (toList? toNat?))
  | .ret => do return .ret (← field? ms "src" toNat?)
  | .retVoid => some .retVoid

end Form

def Instr.ofJson? : Json → Option Instr
  | .object ms => do
    let tag ← field? ms "op" toText?
    let form ← Form.ofTag? tag
    form.read? ms
  | _ => none

namespace Instr

theorem field?_op (i : Instr) : field? i.members "op" toText? = some i.form.tag := by
  cases i with
  | binary op d l r => cases op <;> rfl
  | unary op d s => cases op <;> rfl
  | _ => rfl

/-- The operands of an instruction are read back. -/
theorem read?_members (i : Instr) : i.form.read? i.members = some i := by
  cases i with
  | const d v =>
    have hvalue : field? (const d v).members "value" Value.ofJson? = some v := v.ofJson?_toJson
    rw [form, Form.read?, hvalue]
    rfl
  | label l =>
    have hlabel : field? (label l).members "label" Label.ofJson? = some l := Label.ofJson?_number l
    rw [form, Form.read?, hlabel]
    rfl
  | jump l =>
    have htarget : field? (jump l).members "target" Label.ofJson? = some l := Label.ofJson?_number l
    rw [form, Form.read?, htarget]
    rfl
  | branchFalse c l =>
    have htarget : field? (branchFalse c l).members "target" Label.ofJson? = some l :=
      Label.ofJson?_number l
    rw [form, Form.read?, htarget]
    rfl
  | call d f args =>
    have hargs : field? (call d f args).members "args" (toList? toNat?) = some args := by
      have hread := toList?_map (fun r => rfl : ∀ r : Nat, toNat? (.number r) = some r) args
      rwa [List.map_id'] at hread
    rw [form, Form.read?, hargs]
    rfl
  | _ => rfl

theorem ofJson?_toJson (i : Instr) : ofJson? i.toJson = some i := by
  rw [toJson, ofJson?, field?_op]
  change (Form.ofTag? i.form.tag).bind _ = _
  rw [Form.ofTag?_tag]
  exact i.read?_members

end Instr

/-! ### Routines -/

/-- The places where labels stand first in some code. -/
def firstPlaces (code : List Instr) : List (Label × Nat) :=
  match resolveLabels false code with
  | .ok table => table
  | .error _ => []

namespace Routine

/-- The routine with the places of labels taken from its code. -/
def withFirstPlaces (r : Routine) : Routine := { r with labels := firstPlaces r.code.toList }

def ofJson? : Json → Option Routine
  | .object ms => do
    let code ← field? ms "ops" (toList? Instr.ofJson?)
    return ⟨← field? ms "name" toText?, ← field? ms "param_count" toNat?,
      ← field? ms "local_count" toNat?, ← field? ms "reg_count" toNat?, code.toArray,
      firstPlaces code⟩
  | _ => none

/-- Read routines off a JSON listing. -/
def ofJsonListing? (s : String) : Option (List Routine) :=
  (Json.read? s).bind (toList? ofJson?)

theorem ofJson?_toJson (r : Routine) : ofJson? r.toJson = some r.withFirstPlaces := by
  have hcode : toList? Instr.ofJson? (.array (r.code.toList.map Instr.toJson)) =
      some r.code.toList := by
    have hread := toList?_map Instr.ofJson?_toJson r.code.toList
    rwa [List.map_id'] at hread
  change (toList? Instr.ofJson? (.array (r.code.toList.map Instr.toJson))).bind _ = _
  rw [hcode]
  rfl

/-- What is listed can be read back. -/
theorem ofJsonListing?_jsonListing (rs : List Routine) :
    ofJsonListing? (jsonListing rs) = some (rs.map withFirstPlaces) := by
  rw [ofJsonListing?, jsonListing, Json.read?_pretty]
  exact toList?_map ofJson?_toJson rs

/-- A routine that was built has the places of its labels from its code. -/
theorem IsBuilt.withFirstPlaces_eq {r : Routine} (h : r.IsBuilt) : r.withFirstPlaces = r := by
  obtain ⟨verify, hlabels⟩ := h.exists_resolveLabels
  obtain ⟨table, htable⟩ := resolveLabels_false r.code.toList
  have hplaces : firstPlaces r.code.toList = r.labels := by
    rw [firstPlaces, htable]
    exact resolveLabels_unique htable hlabels
  rw [withFirstPlaces, hplaces]

theorem map_withFirstPlaces {rs : List Routine} (h : ∀ r ∈ rs, r.IsBuilt) :
    rs.map withFirstPlaces = rs := by
  rw [List.map_congr_left fun r hr => (h r hr).withFirstPlaces_eq, List.map_id']

end Routine

/-- **JSON listings lose nothing.**  The JSON listing of a program is JSON text, from which its
    routines can be read but for the places of labels, and these are known from the code.  So the
    routines of a program are read back as they are if they were built, and programs of built
    routines with the same JSON listing have the same routines. -/
theorem json_listings_lose_nothing :
    (∀ p : Lowered, (Json.array (p.routines.map Routine.toJson)).Spells p.json.toList ∧
      Routine.ofJsonListing? p.json = some (p.routines.map Routine.withFirstPlaces)) ∧
    (∀ p : Lowered, (∀ r ∈ p.routines, r.IsBuilt) →
      Routine.ofJsonListing? p.json = some p.routines) ∧
    (∀ p q : Lowered, (∀ r ∈ p.routines, r.IsBuilt) → (∀ r ∈ q.routines, r.IsBuilt) →
      p.json = q.json → p.routines = q.routines) := by
  have hread (p : Lowered) :
      Routine.ofJsonListing? p.json = some (p.routines.map Routine.withFirstPlaces) :=
    Routine.ofJsonListing?_jsonListing p.routines
  have hbuilt (p : Lowered) (hp : ∀ r ∈ p.routines, r.IsBuilt) :
      Routine.ofJsonListing? p.json = some p.routines := by
    rw [hread, Routine.map_withFirstPlaces hp]
  refine ⟨?_, hbuilt, ?_⟩
  · intro p
    exact ⟨Json.spells_pretty 0 _, hread p⟩
  · intro p q hp hq h
    apply Option.some.inj
    rw [← hbuilt p hp, ← hbuilt q hq, h]

/-- A builder that has met `names`, with the least constant there is and a call of a function with a
    name that is no word. -/
def quotingBuilder (names : List String) : Builder where
  nextReg := 2
  nextLabel := 1
  paramCount := 0
  names := names
  code := #[.label ⟨0⟩, .const 0 (.int Int64.minValue), .call 1 "\"é\"\n" [0, 0], .jump ⟨0⟩]

theorem json_listings_lose_nothing_quotingBuilder :
    ∃ r r', (quotingBuilder ["a"]).finish "\\" true = .ok r ∧
      (quotingBuilder ["b"]).finish "\\" false = .ok r' ∧
      Routine.ofJsonListing? (Lowered.json ⟨[r, r], []⟩) = some [r, r] ∧
      Lowered.json ⟨[r, r], []⟩ = Lowered.json ⟨[r', r'], []⟩ ∧ [r, r] = [r', r'] := by
  obtain ⟨-, hback, hsame⟩ := json_listings_lose_nothing
  have hbuilt (names : List String) (verify : Bool) {r : Routine}
      (h : (quotingBuilder names).finish "\\" verify = .ok r) : ∀ r' ∈ [r, r], r'.IsBuilt := by
    have hr : r.IsBuilt := ⟨_, _, _, h⟩
    simp [hr]
  refine ⟨_, _, rfl, rfl, ?_, rfl, ?_⟩
  · exact hback ⟨_, []⟩ (hbuilt ["a"] true rfl)
  · exact hsame ⟨_, []⟩ ⟨_, []⟩ (hbuilt ["a"] true rfl) (hbuilt ["b"] false rfl) rfl

end JumpCode
