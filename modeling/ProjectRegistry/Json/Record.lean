import ProjectRegistry.Json.Value

/-!
# Records in JSON

A record is written as an object of its fields, and read from an object with its fields in any order
or from an array of them in their own order. Members of other names are passed over, whatever they
hold; a field that comes twice is refused. The readers of single kinds of fields stand here too;
each gets the room for arrays and objects that is left to it.
-/

namespace ProjectRegistry.Json

/-- The fields of a record that were found, each once. -/
abbrev Fields := List (String × Tree)

namespace Fields

def get? (fields : Fields) (name : String) : Option Tree := fields.lookup name

def required {α : Type} (fields : Fields) (name : String) (read : Tree → Option α) : Option α :=
  (fields.get? name).bind read

def withDefault {α : Type} (fields : Fields) (name : String) (default : α)
    (read : Tree → Option α) : Option α :=
  match fields.get? name with
  | none => some default
  | some t => read t

end Fields

/-- The members that are fields, if all keys are texts and no field comes twice. -/
def fieldsOfMembers? (names : List String) : List (Option String × Tree) → Option Fields
  | [] => some []
  | (none, _) :: _ => none
  | (some k, t) :: rest =>
    match fieldsOfMembers? names rest with
    | none => none
    | some fields =>
      if k ∈ names then
        if (fields.get? k).isSome then none else some ((k, t) :: fields)
      else some fields

/-- The fields of a record of given names, and the room inside it. -/
def fields? (names : List String) (room : Nat) : Tree → Option (Fields × Nat)
  | .object ms =>
    if room = 0 then none else (fieldsOfMembers? names ms).map fun fields => (fields, room - 1)
  | .array ts =>
    if room = 0 ∨ names.length < ts.length then none else some (names.zip ts, room - 1)
  | _ => none

namespace Tree

def bool? : Tree → Option Bool
  | .bool b => some b
  | _ => none

def text? : Tree → Option String
  | .string s => s
  | _ => none

def integer? : Tree → Option Int
  | .number n => match Number.ofNumeral? n with
    | some (.integer i) => some i
    | _ => none
  | _ => none

def int32? (t : Tree) : Option Int32 :=
  t.integer?.bind fun i =>
    if Int32.minValue.toInt ≤ i ∧ i ≤ Int32.maxValue.toInt then some (Int32.ofInt i) else none

def byte? (t : Tree) : Option UInt8 :=
  t.integer?.bind fun i => if 0 ≤ i ∧ i < 256 then some (UInt8.ofNat i.toNat) else none

def nullable? {α : Type} (read : Tree → Option α) : Tree → Option (Option α)
  | .null => some none
  | t => (read t).map some

def array? {α : Type} (room : Nat) (read : Nat → Tree → Option α) : Tree → Option (List α)
  | .array ts => if room = 0 then none else ts.mapM (read (room - 1))
  | _ => none

/-- Reads each member of an object, in the order in which they are written. -/
def members? {α : Type} (room : Nat) (read : Nat → Tree → Option α) :
    Tree → Option (List (String × α))
  | .object ms =>
    if room = 0 then none
    else ms.mapM fun m => m.1.bind fun k => (read (room - 1) m.2).map fun v => (k, v)
  | _ => none

end Tree

def Tree.ofInt32 (n : Int32) : Tree := .int n.toInt

def Tree.ofByte (b : UInt8) : Tree := .int b.toNat

end ProjectRegistry.Json
