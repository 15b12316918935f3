/-!
# TOML values

What can stand to the right of a key. Floats and dates are told apart from other values, but what
they are worth is not kept, for no setting is one.
-/

namespace ProjectRegistry.Toml

/-- A value; a table is `dotted` if only dotted keys made it, so that further ones may extend it. -/
inductive Value where
  | string (s : String)
  | integer (n : Int)
  | float
  | bool (b : Bool)
  | date
  | array (items : List Value)
  | table (dotted : Bool) (entries : List (String × Value))
  deriving Inhabited

/-- How many arrays and inline tables may be inside one another, and how many keys a dotted key may
have. -/
def nestingLimit : Nat := 79

def addEntry (k : String) (v : Value) (entries : List (String × Value)) :
    Option (List (String × Value)) :=
  if (entries.lookup k).isSome then none else some (entries ++ [(k, v)])

def setEntry {α : Type} (k : String) (v : α) : List (String × α) → List (String × α)
  | [] => []
  | e :: rest => if e.1 = k then (k, v) :: rest else e :: setEntry k v rest

/-- Puts a value under a dotted key of an inline table. Only tables that dotted keys made can be
extended. -/
def addInline (v : Value) : List String → List (String × Value) → Option (List (String × Value))
  | [], _ => none
  | [k], entries => addEntry k v entries
  | k :: path, entries =>
    match entries.lookup k with
    | none => (addInline v path []).map fun inner => entries ++ [(k, .table true inner)]
    | some (.table true inner) =>
      (addInline v path inner).map fun inner => setEntry k (.table true inner) entries
    | some _ => none

def Value.ofPairs? (pairs : List (List String × Value)) : Option Value :=
  (pairs.foldlM (fun entries (path, v) => addInline v path entries) []).map (.table false)

end ProjectRegistry.Toml
