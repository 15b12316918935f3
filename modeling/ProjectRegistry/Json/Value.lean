import ProjectRegistry.Json.Number
import ProjectRegistry.Json.Reader

/-!
# Free JSON

A value is JSON that the registry keeps for others and does not look into. Its objects have their
keys in ascending order and each key once; of a key that is written twice the last member counts.
Reading a value counts how deep it nests: `room` is the number of arrays and objects that may still
be entered.

One key is reserved. An object that has it in front is no object: it stands for the value in a text
that it holds, which is read as a text of its own. Nothing is special about the key when a value is
written.
-/

namespace ProjectRegistry.Json

inductive Value where
  | null
  | bool (b : Bool)
  | number (n : Number)
  | string (s : String)
  | array (items : List Value)
  | object (members : List (String × Value))
  deriving Inhabited

/-- Puts a member in its place, instead of one with the same key. -/
def putMember (k : String) (v : Value) : List (String × Value) → List (String × Value)
  | [] => [(k, v)]
  | m :: rest =>
    if k = m.1 then (k, v) :: rest
    else if k < m.1 then (k, v) :: m :: rest
    else m :: putMember k v rest

def Value.ofMembers (members : List (String × Value)) : Value :=
  .object (members.foldl (fun ms m => putMember m.1 m.2 ms) [])

/-- How many arrays and objects may be inside one another in a text. -/
def nestingLimit : Nat := 127

/-- The key in front of an object that stands for the value in a text. -/
def embeddingKey : String := "$serde_json::private::RawValue"

/-- The text that an object stands for, where its first key says that it stands for one. There is
none if the object holds something else or more. -/
def embedded? : List (Option String × Tree) → Option (Option String)
  | (some k, t) :: rest =>
    if k = embeddingKey then
      match t, rest with
      | .string s, [] => some s
      | _, _ => some none
    else none
  | _ => none

mutual

/-- The value of a tree, if `read` gives those of the texts that stand for values in it. -/
def Value.ofTreeBy (read : String → Option Value) (room : Nat) : Tree → Option Value
  | .null => some .null
  | .bool b => some (.bool b)
  | .number n => (Number.ofNumeral? n).map .number
  | .string s => s.map .string
  | .array ts => if room = 0 then none else (valuesOfTreesBy read (room - 1) ts).map .array
  | .object ms =>
    if room = 0 then none
    else match embedded? ms with
      | some s => s.bind read
      | none => (membersOfTreesBy read (room - 1) ms).map Value.ofMembers

def valuesOfTreesBy (read : String → Option Value) (room : Nat) : List Tree → Option (List Value)
  | [] => some []
  | t :: rest =>
    match Value.ofTreeBy read room t, valuesOfTreesBy read room rest with
    | some v, some vs => some (v :: vs)
    | _, _ => none

def membersOfTreesBy (read : String → Option Value) (room : Nat) :
    List (Option String × Tree) → Option (List (String × Value))
  | [] => some []
  | (k, t) :: rest =>
    match k, Value.ofTreeBy read room t, membersOfTreesBy read room rest with
    | some k, some v, some ms => some ((k, v) :: ms)
    | _, _, _ => none

end

/-- The value in a text, if texts stand in one another less often than `depth` says. -/
def Value.ofTextWithin : (depth : Nat) → String → Option Value
  | 0, _ => none
  | depth + 1, s => (Tree.ofText? s).bind (Value.ofTreeBy (ofTextWithin depth) nestingLimit)

/-- The value in a text. A text is longer than those that stand in it, so there cannot be more of
them in one another than it is long. -/
def Value.ofText? (s : String) : Option Value := Value.ofTextWithin (s.toList.length + 1) s

def Value.ofTree? (room : Nat) : Tree → Option Value := Value.ofTreeBy Value.ofText? room

mutual

def Value.toTree : Value → Tree
  | .null => .null
  | .bool b => .bool b
  | .number n => .number n.toNumeral
  | .string s => .text s
  | .array vs => .array (treesOfValues vs)
  | .object ms => .object (treesOfMembers ms)

def treesOfValues : List Value → List Tree
  | [] => []
  | v :: rest => v.toTree :: treesOfValues rest

def treesOfMembers : List (String × Value) → List (Option String × Tree)
  | [] => []
  | (k, v) :: rest => (some k, v.toTree) :: treesOfMembers rest

end

def Value.toText (v : Value) : String := v.toTree.toText

example : (Value.ofText? "\x7b\"b\":1,\"a\":[2.50],\"b\":-0\x7d").map Value.toText =
    some "\x7b\"a\":[2.5],\"b\":-0.0\x7d" := by decide +kernel
example : (Value.ofText? (Value.object [(embeddingKey, .string "[1]")]).toText).map Value.toText =
    some "[1]" := by decide +kernel
example : (Value.ofText? (Value.object [(embeddingKey, .null)]).toText).isNone = true := by
  decide +kernel

end ProjectRegistry.Json
