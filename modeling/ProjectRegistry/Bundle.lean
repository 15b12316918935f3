import ProjectRegistry.Json.Record

/-!
# Property bundles

A bundle is a map of texts that keeps its keys in the order in which they were first put. It is
addressed by a path name, which means nothing to the registry.
-/

namespace ProjectRegistry

/-- Texts under distinct keys, in the order of their first putting. -/
structure Properties where
  pairs : List (String × String)
  distinct : (pairs.map (·.1)).Nodup

namespace Properties

@[ext] theorem ext {p q : Properties} (h : p.pairs = q.pairs) : p = q := by
  cases p; cases q; cases h; rfl

instance : DecidableEq Properties := fun p q =>
  decidable_of_iff (p.pairs = q.pairs) ⟨ext, fun h => h ▸ rfl⟩

def empty : Properties := ⟨[], .nil⟩

/-- Puts a value in the place of its key, or at the end. -/
def putPair (k v : String) : List (String × String) → List (String × String)
  | [] => [(k, v)]
  | p :: rest => if p.1 = k then (k, v) :: rest else p :: putPair k v rest

theorem keys_putPair (k v : String) (ps : List (String × String)) :
    (putPair k v ps).map (·.1) =
      if k ∈ ps.map (·.1) then ps.map (·.1) else ps.map (·.1) ++ [k] := by
  induction ps with
  | nil => rfl
  | cons p rest ih =>
    simp only [putPair]
    split
    · next h => simp [h]
    · next h =>
      have hk : k ≠ p.1 := fun e => h e.symm
      simp only [List.map_cons, ih, List.mem_cons, hk, false_or]
      split <;> simp

/-- Puts a value under a key; a key that is there keeps its place. -/
def put (p : Properties) (k v : String) : Properties :=
  ⟨putPair k v p.pairs, by
    rw [keys_putPair]
    split
    · exact p.distinct
    · next h =>
      rw [List.nodup_append]
      refine ⟨p.distinct, by simp, fun a ha b hb => ?_⟩
      rw [List.mem_singleton] at hb
      rintro rfl
      exact h (hb ▸ ha)⟩

def get? (p : Properties) (k : String) : Option String := p.pairs.lookup k

def size (p : Properties) : Nat := p.pairs.length

def ofList (ps : List (String × String)) : Properties := ps.foldl (fun p e => p.put e.1 e.2) empty

def toTree (p : Properties) : Json.Tree := .record (p.pairs.map fun e => (e.1, .text e.2))

/-- Reads properties from an object, putting its members in their order. -/
def ofTree? (room : Nat) (t : Json.Tree) : Option Properties :=
  (t.members? room fun _ => Json.Tree.text?).map ofList

def toText (p : Properties) : String := p.toTree.toText

def ofText? (s : String) : Option Properties :=
  (Json.Tree.ofText? s).bind (ofTree? Json.nestingLimit)

end Properties

structure Bundle where
  path : String
  properties : Properties
  deriving DecidableEq

namespace Bundle

def new (path : String) : Bundle := ⟨path, .empty⟩

def put (b : Bundle) (k v : String) : Bundle := { b with properties := b.properties.put k v }

def get? (b : Bundle) (k : String) : Option String := b.properties.get? k

def size (b : Bundle) : Nat := b.properties.size

def toTree (b : Bundle) : Json.Tree :=
  .record [("pathName", .text b.path), ("entries", b.properties.toTree)]

def ofTree? (room : Nat) (t : Json.Tree) : Option Bundle := do
  let (fields, room) ← Json.fields? ["pathName", "entries"] room t
  let path ← fields.required "pathName" Json.Tree.text?
  let properties ← fields.withDefault "entries" .empty (Properties.ofTree? room)
  return ⟨path, properties⟩

end Bundle

end ProjectRegistry
