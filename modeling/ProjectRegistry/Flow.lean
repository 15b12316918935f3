import ProjectRegistry.Json.Record

/-!
# Flow snapshots

A flow is a graph taken from an uploaded archive, under an id. The graph is free JSON.
-/

namespace ProjectRegistry

structure Flow where
  id : String
  graph : Json.Value

namespace Flow

def empty (id : String) : Flow := ⟨id, .ofMembers [("nodes", .array []), ("edges", .array [])]⟩

def toTree (f : Flow) : Json.Tree := .record [("id", .text f.id), ("graph", f.graph.toTree)]

def ofTree? (room : Nat) (t : Json.Tree) : Option Flow := do
  let (fields, room) ← Json.fields? ["id", "graph"] room t
  let id ← fields.required "id" Json.Tree.text?
  let graph ← fields.withDefault "graph" .null (Json.Value.ofTree? room)
  return ⟨id, graph⟩

end Flow

end ProjectRegistry
