import ProjectRegistry.Configuration
import ProjectRegistry.Registry
import ProjectRegistry.Store.Database.Opening
import ProjectRegistry.Store.Memory

/-!
# Opening a registry

A configuration names the kind of store that a registry starts with, which is empty. Archives are
kept in files in any case.
-/

namespace ProjectRegistry

inductive OpenRegistry where
  | memory (r : Registry Memory)
  | database (r : Registry Database)

def Configuration.openRegistry (c : Configuration) (files : Files.FileTree) :
    Except Failure OpenRegistry :=
  if c.backend = "memory" then .ok (.memory ⟨c.limits, ⟨c.artifactRoot⟩, files, .empty⟩)
  else if c.backend = "sqlite" then
    match Location.ofText c.databaseUrl with
    | .error e => .error e
    | .ok location =>
      match location.openDatabase c.maxConnections files with
      | (.ok database, files) => .ok (.database ⟨c.limits, ⟨c.artifactRoot⟩, files, database⟩)
      | (.error e, _) => .error e
  else .error (.violation (.unknownBackend c.backend))

end ProjectRegistry
