import ProjectRegistry.Proofs.Time
import ProjectRegistry.Registry.Call

/-!
# Answers apart from times

Two registries that draw their times from different clocks, or store them with different precision,
can still be compared in everything else. Here that is done by putting one and the same time in the
place of all others.
-/

namespace ProjectRegistry

open Time.Instant (epoch)

def Project.timeless (p : Project) : Project :=
  { p with createdAt := epoch, lastModifiedAt := epoch }

def Version.timeless (v : Version) : Version := { v with uploadTime := epoch }

def VersionFile.timeless (f : VersionFile) : VersionFile := { f with version := f.version.timeless }

def Event.timeless (e : Event) : Event := { e with time := epoch }

def Reply.timeless : Reply → Reply
  | .project p => .project p.timeless
  | .projects ps => .projects (ps.map Project.timeless)
  | .events es => .events (es.map Event.timeless)
  | .version f => .version (f.map VersionFile.timeless)
  | .file f => .file f.timeless
  | .versions vs => .versions (vs.map Version.timeless)
  | reply => reply

/-- Lists that are the same apart from times are the same in all that looks at no times. -/
theorem map_eq_of_timeless {α β : Type} {timeless : α → α} {f : α → β} {as as' : List α}
    (h : as.map timeless = as'.map timeless) (hf : ∀ a, f (timeless a) = f a) :
    as.map f = as'.map f := by
  have hmap := congrArg (List.map f) h
  rw [List.map_map, List.map_map] at hmap
  calc as.map f = as.map (f ∘ timeless) := List.map_congr_left fun a _ => (hf a).symm
    _ = as'.map (f ∘ timeless) := hmap
    _ = as'.map f := List.map_congr_left fun a _ => hf a

end ProjectRegistry
