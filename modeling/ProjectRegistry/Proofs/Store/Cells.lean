import ProjectRegistry.Proofs.Store.Medium
import ProjectRegistry.Proofs.Store.Texts

/-!
# Reading cells back

What was stored of a live row can be read, and is the row itself but for times below a millisecond.
-/

namespace ProjectRegistry

open Time (Instant)

theorem readTime_millis {t : Instant} (h : t.OnCalendar) : readTime t.millis = .ok t.truncated := by
  rw [readTime, Instant.ofMillis?_millis h]

theorem readDigest_bytes (d : Digest) : readDigest d.bytes = .ok d := by
  simp [readDigest, Digest.ofBytes?, d.size]

theorem readNumber_toInt (cell : Cell) (n : Int32) : readNumber cell n.toInt = .ok n := by
  have := n.toInt_le
  have := n.minValue_le_toInt
  rw [readNumber, if_neg (by omega), if_neg (by omega), Int32.ofInt_toInt]

theorem readNumber?_toInt (cell : Cell) (n : Option Int32) :
    readNumber? cell (n.map Int32.toInt) = .ok n := by
  cases n with
  | none => rfl
  | some n => rw [Option.map_some, readNumber?, readNumber_toInt]

theorem readSettings_toText {s : Settings} (h : s.Exact) (hs : s.Shallow) :
    readSettings s.toText = .ok s := by
  rw [readSettings, Settings.ofText?_toText h, if_pos hs]

theorem readProperties_toText (p : Properties) : readProperties p.toText = .ok p := by
  rw [readProperties, Properties.ofText?_toText]

theorem readGraph_toText {g : Json.Value} (h : g.Exact) (hg : g.nesting ≤ Json.nestingLimit) :
    readGraph g.toText = .ok g := by
  rw [readGraph, Json.Value.ofText?_toText h, if_pos hg]

theorem readKind_code (k : EventKind) : readKind k.code = .ok k := by cases k <;> rfl

/-- Whether a row of a project can be read back. -/
structure ProjectRow.Readable (p : ProjectRow live) : Prop where
  exact : p.settings.Exact
  shallow : p.settings.Shallow
  createdAt : p.createdAt.OnCalendar
  lastModifiedAt : p.lastModifiedAt.OnCalendar

theorem ProjectRow.load_store {p : ProjectRow live} (h : p.Readable) :
    p.store.load = .ok (p.write .millis) := by
  simp only [load, store, readNumber?_toInt, readSettings_toText h.exact h.shallow,
    readTime_millis h.createdAt, readTime_millis h.lastModifiedAt]
  simp [write, Medium.millis, Medium.ofTimes]
  rfl

theorem EventRow.load_store {e : EventRow live} (h : e.time.OnCalendar) :
    e.store.load = .ok (e.write .millis) := by
  simp only [load, store, readKind_code, readTime_millis h]
  rfl

theorem VersionRow.load_store {v : VersionRow live} (h : v.uploadTime.OnCalendar) :
    v.store.load = .ok { v with uploadTime := v.uploadTime.truncated } := by
  simp only [load, store, readDigest_bytes, readTime_millis h]
  rfl

theorem loadAll_ok {α β : Type} {load : α → Except Failure β} {f : α → β} {as : List α}
    (h : ∀ a ∈ as, load a = .ok (f a)) : loadAll load as = .ok (as.map f) := by
  induction as with
  | nil => rfl
  | cons a rest ih =>
    have hrest := ih fun b hb => h b (List.mem_cons_of_mem a hb)
    simp only [loadAll, h a List.mem_cons_self, hrest, List.map_cons]

theorem loadAll_map {α β γ : Type} (f : α → β) (load : β → Except Failure γ) (as : List α) :
    loadAll load (as.map f) = loadAll (fun a => load (f a)) as := by
  induction as with
  | nil => rfl
  | cons a rest ih =>
    rw [List.map_cons, loadAll, loadAll, ih]

end ProjectRegistry
