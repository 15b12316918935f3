import ProjectRegistry.Proofs.Tables
import ProjectRegistry.Proofs.Time
import ProjectRegistry.Store.Database.Cells

/-!
# Writing live relations down

A medium says how live values are written in a kind of columns, and how numbers and rights are read
back. Memory writes values as they are and a database writes cells; two more media stay with live
values but lose something of the time, which is how answers are compared that agree in all but that.

What can be asked of relations without reading more than names, numbers and keys has one answer for
live relations and for the same ones written down.
-/

namespace ProjectRegistry

/-- How live values are written in a kind of columns, and numbers and rights read back. -/
structure Medium (C : Columns) where
  settings : Settings → C.Settings
  time : Time.Instant → C.Time
  digest : Digest → C.Digest
  rights : Rights → C.Rights
  properties : Properties → C.Properties
  graph : Json.Value → C.Graph
  kind : EventKind → C.Kind
  number : Int32 → C.Number
  value : C.Number → Int
  rightsOf : C.Rights → Rights
  value_number (n : Int32) : value (number n) = n.toInt
  rightsOf_rights (a : Rights) : rightsOf (rights a) = a

attribute [simp] Medium.value_number Medium.rightsOf_rights

theorem Rights.ofStored_stored (a : Rights) : ofStored a.stored = a := by
  obtain ⟨⟨b⟩⟩ := a
  have hlt : b.toNat < 4294967296 := b.isLt
  have hsize : UInt32.size = 4294967296 := rfl
  have hmod : ((b.toNat : Int) % UInt32.size).toNat = b.toNat := by
    rw [hsize]
    omega
  simp only [ofStored, stored, UInt32.toNat_ofBitVec, hmod]
  congr 1
  exact UInt32.toNat_inj.1 (by simp)

namespace Medium

variable {C : Columns}

/-- Live values, with a say on times. -/
def ofTimes (time : Time.Instant → Time.Instant) : Medium live where
  settings := id
  time := time
  digest := id
  rights := id
  properties := id
  graph := id
  kind := id
  number := id
  value := Int32.toInt
  rightsOf := id
  value_number _ := rfl
  rightsOf_rights _ := rfl

def values : Medium live := ofTimes id

/-- Live values, with times cut to what a database stores of them. -/
def millis : Medium live := ofTimes Time.Instant.truncated

/-- Live values with one and the same time in the place of all others. -/
def timeless : Medium live := ofTimes fun _ => Time.Instant.epoch

/-- The cells of a database. -/
def cells : Medium stored where
  settings := Settings.toText
  time := Time.Instant.millis
  digest := Digest.bytes
  rights := Rights.stored
  properties := Properties.toText
  graph := Json.Value.toText
  kind := EventKind.code
  number := Int32.toInt
  value := id
  rightsOf := Rights.ofStored
  value_number _ := rfl
  rightsOf_rights := Rights.ofStored_stored

end Medium

variable {C : Columns}

def ProjectRow.write (M : Medium C) (p : ProjectRow live) : ProjectRow C where
  name := p.name
  description := p.description
  active := p.active
  pointer := p.pointer.map M.number
  lastVersion := M.number p.lastVersion
  settings := M.settings p.settings
  createdBy := p.createdBy
  lastModifiedBy := p.lastModifiedBy
  createdAt := M.time p.createdAt
  lastModifiedAt := M.time p.lastModifiedAt

def VersionRow.write (M : Medium C) (v : VersionRow live) : VersionRow C :=
  ⟨v.uploader, M.time v.uploadTime, v.fileType, v.fileName, M.digest v.digest, v.resourceId⟩

def EventRow.write (M : Medium C) (e : EventRow live) : EventRow C :=
  ⟨e.project, M.kind e.kind, e.user, e.message, M.time e.time⟩

@[simp] theorem ProjectRow.write_values (p : ProjectRow live) : p.write .values = p := by
  cases p
  simp [write, Medium.values, Medium.ofTimes]

@[simp] theorem VersionRow.write_values (v : VersionRow live) : v.write .values = v := rfl

@[simp] theorem EventRow.write_values (e : EventRow live) : e.write .values = e := rfl

theorem ProjectRow.write_cells (p : ProjectRow live) : p.write .cells = p.store := rfl

theorem VersionRow.write_cells (v : VersionRow live) : v.write .cells = v.store := rfl

theorem EventRow.write_cells (e : EventRow live) : e.write .cells = e.store := rfl

namespace Relations

/-- Live relations written down. -/
def write (M : Medium C) (l : Relations live) : Relations C where
  projects := l.projects.mapRows (ProjectRow.write M)
  versions := l.versions.mapRows (VersionRow.write M)
  grants := l.grants.mapRows M.rights
  bundles := l.bundles.mapRows M.properties
  flows := l.flows.mapRows M.graph
  events := l.events.map (EventRow.write M)

theorem write_values (l : Relations live) : l.write .values = l := by
  have hid {κ α : Type} [Key κ] (f : α → α) (h : ∀ a, f a = a) (t : Table κ α) : t.mapRows f =
    t := by
    apply Table.ext
    simp [Table.map, h]
  cases l
  simp only [write, mk.injEq]
  exact ⟨hid _ (fun p => p.write_values) _, hid _ (fun _ => rfl) _, hid _ (fun _ => rfl) _,
    hid _ (fun _ => rfl) _, hid _ (fun _ => rfl) _, List.map_id _⟩

/-- What says the second on times has the last word. -/
theorem write_ofTimes (f g : Time.Instant → Time.Instant) (l : Relations live) :
    (l.write (.ofTimes f)).write (.ofTimes g) = l.write (.ofTimes fun t => g (f t)) := by
  have hproject (p : ProjectRow live) :
      (p.write (.ofTimes f)).write (.ofTimes g) = p.write (.ofTimes fun t => g (f t)) := by
    simp [ProjectRow.write, Medium.ofTimes]
  simp only [write, Table.mapRows_mapRows, List.map_map, hproject]
  rfl

@[simp] theorem write_millis_timeless (l : Relations live) :
    (l.write .millis).write .timeless = l.write .timeless :=
  write_ofTimes _ _ l

section Asking

variable (M : Medium C) (l : Relations live)

@[simp] theorem find?_projects_write (p : Int32) :
    (l.write M).projects.find? p = (l.projects.find? p).map (ProjectRow.write M) :=
  Table.find?_mapRows _ _ p

@[simp] theorem contains_projects_write (p : Int32) :
    (l.write M).projects.contains p = l.projects.contains p :=
  Table.contains_map _ _ p

@[simp] theorem find?_versions_write (k : Int32 × Int32) :
    (l.write M).versions.find? k = (l.versions.find? k).map (VersionRow.write M) :=
  Table.find?_mapRows _ _ k

@[simp] theorem hasVersion_write (p v : Int32) : (l.write M).hasVersion p v = l.hasVersion p v :=
  Table.contains_map _ _ (p, v)

@[simp] theorem contains_flows_write (k : Int32 × Int32 × String) :
    (l.write M).flows.contains k = l.flows.contains k :=
  Table.contains_map _ _ k

@[simp] theorem holdsName_write (name : String) :
    (l.write M).holdsName name = l.holdsName name := by
  simp [holdsName, write, Table.rows, Table.map, Function.comp_def, ProjectRow.write]

theorem versionsOf_write (p : Int32) :
    (l.write M).versionsOf p = (l.versionsOf p).map fun e => (e.1, e.2.write M) := by
  simp [versionsOf, write, Table.map, List.filter_map, Function.comp_def]

theorem grantsOf_write (p : Int32) :
    (l.write M).grantsOf p = (l.grantsOf p).map fun e => (e.1, M.rights e.2) := by
  simp [grantsOf, write, Table.map, List.filter_map, Function.comp_def]

theorem bundlesOf_write (p v : Int32) :
    (l.write M).bundlesOf p v = (l.bundlesOf p v).map fun e => (e.1, M.properties e.2) := by
  simp [bundlesOf, write, Table.map, List.filter_map, Function.comp_def]

theorem flowsOf_write (p v : Int32) :
    (l.write M).flowsOf p v = (l.flowsOf p v).map fun e => (e.1, M.graph e.2) := by
  simp [flowsOf, write, Table.map, List.filter_map, Function.comp_def]

theorem eventsOf_write (p : Int32) :
    (l.write M).eventsOf p = (l.eventsOf p).map (EventRow.write M) := by
  simp only [eventsOf, write, List.filter_map]
  rfl

end Asking

end Relations

end ProjectRegistry
