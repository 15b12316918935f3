import ProjectRegistry.Event
import ProjectRegistry.Flow
import ProjectRegistry.Proofs.Json.Layouts
import ProjectRegistry.Proofs.Rights
import ProjectRegistry.Proofs.Store.Texts
import ProjectRegistry.Proofs.Time.Texts
import ProjectRegistry.Version

/-!
# Spellings of records

Each kind of record has a layout, and a relation that says for each of its fields which trees give
it. Texts of rights, times and event kinds give what they stand for, in whatever form they do; maps
and sets are given by their entries, put one after the other.

A reader of records asks for its fields one by one, so what it reads is said by one equivalence for
each kind: the fields as they were found have to give the parts of the record. From this it follows
that the reader is governed by the layout, and so are the texts that are read.
-/

namespace ProjectRegistry

open Json (Tree Layout Required Optional GivesAs GivesParsed GivesItems GivesMembers)
open Json.Fields (ne_none_of_required)

/-! ## Grants -/

namespace Grant

def layout : Layout where
  names := ["principal", "isGroup", "permission"]
  required := ["principal", "isGroup", "permission"]
  least := 3
  distinct := by decide
  known := by decide
  last := by decide

structure GivenBy (g : Grant) (found : String → Option Tree) : Prop where
  principal : Required found "principal" (GivesAs .text) g.principal
  isGroup : Required found "isGroup" (GivesAs .bool) g.isGroup
  rights : Required found "permission" (GivesParsed Rights.ofText?) g.rights

theorem ofTree?_eq_some_iff {g : Grant} {room : Nat} {t : Tree} :
    ofTree? room t = some g ↔ ∃ fs inside, Json.fields? layout.names room t = some (fs, inside) ∧
      fs.required "principal" Tree.text? = some g.principal ∧
      fs.required "isGroup" Tree.bool? = some g.isGroup ∧
      fs.required "permission" Rights.ofTree? = some g.rights := by
  cases g
  simp [ofTree?, layout, Option.bind_eq_some_iff, -Bool.exists_bool]

theorem governs : layout.Governs GivenBy ofTree? where
  reads hfields hagree hgiven := ofTree?_eq_some_iff.2 ⟨_, _, hfields,
    hagree.required Json.accepts_text (by decide) hgiven.principal,
    hagree.required Json.accepts_bool (by decide) hgiven.isGroup,
    hagree.required (Json.accepts_parsed Rights.ofText?) (by decide) hgiven.rights⟩
  finds h := by
    obtain ⟨fs, inside, hfields, hprincipal, hisGroup, hrights⟩ := ofTree?_eq_some_iff.1 h
    refine ⟨fs, inside, hfields, ?_⟩
    simp only [layout, List.forall_mem_cons]
    exact ⟨ne_none_of_required hprincipal, ne_none_of_required hisGroup,
      ne_none_of_required hrights, List.forall_mem_nil _⟩

theorem gives_toTree (g : Grant) : layout.Gives GivenBy g g.toTree :=
  ⟨_, Json.presents_record _ layout.distinct (.refl _),
    ⟨_, by simp, rfl⟩, ⟨_, by simp, rfl⟩,
    ⟨g.rights.toTree, by simp, _, rfl, g.rights.ofText?_toText⟩⟩

end Grant

/-! ## Settings -/

namespace Settings

def layout : Layout where
  names := ["proxyUsers", "metadata"]
  required := []
  least := 0
  distinct := by decide
  known := by decide
  last := by decide

structure GivenBy (s : Settings) (found : String → Option Tree) : Prop where
  proxyUsers : ∃ users, Optional found "proxyUsers" [] (GivesItems (GivesAs .text)) users ∧
    .ofList (users.map fun u => (u, ())) = s.proxyUsers
  metadata : ∃ entries, Optional found "metadata" [] (GivesMembers Json.Value.GivenBy) entries ∧
    .ofList entries = s.metadata

theorem ofTree?_eq_some_iff {s : Settings} {room : Nat} {t : Tree} :
    ofTree? room t = some s ↔ ∃ fs inside users entries,
      Json.fields? layout.names room t = some (fs, inside) ∧
      fs.withDefault "proxyUsers" [] (Tree.array? inside fun _ => Tree.text?) = some users ∧
      fs.withDefault "metadata" [] (Tree.members? inside Json.Value.ofTree?) = some entries ∧
      Settings.mk (.ofList (users.map fun u => (u, ()))) (.ofList entries) = s := by
  simp [ofTree?, layout, Option.bind_eq_some_iff]

theorem governs : layout.Governs GivenBy ofTree? where
  reads hfields hagree hgiven := by
    obtain ⟨users, husers, hproxyUsers⟩ := hgiven.proxyUsers
    obtain ⟨entries, hentries, hmetadata⟩ := hgiven.metadata
    refine ofTree?_eq_some_iff.2 ⟨_, _, users, entries, hfields,
      hagree.withDefault Json.accepts_text.items (by decide) husers,
      hagree.withDefault Json.accepts_value.members (by decide) hentries, ?_⟩
    rw [hproxyUsers, hmetadata]
  finds h := by
    obtain ⟨fs, inside, _, _, hfields, -⟩ := ofTree?_eq_some_iff.1 h
    exact ⟨fs, inside, hfields, List.forall_mem_nil _⟩

theorem Exact.gives_toTree {s : Settings} (h : s.Exact) : layout.Gives GivenBy s s.toTree :=
  ⟨_, Json.presents_record _ layout.distinct (.refl _),
    ⟨s.proxyUsers.keys, .inr ⟨_, by simp, Json.givesItems_map fun _ _ => rfl⟩,
      s.ofList_proxyUsers⟩,
    ⟨s.metadata.entries, .inr ⟨_, by simp, Json.givesMembers_record fun e he =>
      (h e he).givenBy_toTree⟩, Table.ofList_entries _⟩⟩

end Settings

/-! ## Flows and bundles -/

namespace Flow

def layout : Layout where
  names := ["id", "graph"]
  required := ["id"]
  least := 1
  distinct := by decide
  known := by decide
  last := by decide

structure GivenBy (f : Flow) (found : String → Option Tree) : Prop where
  id : Required found "id" (GivesAs .text) f.id
  graph : Optional found "graph" .null Json.Value.GivenBy f.graph

theorem ofTree?_eq_some_iff {f : Flow} {room : Nat} {t : Tree} :
    ofTree? room t = some f ↔ ∃ fs inside, Json.fields? layout.names room t = some (fs, inside) ∧
      fs.required "id" Tree.text? = some f.id ∧
      fs.withDefault "graph" .null (Json.Value.ofTree? inside) = some f.graph := by
  cases f
  simp [ofTree?, layout, Option.bind_eq_some_iff]

theorem governs : layout.Governs GivenBy ofTree? where
  reads hfields hagree hgiven := ofTree?_eq_some_iff.2 ⟨_, _, hfields,
    hagree.required Json.accepts_text (by decide) hgiven.id,
    hagree.withDefault Json.accepts_value (by decide) hgiven.graph⟩
  finds h := by
    obtain ⟨fs, inside, hfields, hid, -⟩ := ofTree?_eq_some_iff.1 h
    refine ⟨fs, inside, hfields, ?_⟩
    simp only [layout, List.forall_mem_cons]
    exact ⟨ne_none_of_required hid, List.forall_mem_nil _⟩

/-- No flow is read that has a graph with the reserved key alone. -/
theorem ofTree?_ne (room : Nat) (t : Tree) (id : String) (v : Json.Value) :
    ofTree? room t ≠ some ⟨id, .object [(Json.embeddingKey, v)]⟩ := by
  intro h
  obtain ⟨fs, inside, -, -, hgraph⟩ := ofTree?_eq_some_iff.1 h
  rw [Json.Fields.withDefault] at hgraph
  split at hgraph
  · cases hgraph
  · exact Json.Value.ofTree?_ne _ _ v hgraph

theorem gives_toTree {f : Flow} (h : f.graph.Exact) : layout.Gives GivenBy f f.toTree :=
  ⟨_, Json.presents_record _ layout.distinct (.refl _), ⟨_, by simp, rfl⟩,
    .inr ⟨_, by simp, h.givenBy_toTree⟩⟩

end Flow

/-- Properties are given by their entries, of which the last one of a key counts. -/
def Properties.GivenBy (p : Properties) (t : Tree) : Prop :=
  ∃ entries, GivesMembers (GivesAs .text) entries t ∧ .ofList entries = p

theorem Properties.accepts : Json.Accepts GivenBy ofTree? := by
  rintro p t room ⟨entries, hentries, rfl⟩ hroom
  rw [ofTree?, show Tree.members? room _ t = _ from Json.accepts_text.members hentries hroom,
    Option.map_some]

namespace Bundle

def layout : Layout where
  names := ["pathName", "entries"]
  required := ["pathName"]
  least := 1
  distinct := by decide
  known := by decide
  last := by decide

structure GivenBy (b : Bundle) (found : String → Option Tree) : Prop where
  path : Required found "pathName" (GivesAs .text) b.path
  properties : Optional found "entries" .empty Properties.GivenBy b.properties

theorem ofTree?_eq_some_iff {b : Bundle} {room : Nat} {t : Tree} :
    ofTree? room t = some b ↔ ∃ fs inside, Json.fields? layout.names room t = some (fs, inside) ∧
      fs.required "pathName" Tree.text? = some b.path ∧
      fs.withDefault "entries" .empty (Properties.ofTree? inside) = some b.properties := by
  cases b
  simp [ofTree?, layout, Option.bind_eq_some_iff]

theorem governs : layout.Governs GivenBy ofTree? where
  reads hfields hagree hgiven := ofTree?_eq_some_iff.2 ⟨_, _, hfields,
    hagree.required Json.accepts_text (by decide) hgiven.path,
    hagree.withDefault Properties.accepts (by decide) hgiven.properties⟩
  finds h := by
    obtain ⟨fs, inside, hfields, hpath, -⟩ := ofTree?_eq_some_iff.1 h
    refine ⟨fs, inside, hfields, ?_⟩
    simp only [layout, List.forall_mem_cons]
    exact ⟨ne_none_of_required hpath, List.forall_mem_nil _⟩

theorem gives_toTree (b : Bundle) : layout.Gives GivenBy b b.toTree :=
  ⟨_, Json.presents_record _ layout.distinct (.refl _), ⟨_, by simp, rfl⟩,
    .inr ⟨b.properties.toTree, by simp, b.properties.pairs,
      Json.givesMembers_record fun _ _ => rfl, b.properties.ofList_pairs⟩⟩

end Bundle

/-! ## Events -/

/-- Kinds are given by their names, alone or as the only key of an object with null. -/
def EventKind.GivenBy (k : EventKind) (t : Tree) : Prop :=
  t = .text k.name ∨ t = .object [(some k.name, .null)]

theorem EventKind.accepts : Json.Accepts GivenBy ofTree? := by
  rintro k t room (rfl | rfl) hroom
  · exact k.ofName?_name
  · have hpos : room ≠ 0 := by
      rintro rfl
      exact absurd hroom (Nat.not_succ_le_zero _)
    rw [ofTree?, if_neg hpos, Option.bind_some, k.ofName?_name]

namespace Event

def layout : Layout where
  names := ["projectId", "eventType", "user", "message", "time"]
  required := ["projectId", "eventType", "user", "message", "time"]
  least := 5
  distinct := by decide
  known := by decide
  last := by decide

structure GivenBy (e : Event) (found : String → Option Tree) : Prop where
  project : Required found "projectId" (GivesAs .ofInt32) e.project
  kind : Required found "eventType" EventKind.GivenBy e.kind
  user : Required found "user" (GivesAs .text) e.user
  message : Required found "message" (GivesAs .text) e.message
  time : Required found "time" (GivesParsed Time.Instant.ofText?) e.time

theorem ofTree?_eq_some_iff {e : Event} {room : Nat} {t : Tree} :
    ofTree? room t = some e ↔ ∃ fs inside, Json.fields? layout.names room t = some (fs, inside) ∧
      fs.required "projectId" Tree.int32? = some e.project ∧
      fs.required "eventType" (EventKind.ofTree? inside) = some e.kind ∧
      fs.required "user" Tree.text? = some e.user ∧
      fs.required "message" Tree.text? = some e.message ∧
      (fs.required "time" fun t => t.text?.bind Time.Instant.ofText?) = some e.time := by
  cases e
  simp [ofTree?, layout, Option.bind_eq_some_iff]

theorem governs : layout.Governs GivenBy ofTree? where
  reads hfields hagree hgiven := ofTree?_eq_some_iff.2 ⟨_, _, hfields,
    hagree.required Json.accepts_int32 (by decide) hgiven.project,
    hagree.required EventKind.accepts (by decide) hgiven.kind,
    hagree.required Json.accepts_text (by decide) hgiven.user,
    hagree.required Json.accepts_text (by decide) hgiven.message,
    hagree.required (Json.accepts_parsed Time.Instant.ofText?) (by decide) hgiven.time⟩
  finds h := by
    obtain ⟨fs, inside, hfields, hproject, hkind, huser, hmessage, htime⟩ :=
      ofTree?_eq_some_iff.1 h
    refine ⟨fs, inside, hfields, ?_⟩
    simp only [layout, List.forall_mem_cons]
    exact ⟨ne_none_of_required hproject, ne_none_of_required hkind, ne_none_of_required huser,
      ne_none_of_required hmessage, ne_none_of_required htime, List.forall_mem_nil _⟩

theorem gives_toTree {e : Event} (htime : e.time.Plain) : layout.Gives GivenBy e e.toTree :=
  ⟨_, Json.presents_record _ layout.distinct (.refl _),
    ⟨_, by simp, rfl⟩, ⟨e.kind.toTree, by simp, .inl rfl⟩, ⟨_, by simp, rfl⟩, ⟨_, by simp, rfl⟩,
    ⟨_, by simp, _, rfl, Time.Instant.ofText?_toText htime⟩⟩

end Event

/-! ## Versions -/

namespace Version

def layout : Layout where
  names := ["projectId", "version", "uploader", "uploadTime", "fileType", "fileName", "md5",
    "resourceId"]
  required := ["projectId", "version", "uploader", "uploadTime", "fileType", "fileName", "md5",
    "resourceId"]
  least := 8
  distinct := by decide
  known := by decide
  last := by decide

structure GivenBy (v : Version) (found : String → Option Tree) : Prop where
  project : Required found "projectId" (GivesAs .ofInt32) v.project
  number : Required found "version" (GivesAs .ofInt32) v.number
  uploader : Required found "uploader" (GivesAs .text) v.uploader
  uploadTime : Required found "uploadTime" (GivesParsed Time.Instant.ofText?) v.uploadTime
  fileType : Required found "fileType" (GivesAs .text) v.fileType
  fileName : Required found "fileName" (GivesAs .text) v.fileName
  digest : Required found "md5" (fun d => GivesItems (GivesAs .ofByte) d.bytes) v.digest
  resourceId : Required found "resourceId" (GivesAs .text) v.resourceId

end Version

theorem Digest.accepts :
    Json.Accepts (fun d : Digest => GivesItems (GivesAs .ofByte) d.bytes)
      fun room t => (Tree.array? room (fun _ => Tree.byte?) t).bind ofBytes? := by
  intro d t room hgives hroom
  have hbytes := Json.accepts_byte.items hgives hroom
  exact Option.bind_eq_some_iff.2 ⟨_, hbytes, dif_pos d.size⟩

namespace Version

theorem ofTree?_eq_some_iff {v : Version} {room : Nat} {t : Tree} :
    ofTree? room t = some v ↔ ∃ fs inside, Json.fields? layout.names room t = some (fs, inside) ∧
      fs.required "projectId" Tree.int32? = some v.project ∧
      fs.required "version" Tree.int32? = some v.number ∧
      fs.required "uploader" Tree.text? = some v.uploader ∧
      (fs.required "uploadTime" fun t => t.text?.bind Time.Instant.ofText?) =
        some v.uploadTime ∧
      fs.required "fileType" Tree.text? = some v.fileType ∧
      fs.required "fileName" Tree.text? = some v.fileName ∧
      (fs.required "md5" fun t =>
        (Tree.array? inside (fun _ => Tree.byte?) t).bind Digest.ofBytes?) = some v.digest ∧
      fs.required "resourceId" Tree.text? = some v.resourceId := by
  cases v
  simp [ofTree?, layout, Option.bind_eq_some_iff]

theorem governs : layout.Governs GivenBy ofTree? where
  reads hfields hagree hgiven := ofTree?_eq_some_iff.2 ⟨_, _, hfields,
    hagree.required Json.accepts_int32 (by decide) hgiven.project,
    hagree.required Json.accepts_int32 (by decide) hgiven.number,
    hagree.required Json.accepts_text (by decide) hgiven.uploader,
    hagree.required (Json.accepts_parsed Time.Instant.ofText?) (by decide) hgiven.uploadTime,
    hagree.required Json.accepts_text (by decide) hgiven.fileType,
    hagree.required Json.accepts_text (by decide) hgiven.fileName,
    hagree.required Digest.accepts (by decide) hgiven.digest,
    hagree.required Json.accepts_text (by decide) hgiven.resourceId⟩
  finds h := by
    obtain ⟨fs, inside, hfields, hproject, hnumber, huploader, htime, htype, hname, hdigest,
      hresource⟩ := ofTree?_eq_some_iff.1 h
    refine ⟨fs, inside, hfields, ?_⟩
    simp only [layout, List.forall_mem_cons]
    exact ⟨ne_none_of_required hproject, ne_none_of_required hnumber,
      ne_none_of_required huploader, ne_none_of_required htime, ne_none_of_required htype,
      ne_none_of_required hname, ne_none_of_required hdigest, ne_none_of_required hresource,
      List.forall_mem_nil _⟩

theorem gives_toTree {v : Version} (htime : v.uploadTime.Plain) :
    layout.Gives GivenBy v v.toTree :=
  ⟨_, Json.presents_record _ layout.distinct (.refl _),
    ⟨_, by simp, rfl⟩, ⟨_, by simp, rfl⟩, ⟨_, by simp, rfl⟩,
    ⟨_, by simp, _, rfl, Time.Instant.ofText?_toText htime⟩, ⟨_, by simp, rfl⟩, ⟨_, by simp, rfl⟩,
    ⟨_, by simp, Json.givesItems_map fun _ _ => rfl⟩, ⟨_, by simp, rfl⟩⟩

end Version

/-! ## Projects -/

namespace Project

def layout : Layout where
  names := fieldNames
  required := ["id", "name", "description", "active", "settings", "createdBy", "lastModifiedBy",
    "createdAt", "lastModifiedAt"]
  least := 11
  distinct := by decide
  known := by decide
  last := by decide

structure GivenBy (p : Project) (found : String → Option Tree) : Prop where
  id : Required found "id" (GivesAs .ofInt32) p.id
  name : Required found "name" (GivesAs .text) p.name
  description : Required found "description" (GivesAs .text) p.description
  active : Required found "active" (GivesAs .bool) p.active
  version : Optional found "version" none (Json.GivesNullable (GivesAs .ofInt32)) p.version
  settings : Required found "settings" (Settings.layout.Gives Settings.GivenBy) p.settings
  grants : Optional found "permissions" [] (GivesItems (Grant.layout.Gives Grant.GivenBy)) p.grants
  createdBy : Required found "createdBy" (GivesAs .text) p.createdBy
  lastModifiedBy : Required found "lastModifiedBy" (GivesAs .text) p.lastModifiedBy
  createdAt : Required found "createdAt" (GivesParsed Time.Instant.ofText?) p.createdAt
  lastModifiedAt :
    Required found "lastModifiedAt" (GivesParsed Time.Instant.ofText?) p.lastModifiedAt

theorem ofTree?_eq_some_iff {p : Project} {room : Nat} {t : Tree} :
    ofTree? room t = some p ↔ ∃ fs inside, Json.fields? layout.names room t = some (fs, inside) ∧
      fs.required "id" Tree.int32? = some p.id ∧
      fs.required "name" Tree.text? = some p.name ∧
      fs.required "description" Tree.text? = some p.description ∧
      fs.required "active" Tree.bool? = some p.active ∧
      fs.withDefault "version" none (Tree.nullable? Tree.int32?) = some p.version ∧
      fs.required "settings" (Settings.ofTree? inside) = some p.settings ∧
      fs.withDefault "permissions" [] (Tree.array? inside Grant.ofTree?) = some p.grants ∧
      fs.required "createdBy" Tree.text? = some p.createdBy ∧
      fs.required "lastModifiedBy" Tree.text? = some p.lastModifiedBy ∧
      (fs.required "createdAt" fun t => t.text?.bind Time.Instant.ofText?) = some p.createdAt ∧
      (fs.required "lastModifiedAt" fun t => t.text?.bind Time.Instant.ofText?) =
        some p.lastModifiedAt := by
  -- the fields one after the other, in the order in which they are read
  constructor
  · intro h
    unfold ofTree? at h
    obtain ⟨⟨fs, inside⟩, hfields, h⟩ := Option.bind_eq_some_iff.1 h
    obtain ⟨id, hid, h⟩ := Option.bind_eq_some_iff.1 h
    obtain ⟨name, hname, h⟩ := Option.bind_eq_some_iff.1 h
    obtain ⟨description, hdescription, h⟩ := Option.bind_eq_some_iff.1 h
    obtain ⟨active, hactive, h⟩ := Option.bind_eq_some_iff.1 h
    obtain ⟨version, hversion, h⟩ := Option.bind_eq_some_iff.1 h
    obtain ⟨settings, hsettings, h⟩ := Option.bind_eq_some_iff.1 h
    obtain ⟨grants, hgrants, h⟩ := Option.bind_eq_some_iff.1 h
    obtain ⟨creator, hcreator, h⟩ := Option.bind_eq_some_iff.1 h
    obtain ⟨modifier, hmodifier, h⟩ := Option.bind_eq_some_iff.1 h
    obtain ⟨created, hcreated, h⟩ := Option.bind_eq_some_iff.1 h
    obtain ⟨modified, hmodified, h⟩ := Option.bind_eq_some_iff.1 h
    cases h
    exact ⟨fs, inside, hfields, hid, hname, hdescription, hactive, hversion, hsettings, hgrants,
      hcreator, hmodifier, hcreated, hmodified⟩
  · rintro ⟨fs, inside, hfields, hid, hname, hdescription, hactive, hversion, hsettings, hgrants,
      hcreator, hmodifier, hcreated, hmodified⟩
    unfold ofTree?
    refine Option.bind_eq_some_iff.2 ⟨_, hfields, ?_⟩
    refine Option.bind_eq_some_iff.2 ⟨_, hid, ?_⟩
    refine Option.bind_eq_some_iff.2 ⟨_, hname, ?_⟩
    refine Option.bind_eq_some_iff.2 ⟨_, hdescription, ?_⟩
    refine Option.bind_eq_some_iff.2 ⟨_, hactive, ?_⟩
    refine Option.bind_eq_some_iff.2 ⟨_, hversion, ?_⟩
    refine Option.bind_eq_some_iff.2 ⟨_, hsettings, ?_⟩
    refine Option.bind_eq_some_iff.2 ⟨_, hgrants, ?_⟩
    refine Option.bind_eq_some_iff.2 ⟨_, hcreator, ?_⟩
    refine Option.bind_eq_some_iff.2 ⟨_, hmodifier, ?_⟩
    refine Option.bind_eq_some_iff.2 ⟨_, hcreated, ?_⟩
    exact Option.bind_eq_some_iff.2 ⟨_, hmodified, rfl⟩

theorem governs : layout.Governs GivenBy ofTree? where
  reads hfields hagree hgiven := ofTree?_eq_some_iff.2 ⟨_, _, hfields,
    hagree.required Json.accepts_int32 (by decide) hgiven.id,
    hagree.required Json.accepts_text (by decide) hgiven.name,
    hagree.required Json.accepts_text (by decide) hgiven.description,
    hagree.required Json.accepts_bool (by decide) hgiven.active,
    hagree.withDefault (Json.accepts_int32.nullable fun _ => rfl) (by decide) hgiven.version,
    hagree.required Settings.governs.accepts (by decide) hgiven.settings,
    hagree.withDefault (Json.Accepts.items Grant.governs.accepts) (by decide) hgiven.grants,
    hagree.required Json.accepts_text (by decide) hgiven.createdBy,
    hagree.required Json.accepts_text (by decide) hgiven.lastModifiedBy,
    hagree.required (Json.accepts_parsed Time.Instant.ofText?) (by decide) hgiven.createdAt,
    hagree.required (Json.accepts_parsed Time.Instant.ofText?) (by decide) hgiven.lastModifiedAt⟩
  finds h := by
    obtain ⟨fs, inside, hfields, hid, hname, hdescription, hactive, -, hsettings, -, hcreator,
      hmodifier, hcreated, hmodified⟩ := ofTree?_eq_some_iff.1 h
    refine ⟨fs, inside, hfields, ?_⟩
    simp only [layout, List.forall_mem_cons]
    exact ⟨ne_none_of_required hid, ne_none_of_required hname, ne_none_of_required hdescription,
      ne_none_of_required hactive, ne_none_of_required hsettings, ne_none_of_required hcreator,
      ne_none_of_required hmodifier, ne_none_of_required hcreated,
      ne_none_of_required hmodified, List.forall_mem_nil _⟩

/-- A project whose metadata has whole numbers only and whose times are of years of four digits. -/
structure Plain (p : Project) : Prop where
  settings : p.settings.Regular
  createdAt : p.createdAt.Plain
  lastModifiedAt : p.lastModifiedAt.Plain

/-- The names of the fields that are written, with or without a version. -/
theorem written_sublist (version : Option Int32) :
    (["id", "name", "description", "active"] ++ (versionMember version).map (·.1) ++
      ["settings", "permissions", "createdBy", "lastModifiedBy", "createdAt",
        "lastModifiedAt"]).Sublist fieldNames := by
  cases version with
  | none => decide
  | some v => exact .refl _

theorem get?_versionMember {version : Option Int32} {fs : Json.Fields} {name : String}
    (h : name ≠ "version") :
    Json.Fields.get? (versionMember version ++ fs) name = fs.get? name := by
  cases version with
  | none => rfl
  | some v => exact Json.Fields.get?_cons.trans (if_neg h)

theorem Plain.gives_toTree {p : Project} (h : p.Plain) (hfree : p.settings.Unreserved) :
    layout.Gives GivenBy p p.toTree := by
  have hexact := Settings.exact_iff.2 ⟨h.settings, hfree⟩
  have hnames := written_sublist p.version
  refine ⟨_, Json.presents_record fieldNames layout.distinct (by simpa using hnames), ?_⟩
  exact {
    id := ⟨_, by simp, rfl⟩
    name := ⟨_, by simp, rfl⟩
    description := ⟨_, by simp, rfl⟩
    active := ⟨_, by simp, rfl⟩
    version := by
      cases hversion : p.version with
      | none => exact .inl ⟨by simp [versionMember], rfl⟩
      | some v => exact .inr ⟨.ofInt32 v, by simp [versionMember], .inr ⟨v, rfl, rfl⟩⟩
    settings := ⟨_, by simp [get?_versionMember], hexact.gives_toTree⟩
    grants := .inr ⟨_, by simp [get?_versionMember],
      Json.givesItems_map fun g _ => g.gives_toTree⟩
    createdBy := ⟨_, by simp [get?_versionMember], rfl⟩
    lastModifiedBy := ⟨_, by simp [get?_versionMember], rfl⟩
    createdAt := ⟨_, by simp [get?_versionMember], _, rfl,
      Time.Instant.ofText?_toText h.createdAt⟩
    lastModifiedAt := ⟨_, by simp [get?_versionMember], _, rfl,
      Time.Instant.ofText?_toText h.lastModifiedAt⟩ }

end Project

/-! ## Texts -/

/-- Texts are read as records if they spell, in any way, what gives these through its fields: an
object with the fields in any order and others between them, or an array of them. Fields that come
twice or are missing, arrays of another length and anything behind the value are refused. Free JSON
in the fields is given by objects without the reserved key in front; no text is read as a flow whose
graph has this key alone. -/
theorem spellings_decide_records (s : String) :
    Project.layout.Decides Project.GivenBy Project.toTree Project.ofTree?
        (fun p => p.Plain ∧ p.settings.Unreserved) s ∧
      Settings.layout.Decides Settings.GivenBy Settings.toTree Settings.ofTree? Settings.Exact s ∧
      Version.layout.Decides Version.GivenBy Version.toTree Version.ofTree?
        (fun v => v.uploadTime.Plain) s ∧
      Grant.layout.Decides Grant.GivenBy Grant.toTree Grant.ofTree? (fun _ => True) s ∧
      Bundle.layout.Decides Bundle.GivenBy Bundle.toTree Bundle.ofTree? (fun _ => True) s ∧
      Flow.layout.Decides Flow.GivenBy Flow.toTree Flow.ofTree? (fun f => f.graph.Exact) s ∧
      Event.layout.Decides Event.GivenBy Event.toTree Event.ofTree? (fun e => e.time.Plain) s ∧
      ∀ id v, (Tree.ofText? s).bind (Flow.ofTree? Json.nestingLimit) ≠
        some ⟨id, .object [(Json.embeddingKey, v)]⟩ := by
  refine ⟨?projects, ?settings, ?versions, ?grants, ?bundles, ?flows, ?events, fun id v h => ?_⟩
  case projects => exact Project.governs.decides (fun h => h.1.gives_toTree h.2) s
  case settings => exact Settings.governs.decides Settings.Exact.gives_toTree s
  case versions => exact Version.governs.decides Version.gives_toTree s
  case grants => exact Grant.governs.decides (fun _ => Grant.gives_toTree _) s
  case bundles => exact Bundle.governs.decides (fun _ => Bundle.gives_toTree _) s
  case flows => exact Flow.governs.decides Flow.gives_toTree s
  case events => exact Event.governs.decides Event.gives_toTree s
  obtain ⟨t, -, hread⟩ := Option.bind_eq_some_iff.1 h
  exact Flow.ofTree?_ne _ t id v hread

example : (Tree.ofText? "\x7b \"isGroup\" : false, \"x\":[1E2,\x7b\x7d],
    \"permissio\\u006e\":\"READ\", \"principal\":\"a\\n\"\x7d").bind
      (Grant.ofTree? Json.nestingLimit) = some ⟨"a\n", false, ⟨1⟩⟩ := by decide +kernel
example : (Tree.ofText? "[\"a\", false, \"READ\"]").bind (Grant.ofTree? Json.nestingLimit) =
    some ⟨"a", false, ⟨1⟩⟩ := by decide +kernel

end ProjectRegistry
