import ProjectRegistry.Proofs.Spellings

/-!
# Round trips

Whatever the registry hands out comes back from its text, as long as the text is not nested too
deep and no object of free JSON in it has the reserved key in front: what such an object is read as
is never the object. Each kind is written as a record or as a single text; what is written for a
record gives it through its fields, and that is what the reader accepts.

Some things are asked of what is written, where there are any: the numbers of free JSON are whole,
since doubles may be read as others, and times are in years of four digits and outside of leap
seconds.
-/

namespace ProjectRegistry

open Json (Tree Returns nestingLimit)

/-! ## Fields -/

theorem Rights.returns (a : Rights) : Returns toTree (fun _ => ofTree?) a :=
  (Json.returns_text a.toText).via a.ofText?_toText

theorem Digest.returns (d : Digest) :
    Returns (fun d : Digest => .array (d.bytes.map .ofByte))
      (fun room t => (Tree.array? room (fun _ => Tree.byte?) t).bind ofBytes?) d :=
  (Json.returns_array d.bytes fun b _ => Json.returns_byte b).via (dif_pos d.size)

theorem EventKind.returns (k : EventKind) : Returns toTree ofTree? k :=
  ⟨trivial, fun _ => k.ofName?_name⟩

/-! ## Records -/

theorem Grant.returns (g : Grant) : Returns toTree ofTree? g :=
  ⟨⟨trivial, trivial, trivial, trivial⟩, governs.accepts g.gives_toTree⟩

theorem Bundle.returns (b : Bundle) : Returns toTree ofTree? b :=
  ⟨⟨trivial, b.properties.returns.wellFormed, trivial⟩, governs.accepts b.gives_toTree⟩

theorem Flow.wellFormed_toTree (f : Flow) : f.toTree.WellFormed :=
  ⟨trivial, f.graph.wellFormed_toTree, trivial⟩

theorem Flow.returns {f : Flow} (hgraph : f.graph.Exact) : Returns toTree ofTree? f :=
  ⟨f.wellFormed_toTree, governs.accepts (gives_toTree hgraph)⟩

theorem Settings.Exact.returns {s : Settings} (hexact : s.Exact) : Returns toTree ofTree? s :=
  ⟨s.wellFormed_toTree, governs.accepts hexact.gives_toTree⟩

theorem Event.returns {e : Event} (htime : e.time.Plain) : Returns toTree ofTree? e :=
  ⟨⟨Json.wellFormed_int _, trivial, trivial, trivial, trivial, trivial⟩,
    governs.accepts (gives_toTree htime)⟩

theorem Version.returns {v : Version} (htime : v.uploadTime.Plain) : Returns toTree ofTree? v :=
  ⟨⟨Json.wellFormed_int _, Json.wellFormed_int _, trivial, trivial, trivial, trivial,
    v.digest.returns.wellFormed, trivial, trivial⟩, governs.accepts (gives_toTree htime)⟩

theorem Project.wellFormed_toTree (p : Project) : p.toTree.WellFormed := by
  have hsettings := p.settings.wellFormed_toTree
  have hgrants := (Json.returns_array p.grants fun g _ => g.returns).wellFormed
  unfold toTree
  cases p.version with
  | none =>
    exact ⟨Json.wellFormed_int _, trivial, trivial, trivial, hsettings, hgrants, trivial, trivial,
      trivial, trivial, trivial⟩
  | some v =>
    exact ⟨Json.wellFormed_int _, trivial, trivial, trivial, Json.wellFormed_int _, hsettings,
      hgrants, trivial, trivial, trivial, trivial, trivial⟩

theorem Project.Plain.returns {p : Project} (hplain : p.Plain) (hfree : p.settings.Unreserved) :
    Returns toTree ofTree? p :=
  ⟨p.wellFormed_toTree, governs.accepts (hplain.gives_toTree hfree)⟩

/-! ## Records that do not come back -/

theorem Settings.unreserved_of_read {s : Settings} (hregular : s.Regular) {room : Nat}
    (hroom : s.toTree.nesting ≤ room) (hread : ofTree? room s.toTree = some s) : s.Unreserved := by
  have husers := (Tree.nesting_record_le.1 hroom).2 _ List.mem_cons_self
  have hinside := (Tree.nesting_array_le.1 husers).1
  exact ((ofTree?_toTree_eq_some_iff hregular (by omega)).1 hread).2

theorem Flow.unreserved_of_read {f : Flow} (hregular : f.graph.Regular) {room : Nat}
    (hroom : f.toTree.nesting ≤ room) (hread : ofTree? room f.toTree = some f) :
    f.graph.Unreserved := by
  obtain ⟨fs, inside, hfields, -, hgraph⟩ := ofTree?_eq_some_iff.1 hread
  have hpos := (Tree.nesting_record_le.1 hroom).1
  cases hfields.symm.trans (Json.fields?_record layout.names hpos (.refl _) layout.distinct)
  exact ((Json.Value.ofTree?_toTree_eq_some_iff hregular).1 hgraph).2

theorem Project.unreserved_of_read {p : Project} (hregular : p.settings.Regular) {room : Nat}
    (hroom : p.toTree.nesting ≤ room) (hread : ofTree? room p.toTree = some p) :
    p.settings.Unreserved := by
  obtain ⟨fs, inside, hfields, -, -, -, -, -, hsettings, -⟩ := ofTree?_eq_some_iff.1 hread
  obtain ⟨hpos, hinside⟩ := Tree.nesting_record_le.1 hroom
  have hnames := written_sublist p.version
  cases hfields.symm.trans
    (Json.fields?_record fieldNames hpos (by simpa using hnames) layout.distinct)
  have hnesting := hinside ("settings", p.settings.toTree) (by simp)
  refine Settings.unreserved_of_read hregular hnesting ?_
  simpa [Json.Fields.required, get?_versionMember] using hsettings

/-! ## Texts -/

/-- Whether a value comes back from its text exactly under a condition, as long as the text is not
nested too deep. -/
def ComesBackIf {α : Type} (write : α → Tree) (read : Nat → Tree → Option α) (condition : Prop)
    (a : α) : Prop :=
  (write a).nesting ≤ nestingLimit →
    ((Tree.ofText? (write a).toText).bind (read nestingLimit) = some a ↔ condition)

section Texts

variable {α : Type} {write : α → Tree} {read : Nat → Tree → Option α} {condition : Prop} {a : α}

theorem comesBackIf (hwritten : (write a).WellFormed)
    (hneeded : (write a).nesting ≤ nestingLimit → read nestingLimit (write a) = some a → condition)
    (hreturns : condition → Returns write read a) : ComesBackIf write read condition a := by
  intro hroom
  rw [Tree.ofText?_toText hwritten, Option.bind_some]
  exact ⟨hneeded hroom, fun hcondition => (hreturns hcondition).read_eq hroom⟩

theorem comesBack_of_returns (h : Returns write read a) : ComesBackIf write read True a :=
  comesBackIf h.wellFormed (fun _ _ => trivial) fun _ => h

end Texts

/-- Whatever is handed out comes back from its text, the entries of bundles in their order, unless
an object of free JSON in it has the reserved key in front. -/
theorem texts_are_read_back (p : Project) (s : Settings) (v : Version) (g : Grant) (a : Rights)
    (b : Bundle) (f : Flow) (k : EventKind) (e : Event) :
    (p.Plain → ComesBackIf Project.toTree Project.ofTree? p.settings.Unreserved p) ∧
      (s.Regular → ComesBackIf Settings.toTree Settings.ofTree? s.Unreserved s) ∧
      (v.uploadTime.Plain → ComesBackIf Version.toTree Version.ofTree? True v) ∧
      ComesBackIf Grant.toTree Grant.ofTree? True g ∧
      ComesBackIf Rights.toTree (fun _ => Rights.ofTree?) True a ∧
      ComesBackIf Bundle.toTree Bundle.ofTree? True b ∧
      (f.graph.Regular → ComesBackIf Flow.toTree Flow.ofTree? f.graph.Unreserved f) ∧
      ComesBackIf EventKind.toTree EventKind.ofTree? True k ∧
      (e.time.Plain → ComesBackIf Event.toTree Event.ofTree? True e) := by
  refine ⟨?project, ?settings, ?version, ?grant, ?rights, ?bundle, ?flow, ?kind, ?event⟩
  case project =>
    exact fun hplain => comesBackIf p.wellFormed_toTree
      (Project.unreserved_of_read hplain.settings) hplain.returns
  case settings =>
    exact fun hregular => comesBackIf s.wellFormed_toTree (Settings.unreserved_of_read hregular)
      fun hfree => (Settings.exact_iff.2 ⟨hregular, hfree⟩).returns
  case version => exact fun htime => comesBack_of_returns (Version.returns htime)
  case grant => exact comesBack_of_returns g.returns
  case rights => exact comesBack_of_returns a.returns
  case bundle => exact comesBack_of_returns b.returns
  case flow =>
    exact fun hregular => comesBackIf f.wellFormed_toTree (Flow.unreserved_of_read hregular)
      fun hfree => Flow.returns ⟨hregular, hfree⟩
  case kind => exact comesBack_of_returns k.returns
  case event => exact fun htime => comesBack_of_returns (Event.returns htime)

/-- The last nanosecond of the year 9999. -/
def lastInstant : Time.Instant := ⟨253402300799, 999999999⟩

/-- A graph with numbers from both ends of their range. -/
def widestGraph : Json.Value :=
  .object [("\u0000\"", .array [.number (.integer (-9223372036854775808)),
    .number (.integer 18446744073709551615)]), ("😀", .null)]

def widestProject : Project where
  id := -2147483648
  name := "\\\u001f"
  description := ""
  active := false
  version := some 2147483647
  settings := (Settings.empty.withProxyUser "ann").withMetadata "graph" widestGraph
  grants := [⟨"ann", false, ⟨0x8000101⟩⟩, ⟨"", true, .none⟩]
  createdBy := "ann"
  lastModifiedBy := "ben"
  createdAt := ⟨0, 1000⟩
  lastModifiedAt := lastInstant

def widestVersion : Version :=
  ⟨1, -1, "ann", lastInstant, "zip", "a.zip", ⟨List.replicate 16 255, rfl⟩, "a"⟩

def widestEvent : Event := ⟨1, .versionChanged, "ann", "\n", lastInstant⟩

/-- A graph with the reserved key in front, which is read as the value in its text. -/
def quotedGraph : Json.Value := .object [(Json.embeddingKey, .string "[1]")]

theorem widest_texts_are_read_back :
    (Tree.ofText? widestProject.toTree.toText).bind (Project.ofTree? nestingLimit) =
        some widestProject ∧
      (Tree.ofText? widestProject.settings.toTree.toText).bind (Settings.ofTree? nestingLimit) =
        some widestProject.settings ∧
      (Tree.ofText? widestVersion.toTree.toText).bind (Version.ofTree? nestingLimit) =
        some widestVersion ∧
      (Tree.ofText? (Flow.mk "main" widestGraph).toTree.toText).bind (Flow.ofTree? nestingLimit) =
        some ⟨"main", widestGraph⟩ ∧
      (Tree.ofText? widestEvent.toTree.toText).bind (Event.ofTree? nestingLimit) =
        some widestEvent ∧
      (Tree.ofText? (Flow.mk "main" quotedGraph).toTree.toText).bind (Flow.ofTree? nestingLimit) ≠
        some ⟨"main", quotedGraph⟩ := by
  have hback := texts_are_read_back widestProject widestProject.settings widestVersion
    ⟨"ann", false, .none⟩ .none ⟨"a", .empty⟩
  obtain ⟨hproject, hsettings, hversion, -, -, -, hflow, -, hevent⟩ :=
    hback ⟨"main", widestGraph⟩ .created widestEvent
  obtain ⟨-, -, -, -, -, -, hquoted, -, -⟩ := hback ⟨"main", quotedGraph⟩ .created widestEvent
  have hlast : lastInstant.Plain := ⟨by decide, by decide, by decide⟩
  have hcreated : widestProject.createdAt.Plain := ⟨by decide, by decide, by decide⟩
  have hgraph : widestGraph.Exact :=
    ⟨⟨by decide, ⟨⟨by decide, by decide⟩, ⟨by decide, by decide⟩, trivial⟩, trivial, trivial⟩,
      by decide, ⟨trivial, trivial, trivial⟩, trivial, trivial⟩
  have hexact : widestProject.settings.Exact := by
    intro e he
    rw [List.mem_singleton.1 he]
    exact hgraph
  obtain ⟨hregular, hfree⟩ := Settings.exact_iff.1 hexact
  have hquotedRegular : quotedGraph.Regular := ⟨List.pairwise_singleton _ _, trivial, trivial⟩
  exact ⟨(hproject ⟨hregular, hcreated, hlast⟩ (by decide)).2 hfree,
    (hsettings hregular (by decide)).2 hfree, (hversion hlast (by decide)).2 trivial,
    (hflow hgraph.1 (by decide)).2 hgraph.2, (hevent hlast (by decide)).2 trivial,
    fun hread => ((hquoted hquotedRegular (by decide)).1 hread).1 rfl⟩

end ProjectRegistry
