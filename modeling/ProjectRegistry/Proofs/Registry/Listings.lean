import ProjectRegistry.Proofs.Bundle
import ProjectRegistry.Proofs.Registry.Integrity
import ProjectRegistry.Proofs.Store.Answers
import ProjectRegistry.Store.Database.Edit

/-!
# Stored bundles as lists of pairs

The text of a stored bundle lists the pairs that the bundle holds. Whoever writes it over can list
any pairs, in any spelling and with keys that come again; from then on the bundle is what comes of
putting these pairs into an empty one.
-/

namespace ProjectRegistry

open Database (loadBundle)

namespace Database

theorem loadBundle_eq_ok_iff {path text : String} {b : Bundle} :
    loadBundle (path, text) = .ok b ↔ ∃ es, Lists text es ∧ (Bundle.new path).putAll es = b := by
  have hload : loadBundle (path, text) = .ok b ↔
      ∃ p, Properties.ofText? text = some p ∧ Bundle.mk path p = b := by
    rw [loadBundle_eq, readProperties]
    cases Properties.ofText? text <;> simp [Except.map]
  simp only [hload, Properties.ofText?_eq_some_iff, Bundle.putAll_new]
  constructor
  · rintro ⟨_, ⟨es, hes, rfl⟩, hb⟩
    exact ⟨es, hes, hb⟩
  · rintro ⟨es, hes, hb⟩
    exact ⟨_, ⟨es, hes, rfl⟩, hb⟩

theorem loadBundle_toText (path : String) (p : Properties) :
    loadBundle (path, p.toText) = .ok ⟨path, p⟩ := by
  rw [loadBundle_eq_ok_iff]
  exact ⟨p.pairs, p.lists_toText, by rw [Bundle.putAll_new, p.ofList_pairs]⟩

variable {d : Database} {project : Int32}

theorem edit_properties (hopen : d.isOpen = true) (project : Int32) (text : String) :
    ((Edit.properties project text).apply d).2.isOpen = true ∧
      ((Edit.properties project text).apply d).2.relations.bundles =
        d.relations.bundles.map fun k t => if k.1 = project then text else t := by
  rw [Edit.apply, transaction_apply hopen]
  exact ⟨hopen, rfl⟩

/-- A text that is written over those of a project is what is read from then on. -/
theorem bundleAt_edited (hopen : d.isOpen = true) {version : Int32} {path : String}
    (hbundle : d.relations.bundles.contains (project, version, path) = true) (text : String) :
    bundleAt project version path ((Edit.properties project text).apply d).2 =
      loadBundle (path, text) := by
  obtain ⟨hstill, hbundles⟩ := edit_properties hopen project text
  obtain ⟨before, hbefore⟩ := Table.contains_iff.1 hbundle
  rw [bundleAt, query_apply hstill, hbundles, Table.find?_map, hbefore]
  simp only [Option.map_some, if_true]

end Database

/-- A bundle is what comes of putting pairs into an empty one if and only if it holds each of their
keys once, where it was put first and with what it was put last. A text is read as a bundle if and
only if it lists pairs, and as what comes of putting these; printed texts list what they were
printed for, and texts that are written over them are read in their place. -/
theorem bundles_are_ordered_maps (path : String) :
    (∀ puts b, (Bundle.new path).putAll puts = b ↔ b.HoldsLast path puts) ∧
      (∀ text b, loadBundle (path, text) = .ok b ↔
        ∃ es, Lists text es ∧ (Bundle.new path).putAll es = b) ∧
      (∀ p : Properties, Lists p.toText p.pairs ∧ loadBundle (path, p.toText) = .ok ⟨path, p⟩) ∧
      ∀ (d : Database) (project version : Int32) (text : String), d.isOpen = true →
        d.relations.bundles.contains (project, version, path) = true →
          Database.bundleAt project version path ((Edit.properties project text).apply d).2 =
            loadBundle (path, text) := by
  refine ⟨?puttings, ?texts, ?printed, ?edited⟩
  case puttings => exact fun _ _ => Bundle.putAll_new_eq_iff
  case texts => exact fun _ _ => Database.loadBundle_eq_ok_iff
  case printed => exact fun p => ⟨p.lists_toText, Database.loadBundle_toText path p⟩
  case edited => exact fun _ _ _ text hopen hbundle => Database.bundleAt_edited hopen hbundle text

/-- A run that puts two bundles into a version. -/
def bundledRun : List (Tick × Call) :=
  let project := (Project.new 1 "flows" "" "ann" .epoch).atVersion 1
  [(.first, .createProject "flows" "" "ann"),
    (.first, .addVersion 1 1 (.ofText "a.zip") "ann" ⟨List.replicate 16 2, rfl⟩ "a"),
    (.first, .putBundles project [.new "jobs", (Bundle.new "common").put "k" "v"])]

/-- An object that repeats a key in another spelling, with blanks and with a pair of surrogates. -/
def respelledText : String :=
  "\x7b \"zeta\" : \"1\",\n\"\\u0061\":\"2\",\"z\\u0065ta\":\"\\ud83d\\ude00\" \x7d"

/-- The repeated key stands first with what it was given last, also where the text is written over
one that was put. -/
theorem respelledText_read :
    Lists respelledText [("zeta", "1"), ("a", "2"), ("zeta", "😀")] ∧
      ∃ b : Bundle, loadBundle ("jobs", respelledText) = .ok b ∧
        b.properties.pairs = [("zeta", "😀"), ("a", "2")] ∧ b.size = 2 ∧
        b.HoldsLast "jobs" [("zeta", "1"), ("a", "2"), ("zeta", "😀")] ∧
        Database.bundleAt 1 1 "jobs" ((Edit.properties 1 respelledText).apply
          ((Registry.start {} (.ofText "root") .empty Database.empty).after bundledRun).store).2 =
            .ok b := by
  obtain ⟨hholds, hreads, -, hedited⟩ := bundles_are_ordered_maps "jobs"
  have hlists : Lists respelledText [("zeta", "1"), ("a", "2"), ("zeta", "😀")] := by
    decide +kernel
  have hread := (hreads respelledText _).2 ⟨_, hlists, rfl⟩
  have hopen : ((Registry.start {} (.ofText "root") .empty Database.empty).after
      bundledRun).store.isOpen = true := by decide +kernel
  have hbundle : ((Registry.start {} (.ofText "root") .empty Database.empty).after
      bundledRun).store.relations.bundles.contains (1, 1, "jobs") = true := by decide +kernel
  exact ⟨hlists, _, hread, by decide, by decide, (hholds _ _).1 rfl,
    (hedited _ 1 1 respelledText hopen hbundle).trans hread⟩

end ProjectRegistry
