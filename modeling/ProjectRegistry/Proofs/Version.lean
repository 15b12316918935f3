import ProjectRegistry.Proofs.Files.Components
import ProjectRegistry.Version

/-!
# Names and types of files

A version has its file name from the last segment that says something in the path of its upload, and
its file type from what follows the last dot of that segment. Both are cut out as bytes and read as
texts afterwards. Since a dot is a byte of its own in every row of bytes, be it UTF-8 or not, the
two still fit together: a name ends in a dot and its type.
-/

namespace ProjectRegistry.Version

open Files (Path dot slash)
open Text (decodeLossy)

/-- What the name and the type of a file are that comes from a path. -/
structure NamedAfter (p : Path) (name type : String) : Prop where
  named {s : List UInt8} : p.lastTelling? = some s → s ≠ [dot, dot] → name = decodeLossy s
  unnamed : p.lastTelling? = none ∨ p.lastTelling? = some [dot, dot] → name = ""
  noSlash : '/' ∉ name.toList
  typed {before after : List UInt8} : p.lastTelling? = some (before ++ dot :: after) →
    dot ∉ after → before ≠ [] → type = decodeLossy after
  untyped : (∀ before after, dot ∉ after → before ≠ [] →
    p.lastTelling? ≠ some (before ++ dot :: after)) → type = ""
  ending : type ≠ "" →
    (∃ stem, stem ≠ "" ∧ name = stem ++ "." ++ type) ∧ '.' ∉ type.toList

variable {p : Path}

theorem fileName?_of_lastTelling {s : List UInt8} (h : p.lastTelling? = some s)
    (hs : s ≠ [dot, dot]) : p.fileName? = some s := by
  rw [Path.fileName?_eq, h, Option.filter_some, if_pos (by simpa using hs)]

theorem fileName?_eq_none (h : p.lastTelling? = none ∨ p.lastTelling? = some [dot, dot]) :
    p.fileName? = none := by
  rw [Path.fileName?_eq]
  rcases h with h | h <;> rw [h] <;> rfl

theorem lastTelling_of_fileName? {s : List UInt8} (h : p.fileName? = some s) :
    p.lastTelling? = some s := by
  rw [Path.fileName?_eq, Option.filter_eq_some_iff] at h
  exact h.1

theorem fileTypeOf_eq_empty (h : p.extension? = none) : fileTypeOf p = "" := by
  rw [fileTypeOf, h]
  rfl

theorem fileTypeOf_of_lastTelling {before after : List UInt8}
    (h : p.lastTelling? = some (before ++ dot :: after)) (hafter : dot ∉ after)
    (hbefore : before ≠ []) : fileTypeOf p = decodeLossy after := by
  by_cases hup : before ++ dot :: after = [dot, dot]
  · -- two dots are no name, but nothing follows the last of them either
    have hempty : after = [] := by
      have hlength := congrArg List.length hup
      have hpos := List.length_pos_iff.2 hbefore
      simp only [List.length_append, List.length_cons, List.length_nil] at hlength
      exact List.length_eq_zero_iff.1 (by omega)
    have hnone := fileName?_eq_none (.inr (h.trans (congrArg some hup)))
    rw [hempty, fileTypeOf_eq_empty (by rw [Path.extension?, hnone]; rfl)]
    rfl
  · have hname := fileName?_of_lastTelling h hup
    rw [fileTypeOf, Path.extension?_eq_some_iff.2 ⟨hafter, before, hbefore, hname⟩,
      Option.getD_some]

theorem namedAfter (p : Path) : NamedAfter p (fileNameOf p) (fileTypeOf p) where
  named h hs := by rw [fileNameOf, fileName?_of_lastTelling h hs, Option.getD_some]
  unnamed h := by
    rw [fileNameOf, fileName?_eq_none h]
    rfl
  noSlash :=
    Text.not_mem_decodeLossy (b := slash) (by decide) (by decide) rfl p.slash_not_mem_fileName
  typed := fileTypeOf_of_lastTelling
  untyped h := by
    refine fileTypeOf_eq_empty (Option.eq_none_iff_forall_ne_some.2 fun after hafter => ?_)
    obtain ⟨hdot, before, hbefore, hname⟩ := Path.extension?_eq_some_iff.1 hafter
    exact h before after hdot hbefore (lastTelling_of_fileName? hname)
  ending h := by
    cases hextension : p.extension? with
    | none => exact absurd (fileTypeOf_eq_empty hextension) h
    | some after =>
      obtain ⟨hdot, before, hbefore, hname⟩ := Path.extension?_eq_some_iff.1 hextension
      rw [fileNameOf, hname, fileTypeOf, hextension, Option.getD_some, Option.getD_some]
      refine ⟨⟨decodeLossy before, Text.decodeLossy_ne_empty hbefore, ?_⟩, ?_⟩
      · exact Text.decodeLossy_append_cons (by decide) before after
      · exact Text.not_mem_decodeLossy (b := dot) (by decide) (by decide) rfl hdot

/-- Whatever bytes a path is made of, a version from it is named by the last segment that says
something, and a type that is not empty ends the name behind a dot. -/
theorem files_are_named_after_last_segment (project number : Int32) (p : Path) (uploader : String)
    (digest : Digest) (resourceId : String) (now : Time.Instant) :
    let v := ofUpload project number p uploader digest resourceId now
    NamedAfter p v.fileName v.fileType :=
  namedAfter p

example : fileTypeOf ⟨[0x61, 0xC3, 0x2E, 0xF0, 0x9F, 0x2F, 0x2E]⟩ = "\ufffd" := by decide

end ProjectRegistry.Version
