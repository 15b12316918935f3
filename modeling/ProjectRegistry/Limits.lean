import ProjectRegistry.Failure
import ProjectRegistry.Text.Blank

/-!
# Limits on texts

How long names and descriptions may be, counted in characters. A name must not be blank.
-/

namespace ProjectRegistry

structure Limits where
  name : Nat := 64
  description : Nat := 2048
  deriving DecidableEq, Repr

namespace Limits

def isBlankName (name : String) : Bool := (Text.trim name.toList).isEmpty

def checkName (l : Limits) (name : String) : Except Failure Unit :=
  if isBlankName name then .error (.violation .blankName)
  else if l.name < name.length then .error (.violation (.longName l.name))
  else .ok ()

def checkDescription (l : Limits) (description : String) : Except Failure Unit :=
  if l.description < description.length then .error (.violation (.longDescription l.description))
  else .ok ()

end Limits

end ProjectRegistry
