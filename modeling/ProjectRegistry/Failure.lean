import ProjectRegistry.Files.Tree
import ProjectRegistry.Text.Hex
import ProjectRegistry.Text.Quoted

/-!
# Failures

Why a call is refused, as causes. Each cause has one text, and the texts of two kinds of failure,
unreadable JSON and failed file operations, are not part of the answer. Only a storage failure that
may pass by itself is worth a retry.
-/

namespace ProjectRegistry

/-- What a look-up was for. -/
inductive Entity where
  | project
  | version
  | bundle
  | flow
  | artifact
  | other (name : String)
  deriving DecidableEq, Repr

def Entity.label : Entity → String
  | .project => "Project"
  | .version => "ProjectVersion"
  | .bundle => "Props"
  | .flow => "Flow"
  | .artifact => "Artifact"
  | .other name => name

/-- A rule that an argument breaks. -/
inductive Violation where
  | blankName
  | longName (limit : Nat)
  | longDescription (limit : Nat)
  | resourceId (id : String)
  | notAFile (path : String)
  | digestText (text : String) (fault : Text.Hex.Fault)
  | digestSize (text : String)
  | nameTaken
  | unknownBackend (name : String)
  | configuration
  | other (text : String)
  deriving DecidableEq, Repr

/-- A cell of a row: that of a column, or the only one. -/
inductive Cell where
  | column (name : String)
  | single
  deriving DecidableEq, Repr

inductive DatabaseFault where
  | full
  | readOnly
  | cannotOpen
  | cannotRead
  | cannotInspect
  | noTable (name : String)
  | foreignAuthority (name : String)
  | unknownSharing (name : String)
  | unknownAccess (name : String)
  | forbiddenAccess (name : String)
  | unknownDriver (name : String)
  deriving DecidableEq, Repr

inductive StorageFault where
  | idsUsedUp
  | idOutOfRange
  | timestamp (millis : Int)
  | digestSize
  | eventCode (code : Int)
  | numberTooSmall (cell : Cell)
  | numberTooLarge (cell : Cell)
  | closed
  | noConnection
  | connectionText (text : String)
  | zeroInName
  | database (cause : DatabaseFault)
  | other (text : String) (transient : Bool)
  deriving DecidableEq, Repr

inductive Failure where
  | notFound (entity : Entity) (id : String)
  | duplicateName (name : String)
  | duplicateVersion (project version : Int32)
  | versionOrdering (project version latest : Int32)
  | violation (cause : Violation)
  | storage (cause : StorageFault)
  | malformedJson
  | file (cause : Files.Fault)
  deriving DecidableEq, Repr

/-- What is wrong with a row of figures. A byte is shown as the character of its number. -/
def hexFaultText : Text.Hex.Fault → String
  | .oddLength => "Odd number of digits"
  | .badByte b position =>
    "Invalid character " ++ Text.quoted '\'' [Char.ofNat b.toNat] ++ " at position " ++
      Text.numeralText position

def Violation.message : Violation → String
  | .blankName => "project name must not be empty"
  | .longName limit => "project name exceeds " ++ Text.numeralText limit ++ " characters"
  | .longDescription limit =>
    "project description exceeds " ++ Text.numeralText limit ++ " characters"
  | .resourceId id => "invalid resource id '" ++ id ++ "'"
  | .notAFile path => "'" ++ path ++ "' is not a file"
  | .digestText text fault => "invalid md5 '" ++ text ++ "': " ++ hexFaultText fault
  | .digestSize text => "md5 '" ++ text ++ "' is not 16 bytes"
  | .nameTaken => "UNIQUE constraint failed: projects.name"
  | .unknownBackend name => "Unknown project store backend: " ++ name
  | .configuration => "invalid project store config"
  | .other text => text

def Cell.label : Cell → String
  | .column name => "column " ++ Text.quoted '"' name.toList
  | .single => "column 0"

def DatabaseFault.code : DatabaseFault → Nat
  | .noTable _ | .foreignAuthority _ | .unknownSharing _ | .unknownAccess _ | .unknownDriver _ => 1
  | .forbiddenAccess _ => 3
  | .readOnly => 8
  | .full => 13
  | .cannotOpen => 14
  | .cannotRead => 266
  | .cannotInspect => 1802

def DatabaseFault.text : DatabaseFault → String
  | .noTable name => "no such table: " ++ name
  | .foreignAuthority name => "invalid uri authority: " ++ name
  | .unknownSharing name => "no such cache mode: " ++ name
  | .unknownAccess name => "no such access mode: " ++ name
  | .unknownDriver name => "no such vfs: " ++ name
  | .forbiddenAccess name => "access mode not allowed: " ++ name
  | .readOnly => "attempt to write a readonly database"
  | .full => "database or disk is full"
  | .cannotOpen => "unable to open database file"
  | .cannotRead | .cannotInspect => "disk I/O error"

def StorageFault.message : StorageFault → String
  | .idsUsedUp => "project id sequence exhausted"
  | .idOutOfRange => "project id exceeds i32 range"
  | .timestamp ms => "invalid timestamp " ++ Text.numeralText ms
  | .digestSize => "stored md5 is not 16 bytes"
  | .eventCode code => "unknown event type " ++ Text.numeralText code
  | .numberTooSmall cell =>
    "error occurred while decoding " ++ cell.label ++ ": number too small to fit in target type"
  | .numberTooLarge cell =>
    "error occurred while decoding " ++ cell.label ++ ": number too large to fit in target type"
  | .closed => "attempted to acquire a connection on a closed pool"
  | .noConnection => "pool timed out while waiting for an open connection"
  | .connectionText text => "error with configuration: " ++ text
  | .zeroInName =>
    "error communicating with database: filename passed to SQLite must not contain nul bytes"
  | .database cause =>
    "error returned from database: (code: " ++ Text.numeralText cause.code ++ ") " ++ cause.text
  | .other text _ => text

def StorageFault.isTransient : StorageFault → Bool
  | .closed | .noConnection | .zeroInName => true
  | .other _ transient => transient
  | _ => false

namespace Failure

def message : Failure → Option String
  | .notFound entity id => some ("Entity not found: " ++ entity.label ++ " with id " ++ id)
  | .duplicateName name =>
    some ("Duplicate project name: an active project named '" ++ name ++ "' already exists")
  | .duplicateVersion p v =>
    some ("Duplicate version: project " ++ Text.numeralText p.toInt ++ " already has version " ++
      Text.numeralText v.toInt)
  | .versionOrdering p v latest =>
    some ("Version ordering error: version " ++ Text.numeralText v.toInt ++ " for project " ++
      Text.numeralText p.toInt ++
      " is not newer than " ++ Text.numeralText latest.toInt)
  | .violation cause => some ("Constraint violation: " ++ cause.message)
  | .storage cause => some ("Storage error: " ++ cause.message)
  | .malformedJson => none
  | .file _ => none

def isRetryable : Failure → Bool
  | .storage cause => cause.isTransient
  | _ => false

def isNotFound : Failure → Bool
  | .notFound _ _ => true
  | _ => false

end Failure

end ProjectRegistry
