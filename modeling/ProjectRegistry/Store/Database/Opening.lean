import ProjectRegistry.Store.Database
import ProjectRegistry.Store.Database.Address

/-!
# Opening a database

A database is opened by a number of connections. It lives in memory, in a temporary file of one
connection, or in a file at its path; a driver says how files are locked, and which files stand
beside that of an open database. A database that is opened anew is empty. What is only read cannot
be given its tables, and connections that do not see one database do not find the tables of each
other.
-/

namespace ProjectRegistry

/-- What may be done with a database, from less to more: to read it, to change it, or to make it as
well. -/
inductive Access where
  | read
  | write
  | create
  deriving DecidableEq

namespace Access

def rank : Access → Nat
  | read => 0
  | write => 1
  | create => 2

def ofName? : String → Option Access
  | "ro" => some read
  | "rw" => some write
  | "rwc" => some create
  | _ => none

end Access

structure Terms where
  access : Access
  inMemory : Bool
  shared : Bool
  deriving DecidableEq

namespace Terms

/-- Takes in a parameter of an address. The access can only be narrowed, unless the database is in
memory. -/
def withParameter (t : Terms) (name value : String) : Except DatabaseFault Terms :=
  if name = "cache" then
    if value = "shared" then .ok { t with shared := true }
    else if value = "private" then .ok { t with shared := false }
    else .error (.unknownSharing value)
  else if name = "mode" then
    if value = "memory" then .ok { t with access := .create, inMemory := true }
    else match Access.ofName? value with
      | none => .error (.unknownAccess value)
      | some access =>
        if t.inMemory ∨ access.rank ≤ t.access.rank then .ok { t with access, inMemory := false }
        else .error (.forbiddenAccess value)
  else .ok t

def withParameters (t : Terms) : List (String × String) → Except DatabaseFault Terms
  | [] => .ok t
  | (name, value) :: rest =>
    match t.withParameter name value with
    | .ok t => t.withParameters rest
    | .error e => .error e

def ofAddress (l : Location) (a : Address) : Except DatabaseFault Terms :=
  withParameters ⟨if l.readOnly then .read else .create, l.inMemory, l.shared⟩ a.parameters

end Terms

/-- A way to lock files and to keep what is not yet in them. -/
inductive Driver where
  /-- Locks are for all programs; changes are gathered in a file, with an index in another. -/
  | standard
  /-- Locks are for this program alone, which holds the index itself. -/
  | exclusive
  /-- Changes are not gathered. -/
  | direct
  /-- There are no files. -/
  | memory
  deriving DecidableEq

namespace Driver

def ofName? : String → Option Driver
  | "unix" => some standard
  | "unix-excl" => some exclusive
  | "unix-none" | "unix-dotfile" => some direct
  | "memdb" => some memory
  | _ => none

def ofAddress (a : Address) : Except DatabaseFault Driver :=
  let name := (a.lastParameter? "vfs").getD "unix"
  match ofName? name with
  | some d => .ok d
  | none => .error (.unknownDriver name)

/-- What the names of the files beside that of an open database end in. -/
def companions : Driver → List String
  | standard => ["-wal", "-shm"]
  | exclusive => ["-wal"]
  | direct | memory => []

end Driver

namespace Location

open Files

/-! ## Places of files -/

/-- How many bytes the path of the working directory has. -/
def workingDirectoryLength : Nat := 15

/-- How many bytes a full path may have. -/
def longestPath : Nat := 512

/-- How many bytes the path of a database may have that its driver holds in memory. -/
def longestHeldPath : Nat := 1024

/-- How many bytes are kept free after the name of a database for the ends of names beside it. -/
def spareLength : Nat := 8

def fullLength (place : Files.Location) : Nat :=
  let names := place.foldl (fun length n => length + n.length + 1) 0
  if place.take 1 = FileTree.top then names - 2 else workingDirectoryLength + names

/-- The place that a path names by its spelling: two dots take the last name back, whether or not it
is there. On the way no name may be too long, and none may stand below a file. -/
def placeFrom (files : FileTree) :
    Files.Location → List (List UInt8) → Except DatabaseFault Files.Location
  | place, [] => .ok place
  | place, segment :: rest =>
    match Path.component? segment with
    | some .up => placeFrom files (FileTree.above place) rest
    | some (.name n) =>
      let place := place ++ [n]
      if longestPath ≤ fullLength place ∨ files.isBlocked place then .error .cannotOpen
      else placeFrom files place rest
    | _ => placeFrom files place rest

def placeOf (files : FileTree) (p : Path) : Except DatabaseFault Files.Location :=
  match placeFrom files (FileTree.start p) p.segments with
  | .error e => .error e
  | .ok place =>
    if place = FileTree.top ∨ longestPath < fullLength place + spareLength then .error .cannotOpen
    else .ok place

/-- The place beside another one whose name ends in something more. -/
def beside (place : Files.Location) (ending : String) : Files.Location :=
  place.dropLast ++ [place.getLast?.getD [] ++ Text.utf8 ending]

/-! ## Opening -/

def refuse (condition : Bool) (fault : DatabaseFault) : Step FileTree Unit :=
  .require (!condition) (.storage (.database fault))

def accept {α : Type} : Except DatabaseFault α → Step FileTree α
  | .ok a => .lift (.ok a)
  | .error fault => .fail (.storage (.database fault))

/-- Makes the directory of a database, if its path names one. -/
def makeParent (l : Location) : Step FileTree Unit := fun files =>
  match files.makeDirectories l.path.parent with
  | (.ok (), files) => (.ok (), files)
  | (.error fault, files) => (.error (.file fault), files)

def makeFile (place : Files.Location) : Step FileTree Unit := fun files =>
  match files.writeAt place [] with
  | .ok files => (.ok (), files)
  | .error _ => (.error (.storage (.database .cannotOpen)), files)

/-- Opens a database in memory. Connections see one if it is shared under an address with a path. -/
def openInMemory (terms : Terms) (a : Address) : Step FileTree Bool := do
  refuse (terms.access = .read) .readOnly
  return a.isExplicit && terms.shared && a.path.bytes ≠ []

/-- Opens a database in a temporary file, which each connection has for itself. -/
def openTemporary (terms : Terms) : Step FileTree Bool := do
  refuse (terms.access = .read) .readOnly
  return false

/-- Opens a database that its driver holds in memory, for all connections if its path starts at the
top. -/
def openHeld (terms : Terms) (a : Address) : Step FileTree Bool := do
  refuse (longestHeldPath < a.path.bytes.length + spareLength) .cannotOpen
  refuse (terms.access = .read || a.isSet "immutable") .readOnly
  let rooted := a.path.isAbsolute || a.path.bytes.head? = some (Address.byteOf '\\')
  return terms.shared || (rooted && 1 < a.path.bytes.length)

/-- Makes sure that the file of a database is there, as far as the access allows. A file whose
rights the new one should have has to be there too. -/
def openFile (access : Access) (a : Address) (place : Files.Location) : Step FileTree Unit := do
  let files ← .get
  refuse ((a.parameter? "modeof").any fun p => (files.find (.ofText p)).toOption.isNone)
    .cannotInspect
  match files.node? place with
  | some .directory => refuse true (if access = .read then .cannotRead else .cannotOpen)
  | some (.file _) => return
  | none =>
    refuse (access ≠ .create || (files.walk place).toOption.isNone) .cannotOpen
    makeFile place

/-- Opens a database in a file. All connections see it. -/
def openInFile (terms : Terms) (driver : Driver) (a : Address) : Step FileTree Bool := do
  let files ← .get
  let place ← accept (placeOf files a.path)
  openFile terms.access a place
  refuse (terms.access = .read || a.isSet "immutable") .readOnly
  refuse (FileTree.longestName < (place.getLast?.getD []).length + spareLength) .cannotOpen
  let companions := if a.isSet "nolock" then [] else driver.companions
  refuse (companions.contains "-shm" && a.isSet "readonly_shm") .cannotOpen
  companions.forM fun ending => makeFile (beside place ending)
  return true

def openDatabase (l : Location) (connections : Nat) : Step FileTree Database := do
  l.makeParent
  .require (decide (connections ≠ 0)) (.storage .noConnection)
  let a ← .lift (l.address.mapError .storage)
  let terms ← accept (Terms.ofAddress l a)
  let driver ← accept (Driver.ofAddress a)
  let isCommon ←
    if terms.inMemory || a.path = .ofText ":memory:" then openInMemory terms a
    else if a.path.bytes = [] then openTemporary terms
    else if driver = .memory then openHeld terms a
    else openInFile terms driver a
  refuse (!isCommon && 1 < connections) (.noTable "main.projects")
  return .empty

end Location

end ProjectRegistry
