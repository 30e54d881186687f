import RomLinker.Disk.Location
import RomLinker.Path

/-!
A disk: entries by location, a working directory from which relative paths start, and what the
system refuses or breaks off. Paths are followed segment by segment, each from a directory that
exists (`locate`). An operation that may stop halfway gives the disk behind it whether it stopped or
not.
-/
namespace RomLinker

inductive DiskFault where
  | notFound
  | alreadyExists
  | notADirectory
  | isADirectory
  | nameTooLong
  /-- No name on a disk holds a NUL. -/
  | nulInName
deriving DecidableEq, Repr

def DiskFault.message : DiskFault → String
  | .notFound => "No such file or directory (os error 2)"
  | .alreadyExists => "File exists (os error 17)"
  | .notADirectory => "Not a directory (os error 20)"
  | .isADirectory => "Is a directory (os error 21)"
  | .nameTooLong => "File name too long (os error 36)"
  | .nulInName => "file name contained an unexpected NUL byte"

inductive Entry where
  | file (content : ByteArray)
  | directory

instance : DecidableEq Entry
  | .directory, .directory => isTrue rfl
  | .directory, .file _ => isFalse nofun
  | .file _, .directory => isFalse nofun
  | .file a, .file b =>
    match ByteArray.decEq a b with
    | isTrue same => isTrue (congrArg Entry.file same)
    | isFalse other => isFalse fun same => other (Entry.file.inj same)

abbrev Entries := Std.ExtTreeMap Location Entry Location.order

inductive Access where
  | writeFile
  | makeDirectory
  | removeFile
  | listDirectory

/-- What the system stands in the way of. It may refuse an operation at a place, or break off the
content of a file after some of its bytes, as a medium does that is full by then. -/
structure Obstacles where
  refused : Access → Location → Option DiskFault := fun _ _ => none
  brokenOff : Entries → Location → ByteArray → Option (Nat × DiskFault) := fun _ _ _ => none

structure Disk where
  entries : Entries
  workingDirectory : Location
  obstacles : Obstacles := {}

namespace Disk

def empty : Disk := { entries := ∅, workingDirectory := .root }

def lookup (d : Disk) (l : Location) : Option Entry :=
  if l = .root then some .directory else d.entries[l]?

def insert (d : Disk) (l : Location) (e : Entry) : Disk :=
  { d with entries := d.entries.insert l e }

def nameLimit : Nat := 255

def pathLimit : Nat := 4095

/-- What is at a place, if there can be a place of that name. -/
def entryAt (d : Disk) (l : Location) : Except DiskFault (Option Entry) :=
  if l.names.head?.any (nameLimit < ·.utf8ByteSize) then .error .nameTooLong else .ok (d.lookup l)

/-- The place that a segment leads to from a place, which has to be a directory. -/
def step (d : Disk) (l : Location) (segment : String) : Except DiskFault Location := do
  match ← d.entryAt l with
  | none => .error .notFound
  | some (.file _) => .error .notADirectory
  | some .directory =>
    return if Path.isVoid segment then l
      else if segment == ".." then l.parent else l.child segment

def origin (d : Disk) (p : Path) : Location := if p.isAbsolute then .root else d.workingDirectory

/-- What is wrong with a path by its text alone. -/
def textFault? (p : Path) : Option DiskFault :=
  if p.text.toList.contains '\x00' then some .nulInName
  else if p.text = "" then some .notFound
  else if pathLimit < p.text.utf8ByteSize then some .nameTooLong
  else none

/-- The place that some segments of a path lead to. All places on the way are directories; the place
itself may be free. -/
def follow (d : Disk) (p : Path) (segments : List String) : Except DiskFault Location :=
  match textFault? p with
  | some fault => .error fault
  | none => segments.foldlM d.step (d.origin p)

def locate (d : Disk) (p : Path) : Except DiskFault Location := d.follow p p.segments

/-- The place at which an operation changes an entry, and whether a slash follows its name. -/
def target (d : Disk) (p : Path) : Except DiskFault (Location × Bool) := do
  return (← d.follow p p.named, p.named.length < p.segments.length)

def directory (d : Disk) (p : Path) : Except DiskFault Location := do d.step (← d.locate p) "."

def absolute (d : Disk) (p : Path) : Path :=
  (Path.mk ("/" ++ Path.joinSegments d.workingDirectory.way)).join p

def find? (d : Disk) (p : Path) : Option Entry :=
  match d.locate p with
  | .ok l => d.lookup l
  | .error _ => none

def isFile (d : Disk) (p : Path) : Bool :=
  match d.find? p with
  | some (.file _) => true
  | _ => false

def read (d : Disk) (p : Path) : Except DiskFault ByteArray := do
  match ← d.entryAt (← d.locate p) with
  | none => .error .notFound
  | some .directory => .error .isADirectory
  | some (.file content) => .ok content

/-- A place, if the system grants an operation there. -/
def grant (d : Disk) (access : Access) (l : Location) : Except DiskFault Location :=
  match d.obstacles.refused access l with
  | some fault => .error fault
  | none => .ok l

/-- The place where a file of that name can be opened for writing. A name that ends in a slash
cannot be a file's. -/
def openPlace (d : Disk) (p : Path) : Except DiskFault Location := do
  let (l, slash) ← d.target p
  if slash then .error .isADirectory
  else match ← d.entryAt l with
    | some .directory => .error .isADirectory
    | _ => d.grant .writeFile l

/-- Puts content into an open file, behind what stays in it. If the system breaks off, the bytes up
to there are in the file. -/
def put (d : Disk) (l : Location) (before content : ByteArray) : Except DiskFault Unit × Disk :=
  match d.obstacles.brokenOff d.entries l content with
  | some (count, fault) => (.error fault, d.insert l (.file (before ++ content.extract 0 count)))
  | none => (.ok (), d.insert l (.file (before ++ content)))

/-- Makes a file anew. What was in it is gone once it is open. -/
def store (d : Disk) (p : Path) (content : ByteArray) : Except DiskFault Unit × Disk :=
  match d.openPlace p with
  | .error fault => (.error fault, d)
  | .ok l => d.put l .empty content

/-- The disk with a file as a whole. -/
def write (d : Disk) (p : Path) (content : ByteArray) : Except DiskFault Disk :=
  match d.store p content with
  | (.ok (), d) => .ok d
  | (.error fault, _) => .error fault

def append (d : Disk) (p : Path) (content : ByteArray) : Except DiskFault Unit × Disk :=
  match d.openPlace p with
  | .error fault => (.error fault, d)
  | .ok l =>
    match d.lookup l with
    | some (.file before) => d.put l before content
    | _ => d.put l .empty content

/-- The form of the name of a temporary file, which ends in six letters and digits. -/
def temporaryName : Path := ⟨".tmpXXXXXX"⟩

/-- A temporary file in a directory is named by its path from the root. -/
def temporaryPath (d : Disk) (dir : Path) : Path := (d.absolute dir).join temporaryName

def temporaryPlace (d : Disk) (dir : Path) : Except DiskFault Location := do
  d.grant .writeFile (← d.target (d.temporaryPath dir)).1

/-- Puts a finished file in the place of what is there. -/
def replace (d : Disk) (p : Path) (content : ByteArray) : Except DiskFault Disk := do
  let (l, slash) ← d.target p
  let found ← d.entryAt l
  if slash then .error .notADirectory
  else if found = some .directory then .error .isADirectory
  else return d.insert (← d.grant .writeFile l) (.file content)

def remove (d : Disk) (p : Path) : Except DiskFault Disk := do
  let (l, slash) ← d.target p
  match ← d.entryAt l with
  | none => .error .notFound
  | some .directory => .error .isADirectory
  | some (.file _) =>
    if slash then .error .notADirectory
    else return { d with entries := d.entries.erase (← d.grant .removeFile l) }

/-- Makes a directory where segments lead from a place, unless there is one. -/
def ensureDirectory (d : Disk) (l : Location) (segments : List String) :
    Except DiskFault (Location × Disk) := do
  let l ← segments.foldlM d.step l
  match ← d.entryAt l with
  | none => return (← d.grant .makeDirectory l, d.insert l .directory)
  | some .directory => return (l, d)
  | some (.file _) => .error .alreadyExists

/-- Makes a directory for each segment on a way, and gives the place of the last one. -/
def ensureEach (d : Disk) (l : Location) : List String → Except DiskFault Location × Disk
  | [] => (.ok l, d)
  | segment :: rest =>
    match d.ensureDirectory l [segment] with
    | .ok (l, d) => d.ensureEach l rest
    | .error e => (.error e, d)

/-- Makes a directory at the end of a way. Only if it has nowhere to be, those above it are made
first, and what was made stays if the next one fails. -/
def ensureWay (d : Disk) (l : Location) (way : List String) : Except DiskFault Unit × Disk :=
  match d.ensureDirectory l way with
  | .ok (_, d) => (.ok (), d)
  | .error .notFound =>
    let above := (way.reverse.dropWhile Path.isVoid).tail.reverse
    match d.ensureEach l above with
    | (.error e, d) => (.error e, d)
    | (.ok l, d) =>
      match d.ensureDirectory l (way.drop above.length) with
      | .ok (_, d) => (.ok (), d)
      | .error e => (.error e, d)
  | .error e => (.error e, d)

def makeDirectories (d : Disk) (p : Path) : Except DiskFault Unit × Disk :=
  if p.text = "" then (.ok (), d)
  else match textFault? p with
    | some fault => (.error fault, d)
    | none => d.ensureWay (d.origin p) p.named

/-- Makes one directory, where nothing is yet. -/
def makeDirectory (d : Disk) (p : Path) : Except DiskFault Disk := do
  let (l, _) ← d.target p
  match ← d.entryAt l with
  | none => return d.insert (← d.grant .makeDirectory l) .directory
  | some _ => .error .alreadyExists

/-- Removes a directory with all that is below it. What the system does not let go stays, in the
directories that it is in. -/
def removeTree (d : Disk) (p : Path) : Disk :=
  match d.locate p with
  | .error _ => d
  | .ok l =>
    let stays (place : Location) : Bool := d.entries.toList.any fun (m, _) =>
      (place.wayTo? m).isSome && (d.obstacles.refused .removeFile m).isSome
    { d with entries := d.entries.filter fun place _ => (l.wayTo? place).isNone || stays place }

/-- Why a directory of that name cannot be listed. -/
def listingFault? (d : Disk) (p : Path) (l : Location) : Option DiskFault :=
  (textFault? p).or (d.obstacles.refused .listDirectory l)

/-- Whether the place in front of segments has to be a directory though they name nothing in it,
because of a slash at the end or a step up. -/
def needsDirectory (segments : List String) : Bool :=
  match segments.dropWhile Path.isVoid with
  | [] => !segments.isEmpty
  | segment :: _ => segment == ".."

/-- Whether a place with segments behind it can be looked up by its path from the root. A slash
follows the path where the place has to be a directory. -/
def inReach (l : Location) (rest : List String) : Bool :=
  l.pathSize + (if needsDirectory rest then 1 else 0) ≤ pathLimit

/-- The place that segments lead to, if each place named on the way is in reach. -/
def canonicalPlace (d : Disk) (l : Location) : List String → Except DiskFault Location
  | [] => .ok l
  | segment :: rest => do
    let next ← d.step l segment
    if Path.isName segment && !inReach next rest then .error .nameTooLong
    else d.canonicalPlace next rest

/-- The path from the root of what exists under a name, without dots. The name may be of any length;
only the places on its way have to be within reach. -/
def canonical? (d : Disk) (p : Path) : Option Path :=
  if p.text = "" then none
  else match d.canonicalPlace (d.origin p) p.segments with
    | .ok l => (d.lookup l).map fun _ => ⟨"/" ++ Path.joinSegments l.way⟩
    | .error _ => none

/-- The ways to the files below a place, in the order of a walk. -/
def filesBelow (d : Disk) (l : Location) : List Way :=
  Way.sort <| d.entries.toList.filterMap fun (place, e) =>
    match e with
    | .file _ => l.wayTo? place
    | .directory => none

def directoriesBelow (d : Disk) (l : Location) : List Way :=
  d.entries.toList.filterMap fun (place, e) =>
    match e, l.wayTo? place with
    | .directory, some (name :: names) => some (name :: names)
    | _, _ => none

def names (d : Disk) (l : Location) : List String :=
  let found := d.entries.toList.filterMap fun (place, _) =>
    match place.names with
    | name :: above => if above = l.names then some name else none
    | [] => none
  found.mergeSort fun a b => a ≤ b

end Disk

end RomLinker
