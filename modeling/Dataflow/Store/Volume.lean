import Dataflow.Error
import Dataflow.Store.Sparse

/-!
# Directory trees

A volume is a tree of directories and files. Paths are texts whose parts are separated by slashes;
they are followed from the root of the volume, part by part, with `.` and `..` as parts of their
own.

* `Volume`, `Location`: the tree and the places in it.
* `Volume.resolve`: where a path leads.
* `Volume.openFile`, `createDirectory`, `createDirectories`: what opens and makes things.
* `Volume.fileContent`, `writeFile`, `resizeFile`, `flipBits`: changes by path.
* `Volume.writeAt`: writes to a file that was opened before.

What lies at a location is what was put there last: `Volume.get?_put`.
-/

namespace Dataflow

/-- What lies in a directory under a name. -/
inductive VolumeEntry
  | file (content : SparseBytes)
  | directory (entries : List (String × VolumeEntry))
  deriving Repr

abbrev Directory := List (String × VolumeEntry)

/-- A tree of directories and files. The root is a directory that is always there. -/
structure Volume where
  root : Directory := []
  deriving Repr

/-- A place in a volume: the names of the directories on the way from the root, and a name in the
last of them. -/
structure Location where
  above : List String
  name : String
  deriving DecidableEq, Repr

/-! ## Directories as tables -/

namespace Directory

/-- Put something under a name, in place of what was there. -/
def set (d : Directory) (name : String) (e : VolumeEntry) : Directory :=
  (name, e) :: d.filter (·.1 != name)

/-- The directory under a name; where there is none, an empty one. -/
def below (d : Directory) (name : String) : Directory :=
  match d.lookup name with
  | some (.directory entries) => entries
  | _ => []

/-- Put something under a name in the directory to which the names above it lead. Directories that
are missing on the way are made. -/
def put (d : Directory) : (above : List String) → (name : String) → VolumeEntry → Directory
  | [], name, e => d.set name e
  | step :: above, name, e => d.set step (.directory (put (d.below step) above name e))

@[simp] theorem lookup_set (d : Directory) (name : String) (e : VolumeEntry) :
    (d.set name e).lookup name = some e := List.lookup_cons_self

@[simp] theorem below_set (d : Directory) (name : String) (entries : Directory) :
    (d.set name (.directory entries)).below name = entries := by
  rw [below, lookup_set]

theorem lookup_put (d : Directory) (above : List String) (name : String) (e : VolumeEntry) :
    (above.foldl below (d.put above name e)).lookup name = some e := by
  induction above generalizing d with
  | nil => exact d.lookup_set name e
  | cons step above ih => rw [put, List.foldl_cons, below_set, ih]

end Directory

namespace Volume

/-! ## Locations -/

def get? (v : Volume) (l : Location) : Option VolumeEntry :=
  (l.above.foldl Directory.below v.root).lookup l.name

/-- Put something at a location, in place of what was there. -/
def put (v : Volume) (l : Location) (e : VolumeEntry) : Volume := ⟨v.root.put l.above l.name e⟩

@[simp] theorem get?_put (v : Volume) (l : Location) (e : VolumeEntry) :
    (v.put l e).get? l = some e := v.root.lookup_put l.above l.name e

/-- The bytes of the file at a location; elsewhere there are none. -/
def content (v : Volume) (l : Location) : SparseBytes :=
  match v.get? l with
  | some (.file content) => content
  | _ => {}

@[simp] theorem content_put (v : Volume) (l : Location) (content : SparseBytes) :
    (v.put l (.file content)).content l = content := by
  rw [Volume.content, get?_put]

/-! ## Paths -/

/-- What stands between the slashes of a path. -/
def pieces (path : String) : List String := (path.toList.splitOn '/').map String.ofList

def parts (path : String) : List String := (pieces path).filter (· != "")

/-- The path ends in a slash, and so asks for a directory. -/
def endsInSlash (path : String) : Bool := path.toList.getLast? == some '/'

def maxNameLength : Nat := 255

def maxPathLength : Nat := 4095

def isLongName (name : String) : Bool := maxNameLength < name.utf8ByteSize

/-- Look for what lies at a location, unless no directory could hold the name. -/
def find (v : Volume) (l : Location) : Except VolumeError (Option VolumeEntry) :=
  if isLongName l.name then .error .nameTooLong else .ok (v.get? l)

/-- Follow the parts of a path through directories. The trail holds the directories passed so far,
the innermost first. -/
def follow (v : Volume) : (trail : List (String × Directory)) → List String →
    Except VolumeError (List String)
  | trail, [] => .ok (trail.map (·.1)).reverse
  | trail, "." :: rest => v.follow trail rest
  | trail, ".." :: rest => v.follow trail.tail rest
  | trail, name :: rest =>
    let here := match trail with
      | [] => v.root
      | (_, d) :: _ => d
    if isLongName name then
      .error .nameTooLong
    else
      match here.lookup name with
      | none => .error .notFound
      | some (.file _) => .error .notDirectory
      | some (.directory d) => v.follow ((name, d) :: trail) rest

/-- Where a path leads: to a directory without naming it, or to a name in a directory. -/
inductive Target
  | directory
  | name (l : Location)
  deriving DecidableEq, Repr

/-- Where a path leads. All parts but the last have to be directories. A path with a NUL or with too
many bytes is refused before the tree is looked at. -/
def resolve (v : Volume) (path : String) : Except VolumeError Target :=
  if path.toList.contains '\x00' then
    .error .nulInPath
  else if maxPathLength < path.utf8ByteSize then
    .error .nameTooLong
  else if path.isEmpty then
    .error .notFound
  else
    let ps := parts path
    match ps.getLast? with
    | none => .ok .directory
    | some last =>
      match v.follow [] ps.dropLast with
      | .error e => .error e
      | .ok above =>
        if last == "." || last == ".." then .ok .directory else .ok (.name ⟨above, last⟩)

def isDirectory (v : Volume) (path : String) : Bool :=
  match v.resolve path with
  | .error _ => false
  | .ok .directory => true
  | .ok (.name l) =>
    match v.find l with
    | .ok (some (.directory _)) => true
    | _ => false

/-- The parts without those at the end that name nothing: `.`, and the empty text that stands
between two slashes in a row. -/
def dropIdle (ps : List String) : List String :=
  (ps.reverse.dropWhile fun p => p == "" || p == ".").reverse

/-- The path without its last part, if it has a part. What stands before that is left as it is
written, up to the part that is then the last. A part `.` counts only at the front. -/
def parent? (path : String) : Option String :=
  match pieces path with
  | [] => none
  | first :: rest =>
    match dropIdle rest with
    | [] => if first == "" then none else some ""
    | rest =>
      match dropIdle rest.dropLast with
      | [] => some (if first == "" then "/" else first)
      | rest => some ("/".intercalate (first :: rest))

/-! ## Files -/

/-- Find the file of a path, and create it if it is missing. -/
def openFile (v : Volume) (path : String) : Except VolumeError Location × Volume :=
  match v.resolve path with
  | .error e => (.error e, v)
  | .ok .directory => (.error .isDirectory, v)
  | .ok (.name l) =>
    if endsInSlash path then
      (.error .isDirectory, v)
    else
      match v.find l with
      | .error e => (.error e, v)
      | .ok (some (.directory _)) => (.error .isDirectory, v)
      | .ok (some (.file _)) => (.ok l, v)
      | .ok none => (.ok l, v.put l (.file {}))

/-- Find the file of a path, which must be there. -/
def findFile (v : Volume) (path : String) : Except VolumeError Location :=
  match v.resolve path with
  | .error e => .error e
  | .ok .directory => .error .isDirectory
  | .ok (.name l) =>
    match v.find l with
    | .error e => .error e
    | .ok (some (.directory _)) => .error .isDirectory
    | .ok (some (.file _)) => if endsInSlash path then .error .notDirectory else .ok l
    | .ok none => .error .notFound

def fileContent (v : Volume) (path : String) : Except VolumeError Bytes :=
  (v.findFile path).map fun l => (v.content l).toBytes

/-- Give a file, which is created if it is missing, other bytes. -/
def writeFile (v : Volume) (path : String) (bytes : Bytes) : Except VolumeError Unit × Volume :=
  match v.openFile path with
  | (.error e, v) => (.error e, v)
  | (.ok l, v) => (.ok (), v.put l (.file (.ofBytes bytes)))

def editFile (v : Volume) (path : String) (f : SparseBytes → SparseBytes) :
    Except VolumeError Unit × Volume :=
  match v.findFile path with
  | .error e => (.error e, v)
  | .ok l => (.ok (), v.put l (.file (f (v.content l))))

/-- The first length that cannot even be asked for. -/
def lengthLimit : Nat := Bytes.capacity 8 / 2

/-- The most bytes of a file: all blocks of 4096 bytes that a number of four bytes counts. -/
def maxFileLength : Nat := (Bytes.capacity 4 - 1) * 4096

/-- Cut a file, or fill it up with zeros. -/
def resizeFile (v : Volume) (path : String) (length : Nat) : Except VolumeError Unit × Volume :=
  match v.findFile path with
  | .error e => (.error e, v)
  | .ok l =>
    if lengthLimit ≤ length then (.error .lengthOutOfRange, v)
    else if maxFileLength < length then (.error .fileTooLarge, v)
    else (.ok (), v.put l (.file ((v.content l).resize length)))

/-- Write bytes over those of the file at a location, from an offset on. Where the file cannot hold
them all, as many are written as it can hold, and the rest is refused. -/
def writeAt (v : Volume) (l : Location) (offset : Nat) (bytes : Bytes) :
    Except VolumeError Unit × Volume :=
  let room := maxFileLength - offset
  if bytes.length ≤ room then
    (.ok (), v.put l (.file ((v.content l).overwrite offset bytes)))
  else if 0 < room then
    (.error .fileTooLarge, v.put l (.file ((v.content l).overwrite offset (bytes.take room))))
  else
    (.error .fileTooLarge, v)

/-- Flip bits of the byte at an offset of a file, if it reaches so far. -/
def flipBits (v : Volume) (path : String) (offset : Nat) (mask : UInt8) :
    Except VolumeError Unit × Volume :=
  v.editFile path (·.flip offset mask)

/-! ## Directories -/

def createDirectory (v : Volume) (path : String) : Except VolumeError Unit × Volume :=
  match v.resolve path with
  | .error e => (.error e, v)
  | .ok .directory => (.error .alreadyExists, v)
  | .ok (.name l) =>
    match v.find l with
    | .error e => (.error e, v)
    | .ok (some _) => (.error .alreadyExists, v)
    | .ok none => (.ok (), v.put l (.directory []))

/-- Make a directory and those above it that are missing; `fuel` bounds the number of parts. -/
def createDirectoriesFrom (v : Volume) : (fuel : Nat) → (path : String) →
    Except VolumeError Unit × Volume
  | 0, _ => (.ok (), v)
  | fuel + 1, path =>
    match parent? path with
    | none => (.ok (), v)
    | some parent =>
      match v.createDirectory path with
      | (.ok (), v) => (.ok (), v)
      | (.error .notFound, v) =>
        match v.createDirectoriesFrom fuel parent with
        | (.error e, v) => (.error e, v)
        | (.ok (), v) =>
          match v.createDirectory path with
          | (.ok (), v) => (.ok (), v)
          | (.error e, v) => if v.isDirectory path then (.ok (), v) else (.error e, v)
      | (.error e, v) => if v.isDirectory path then (.ok (), v) else (.error e, v)

/-- Make a directory and those above it that are missing. -/
def createDirectories (v : Volume) (path : String) : Except VolumeError Unit × Volume :=
  v.createDirectoriesFrom ((parts path).length + 1) path

end Volume

end Dataflow
