import SyntaxLowering.Path

/-!
# File trees

A `FileTree` is a file system held in memory, with a working directory: what a run of the command
line reads and writes, without a disk. Paths are followed part by part; every part but the last
must name a directory that exists.

`FileTree.createDirectories` makes what is missing on a path from the top down. Directories made
before it meets an obstacle stay.
-/

namespace SyntaxLowering

/-- A file system with a working directory. Files and directories have places, which are the names
that lead to them from the root. -/
structure FileTree where
  /-- The place of the working directory. -/
  home : List String := []
  files : List (List String × ByteArray) := []
  /-- The directories besides the working directory and those above it. -/
  directories : List (List String) := []

/-- Why a path cannot be followed. -/
inductive Obstacle where
  /-- A directory on the way does not exist. -/
  | missing
  /-- A file is in the way, or a name is not allowed. -/
  | blocked
deriving DecidableEq, Repr

namespace FileTree

/-- Whether a place is a directory. -/
def isDirectory (t : FileTree) (place : List String) : Bool :=
  place.isPrefixOf t.home || t.directories.contains place

/-- The contents of the file at a place. -/
def contents? (t : FileTree) (place : List String) : Option ByteArray :=
  t.files.lookup place

/-- The files below the working directory, by the names that lead to them from there. -/
def localFiles (t : FileTree) : List (List String × ByteArray) :=
  t.files.filterMap fun (place, bytes) =>
    if t.home.isPrefixOf place then some (place.drop t.home.length, bytes) else none

/-! ### Following paths -/

/-- Whether a path can be followed at all: it is not empty, not too long, and holds no NUL. -/
def isUsable (path : String) : Bool :=
  !path.isEmpty && path.utf8ByteSize < 4096 && !path.toList.contains '\x00'

/-- Where following a path starts. -/
def origin (t : FileTree) (path : String) : List String :=
  if path.toList.head? = some '/' then [] else t.home

/-- The place that one part of a path leads to from a directory. The root is above itself. -/
def follow (place : List String) (part : String) : Except Obstacle (List String) :=
  if Path.isRedundant part then .ok place
  else if part = ".." then .ok place.dropLast
  else if part.utf8ByteSize ≤ 255 then .ok (place ++ [part])
  else .error .blocked

/-- The place that the parts of a path lead to from another place, whether or not anything is
there. -/
def walk (t : FileTree) : (place parts : List String) → Except Obstacle (List String)
  | place, [] => .ok place
  | place, part :: parts =>
    if t.isDirectory place then
      match follow place part with
      | .ok next => t.walk next parts
      | .error obstacle => .error obstacle
    else .error (if (t.contents? place).isSome then .blocked else .missing)

/-- The place that a path leads to, whether or not anything is there. -/
def locate (t : FileTree) (path : String) : Except Obstacle (List String) :=
  if isUsable path then t.walk (t.origin path) (Path.parts path) else .error .blocked

/-! ### Reading and writing -/

/-- The text of a file; `none` if there is no such file or it holds no text. -/
def read (t : FileTree) (path : String) : Option String := do
  let bytes ← t.contents? (← (t.locate path).toOption)
  String.fromUTF8? bytes

/-- Makes sure that there is a directory at a place. -/
def ensureDirectory (t : FileTree) (place : List String) : Except Obstacle FileTree :=
  if t.isDirectory place then .ok t
  else if (t.contents? place).isSome then .error .blocked
  else .ok { t with directories := t.directories ++ [place] }

/-- Makes sure that the parts of a path lead to a directory. The one above must exist. -/
def createDirectory (t : FileTree) (start parts : List String) : Except Obstacle FileTree := do
  t.ensureDirectory (← t.walk start parts)

/-- Makes sure that the parts of a path, last part first, lead to a directory. If one is missing
above it, that is created before. -/
def createUpward (t : FileTree) (start : List String) : List String → FileTree × Option Obstacle
  | [] => (t, none)
  | part :: above =>
    match t.createDirectory start (part :: above).reverse with
    | .ok made => (made, none)
    | .error .blocked => (t, some .blocked)
    | .error .missing =>
      match t.createUpward start above with
      | (grown, some obstacle) => (grown, some obstacle)
      | (grown, none) =>
        match grown.createDirectory start (part :: above).reverse with
        | .ok made => (made, none)
        | .error obstacle => (grown, some obstacle)

/-- Creates a directory with all directories above it, as far as possible. -/
def createDirectories (t : FileTree) (path : String) : FileTree × Option Obstacle :=
  if path.isEmpty then (t, none)
  else if isUsable path then
    t.createUpward (t.origin path) ((Path.parts path).filter (!Path.isRedundant ·)).reverse
  else (t, some .blocked)

/-- Puts a file at a place, over the one that may be there. -/
def put (t : FileTree) (place : List String) (bytes : ByteArray) : FileTree :=
  if (t.contents? place).isSome then
    { t with files := t.files.map fun f => if f.1 = place then (place, bytes) else f }
  else { t with files := t.files ++ [(place, bytes)] }

/-- Writes a file. The directory above must exist, and the path must not name a directory. -/
def write (t : FileTree) (path : String) (bytes : ByteArray) : Except Obstacle FileTree := do
  let place ← t.locate path
  if t.isDirectory place then .error .blocked else .ok (t.put place bytes)

end FileTree

end SyntaxLowering
