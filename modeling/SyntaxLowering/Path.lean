/-!
# File paths

Paths are texts whose parts are separated by slashes. Empty parts and the part `.` name the
directory they stand in, and `..` names the one above.

`outputPath` gives the place of a result: below the output directory, and nowhere else, since the
parts of a unit path that could lead out of it are left out.
-/

namespace SyntaxLowering.Path

/-- The parts of a text between separators; there is one more part than separators. -/
def splitAtChar (separator : Char) : List Char → List (List Char)
  | [] => [[]]
  | c :: cs =>
    if c = separator then [] :: splitAtChar separator cs
    else
      match splitAtChar separator cs with
      | [] => [[c]]
      | part :: parts => (c :: part) :: parts

/-- The parts of a path between slashes. -/
def parts (path : String) : List String :=
  (splitAtChar '/' path.toList).map String.ofList

/-- Whether a part of a path names the directory it stands in. -/
def isRedundant (part : String) : Bool :=
  part == "" || part == "."

/-- Whether a part of a path names a file or directory of its own. -/
def isNormal (part : String) : Bool :=
  part != "" && part != "." && part != ".."

/-- The parts of a path that name files or directories. -/
def normalParts (path : String) : List String :=
  (parts path).filter isNormal

/-- A path below a directory. -/
def join (directory relative : String) : String :=
  match directory.toList.getLast? with
  | none => relative
  | some '/' => directory ++ relative
  | some _ => directory ++ "/" ++ relative

/-- Where the result of a unit is written: a text under the name of the unit, anything else with
`.json` after it. -/
def outputPath (directory unitPath : String) (asText : Bool) : String :=
  let target := join directory (String.intercalate "/" (normalParts unitPath))
  if asText then target else target ++ ".json"

/-- The directory that holds what a path names; `none` for the path without parts. -/
def parent? (path : String) : Option String :=
  match (parts path).reverse.dropWhile isRedundant with
  | [] => none
  | _ :: above =>
    match above.dropWhile isRedundant, path.toList.head? with
    | [], some '/' => some "/"
    | rest, _ => some (String.intercalate "/" rest.reverse)

end SyntaxLowering.Path
