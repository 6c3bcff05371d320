/-
# MiniC.Files.Folder — a working directory and what a path names in it.

A path is followed part by part from the working directory.  Every part but the last must name a
directory, also an empty part or a dot.  Above the working directory nothing is known except that
it is directories all the way up.

The names of a folder are paths themselves: what they pass on their way is there too.
-/
import MiniC.Files.Path

namespace MiniC

/-- What stands at a path. -/
inductive Entry where
  | missing
  | directory
  | file (content : Bytes)
  /-- The path, or a part of it that was looked for, is too long. -/
  | tooLong
  /-- The text has a zero in it, so it is no path. -/
  | unnamed
deriving DecidableEq, Repr

/-- A working directory: files by name relative to it, and directories without files. -/
structure Folder where
  files : List (String × Bytes) := []
  emptyDirs : List String := []
deriving DecidableEq, Repr

namespace Folder

/-- One part further, inside the working directory. -/
def step (place : List String) (part : String) : List String :=
  if Path.isIdle part then place
  else if part == ".." then place.dropLast
  else place ++ [part]

/-- The places passed from a place on, the one arrived at last. -/
def trailFrom (place : List String) : List String → List (List String)
  | [] => [place]
  | part :: rest => place :: trailFrom (step place part) rest

/-- The places a name passes. -/
def trail (name : String) : List (List String) := trailFrom [] (Path.parts name)

/-- The place of a name. -/
def placeOf (name : String) : List String := (Path.parts name).foldl step []

/-- What stands at a place given by its parts.  Of two files at one place the later counts. -/
def entryAt (f : Folder) (place : List String) : Entry :=
  match f.files.reverse.find? fun (name, _) => placeOf name == place with
  | some (_, content) => .file content
  | none =>
    let passed := (f.files.map (·.1) ++ f.emptyDirs).flatMap trail
    if place.isEmpty || passed.any place.isPrefixOf then .directory else .missing

/-- Follows one part of a path; a place of `none` lies above the working directory. -/
def follow (f : Folder) (place : Option (List String)) (part : String) :
    Except Entry (Option (List String)) :=
  match place with
  | none =>
    if Path.isIdle part || part == ".." then .ok none
    else .error (if Path.longestPart < part.utf8ByteSize then .tooLong else .missing)
  | some inside =>
    if f.entryAt inside != .directory then .error .missing
    else if Path.longestPart < part.utf8ByteSize then .error .tooLong
    else if part == ".." && inside.isEmpty then .ok none
    else .ok (some (step inside part))

/-- What stands at a path. -/
def lookup (f : Folder) (path : String) : Entry :=
  let start := if path.startsWith "/" then none else some []
  if path.toList.contains (Char.ofNat 0) then .unnamed
  else if path.isEmpty then .missing
  else if Path.longest < path.utf8ByteSize then .tooLong
  else
    match (Path.parts path).foldlM f.follow start with
    | .error entry => entry
    | .ok none => .directory
    | .ok (some place) => f.entryAt place

end Folder

end MiniC
