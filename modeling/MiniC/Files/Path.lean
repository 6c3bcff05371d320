/-
# MiniC.Files.Path — paths as text.

Parts of a path stand between slashes.  `clean` drops what changes nothing: empty parts and single
dots.  A pair of dots stays, since what it undoes depends on the files that are there.  The empty
path is the working directory, and so is what is left when everything was dropped.

A part has at most 255 bytes and a path at most 4095, and no path has a zero in it.
-/
import MiniC.Bytes

namespace MiniC.Path

/-- The parts between slashes, empty ones included. -/
def parts (path : String) : List String := path.splitOn "/"

/-- A part that changes nothing. -/
def isIdle (part : String) : Bool := part == "" || part == "."

/-- The longest part, in bytes. -/
def longestPart : Nat := 255

/-- The longest path, in bytes. -/
def longest : Nat := 4095

/-- A leading slash stays as it is; a pair of them too, but three or more count as one. -/
def rootMark (path : String) : String :=
  match path.toList with
  | '/' :: '/' :: '/' :: _ => "/"
  | '/' :: '/' :: _ => "//"
  | '/' :: _ => "/"
  | _ => ""

/-- The path without parts that change nothing. -/
def clean (path : String) : String :=
  let kept := (parts path).filter fun part => !isIdle part
  let cleaned := rootMark path ++ "/".intercalate kept
  if cleaned.isEmpty then "." else cleaned

end MiniC.Path
