import Scheme.Files
/-!
# Paths

A path leads from the root or from the current directory through named directories to a place.
-/

namespace Scheme

/-- The names that lead from the root to a place, the last one first. -/
abbrev Place := List String

/-- The path from the root to a place. -/
def Place.path (place : Place) : String :=
  "/" ++ "/".intercalate place.reverse

/-- Why a path cannot be used. -/
inductive Obstacle where
  | absent
  | notDirectory
  | isDirectory
  | nameTooLong
  | zeroByte
deriving DecidableEq

def Obstacle.reason : Obstacle → String
  | .absent => "No such file or directory (os error 2)"
  | .notDirectory => "Not a directory (os error 20)"
  | .isDirectory => "Is a directory (os error 21)"
  | .nameTooLong => "File name too long (os error 36)"
  | .zeroByte => "file name contained an unexpected NUL byte"

/-- The longest name, in bytes. -/
def maxNameSize : Nat := 255

/-- The longest path, in bytes. -/
def maxPathSize : Nat := 4095

namespace Path

/-- The names in a path; those between two slashes in a row are left out. -/
def names (path : String) : List String :=
  (path.splitOn "/").filter (· ≠ "")

/-- Where a path starts. -/
def start (directory : Place) (path : String) : Place :=
  if path.startsWith "/" then [] else directory

/-- Whether the last name in a path has to be that of a directory. -/
def endsInSlash (path : String) : Bool :=
  path.endsWith "/"

/-- Obstacles that lie in the path itself. -/
def check (path : String) : Except Obstacle Unit :=
  if path.toList.contains '\x00' then .error .zeroByte
  else if path.isEmpty then .error .absent
  else if maxPathSize < path.utf8ByteSize then .error .nameTooLong
  else .ok ()

def isDirectory (files : Files) (place : Place) : Bool :=
  match place, files[place.path]? with
  | [], _ => true
  | _, some .directory => true
  | _, _ => false

/-- Goes through the names one by one. Every place but the last has to be a directory. -/
def follow (files : Files) : Place → List String → Except Obstacle Place
  | place, [] => .ok place
  | place, name :: rest =>
    if !isDirectory files place then .error .notDirectory
    else if name = "." then follow files place rest
    else if name = ".." then follow files place.tail rest
    else if maxNameSize < name.utf8ByteSize then .error .nameTooLong
    else if files.contains (Place.path (name :: place)) then follow files (name :: place) rest
    else .error .absent

/-- The place that a path leads to, where something stands. -/
def existing (files : Files) (directory : Place) (path : String) : Except Obstacle Place := do
  check path
  let tail := if endsInSlash path then ["."] else []
  follow files (start directory path) (names path ++ tail)

/-- The place of a file to be written, where a file may stand already. -/
def writable (files : Files) (directory : Place) (path : String) : Except Obstacle Place := do
  check path
  let steps := names path
  let parent ← follow files (start directory path) steps.dropLast
  if !isDirectory files parent then .error .notDirectory
  else
    match steps.getLast? with
    | none => .error .isDirectory
    | some name =>
      let place := name :: parent
      if name = "." || name = ".." || endsInSlash path then .error .isDirectory
      else if maxNameSize < name.utf8ByteSize then .error .nameTooLong
      else if isDirectory files place then .error .isDirectory
      else .ok place

/-- The places that a path touches, if every name in it leads somewhere. -/
def touched (directory : Place) (path : String) : List Place :=
  let step (seen : List Place × Place) (name : String) : List Place × Place :=
    let place :=
      if name = "." then seen.2 else if name = ".." then seen.2.tail else name :: seen.2
    (place :: seen.1, place)
  ((names path).foldl step ([], start directory path)).1

/-- The path from a directory to a place inside it, which is given by its path from the root. -/
def within? (directory : Place) (path : String) : Option String :=
  let outer := directory.reverse
  let inner := names path
  if outer.isPrefixOf inner then some ("/".intercalate (inner.drop outer.length)) else none

end Path

namespace Files

/-- Puts something at a place and directories on the way to it. -/
def plant (files : Files) (place : Place) (node : Node) : Files :=
  match place with
  | [] => files
  | name :: parent =>
    let rec makeWay (files : Files) : Place → Files
      | [] => files
      | name :: parent => (makeWay files parent).insert (Place.path (name :: parent)) .directory
    (makeWay files parent).insert (Place.path (name :: parent)) node

/-- The devices that every system has. -/
def devices : Files :=
  [("null", .device none), ("full", .device (some "No space left on device (os error 28)")),
    ("stdout", .console false), ("stderr", .console true)].foldl
    (fun files (name, node) => plant files [name, "dev"] node) {}

end Files

end Scheme
