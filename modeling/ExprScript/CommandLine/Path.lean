namespace ExprScript

structure Path where
  /-- The slashes of an absolute path: none, one or two. -/
  root : String
  parts : List String
deriving DecidableEq, Repr

namespace Path

/-- Reads a path. Empty parts and single dots say nothing and go away. Two slashes in front are a
root of their own, more than two are one. -/
def ofString (s : String) : Path :=
  let slashes := (s.toList.takeWhile (· = '/')).length
  let root := if slashes = 0 then "" else if slashes = 2 then "//" else "/"
  let pieces := (s.toList.splitOn '/').map String.ofList
  ⟨root, pieces.filter (fun part => part ≠ "" && part ≠ ".")⟩

/-- The text of a path. The path of no parts is a dot. -/
def display (p : Path) : String :=
  if p.root = "" && p.parts = [] then "." else p.root ++ "/".intercalate p.parts

end Path

/-- The files below a directory, each under the parts of its path. -/
structure Folder where
  files : List (List String × ByteArray)

namespace Folder

/-- Some file lies below the place with the given parts. -/
def isFolder (folder : Folder) (place : List String) : Bool :=
  folder.files.any (fun file => place.length < file.1.length && place.isPrefixOf file.1)

/-- The place where following parts leads, from a place. Only a folder can be left by two dots or
entered, and nothing is known above the top. -/
def follow (folder : Folder) (place : List String) : List String → Option (List String)
  | [] => some place
  | part :: rest =>
    if place ≠ [] && !folder.isFolder place then none
    else if part = ".." then
      if place = [] then none else folder.follow place.dropLast rest
    else folder.follow (place ++ [part]) rest

def file? (folder : Folder) (path : Path) : Option ByteArray :=
  if path.root = "" then
    (folder.follow [] path.parts).bind (fun place => folder.files.lookup place)
  else none

end Folder

end ExprScript
