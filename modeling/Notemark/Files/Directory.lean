import Notemark.Files.Path

/-!
# Directories

A directory is given by the files below it.

* `Directory`: the files with their paths and contents,
* `Directory.locate?`: the file or directory that a path leads to, which may go up again,
* `Directory.isFolder`, `Directory.isFile`, `Directory.names`: what is there.
-/

namespace Notemark.Files

structure Directory where
  files : List (Path × List UInt8)
  deriving Repr, DecidableEq

namespace Directory

/-- The name that leads one directory up. -/
def up : Text := ['.', '.']

/-- Whether a path without steps up is that of a directory: of the whole or of one with files. -/
def hasFolder (d : Directory) (p : Path) : Bool :=
  p.isEmpty || d.files.any fun f => p.isPrefixOf f.1 && p.length < f.1.length

def hasFile (d : Directory) (p : Path) : Bool := d.files.any fun f => f.1 = p

/-- Where a path leads from a place: every name but the last has to be that of a directory, and
nothing is above the whole. -/
def locateFrom (d : Directory) (place : Path) : Path → Option Path
  | [] => some place
  | name :: names =>
    if !d.hasFolder place then none
    else if name = up then
      if place.isEmpty then none else locateFrom d place.dropLast names
    else locateFrom d (place ++ [name]) names

/-- The path without steps up that a path leads to. -/
def locate? (d : Directory) (p : Path) : Option Path := d.locateFrom [] p

def isFolder (d : Directory) (p : Path) : Bool :=
  match d.locate? p with
  | some q => d.hasFolder q
  | none => false

def isFile (d : Directory) (p : Path) : Bool :=
  match d.locate? p with
  | some q => d.hasFile q
  | none => false

/-- The contents of a file. -/
def read? (d : Directory) (p : Path) : Option (List UInt8) :=
  (d.locate? p).bind fun q => (d.files.find? fun f => f.1 = q).map (·.2)

/-- The names in a directory, each once. -/
def names (d : Directory) (p : Path) : List Text :=
  match d.locate? p with
  | some q =>
    (d.files.filterMap fun f =>
      if q.isPrefixOf f.1 then (f.1.drop q.length).head? else none).eraseDups
  | none => []

/-- The longest path of a file. -/
def depth (d : Directory) : Nat := d.files.foldl (fun n f => max n f.1.length) 0

/-- A directory and all directories below it, down to a depth. -/
def foldersFrom (d : Directory) : Nat → Path → List Path
  | 0, p => [p]
  | levels + 1, p =>
    p :: ((d.names p).filter fun name => d.isFolder (p ++ [name])).flatMap fun name =>
      foldersFrom d levels (p ++ [name])

def folders (d : Directory) (p : Path) : List Path := d.foldersFrom d.depth p

end Directory

end Notemark.Files
