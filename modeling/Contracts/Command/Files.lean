import Contracts.Command.Path
import Contracts.Text.Basic

/-!
# File trees

The files that a run can see, each at its location. A location is the list of the names that lead to
it from the root. The directories are the starts of the locations of files, the directories that are
listed for themselves because they may be empty, and those that the working directory is in.

A path is resolved by walking along its segments with the location reached so far; the walk starts at
the working directory, or at the root if the path starts with a slash.
-/

namespace Contracts

abbrev Location := List String

structure File where
  location : Location
  bytes : ByteArray

structure FileTree where
  /-- The working directory. -/
  base : Location
  directories : List Location
  files : List File

/-- What can go wrong with a file. -/
inductive FileError where
  | notFound
  | exists
  | notDirectory
  | isDirectory
  | notText
  deriving DecidableEq, Repr

def FileError.message : FileError → String
  | .notFound => "No such file or directory (os error 2)"
  | .exists => "File exists (os error 17)"
  | .notDirectory => "Not a directory (os error 20)"
  | .isDirectory => "Is a directory (os error 21)"
  | .notText => "stream did not contain valid UTF-8"

namespace FileTree

def find? (t : FileTree) (l : Location) : Option File :=
  t.files.find? fun f => f.location == l

def isFile (t : FileTree) (l : Location) : Bool :=
  (t.find? l).isSome

/-- Whether `m` leads from `l` further on. -/
def isBelow (l m : Location) : Bool :=
  l.length < m.length && l.isPrefixOf m

def isDirectory (t : FileTree) (l : Location) : Bool :=
  l.isPrefixOf t.base || t.directories.any l.isPrefixOf ||
    t.files.any fun f => isBelow l f.location

/-- Walk along segments from a location. Each step has to start from a directory, and the root is its
own parent. -/
def walk (t : FileTree) (l : Location) : List String → Except FileError Location
  | [] => .ok l
  | segment :: rest =>
    if t.isDirectory l then
      if segment = "" || segment = "." then walk t l rest
      else if segment = ".." then walk t l.dropLast rest
      else walk t (l ++ [segment]) rest
    else if t.isFile l then .error .notDirectory
    else .error .notFound

/-- Where the walk along a path starts. -/
def startOf (t : FileTree) (path : String) : Location :=
  if path.toList.head? = some '/' then [] else t.base

/-- The location of a path. -/
def locate (t : FileTree) (path : String) : Except FileError Location :=
  t.walk (t.startOf path) (Path.segments path)

/-- The location of a file that exists. -/
def fileAt? (t : FileTree) (path : String) : Option Location :=
  match t.locate path with
  | .ok l => if t.isFile l then some l else none
  | .error _ => none

/-- The location of a directory that exists. -/
def directoryAt? (t : FileTree) (path : String) : Option Location :=
  match t.locate path with
  | .ok l => if t.isDirectory l then some l else none
  | .error _ => none

/-- The text of a file. -/
def read (t : FileTree) (path : String) : Except FileError String :=
  match t.locate path with
  | .error e => .error e
  | .ok l =>
    match t.find? l with
    | some f =>
      match String.fromUTF8? f.bytes with
      | some text => .ok text
      | none => .error .notText
    | none => if t.isDirectory l then .error .isDirectory else .error .notFound

/-- Locations name by name, and names by their characters. -/
def precedes : Location → Location → Bool
  | [], _ => true
  | _ :: _, [] => false
  | a :: l, b :: m => if a = b then precedes l m else Text.before a b

/-- The files below a directory, as the names that lead from it to them. The entries of a directory
come in the order of their names, and the contents of a directory where its name stands. -/
def below (t : FileTree) (l : Location) : List Location :=
  let inside := t.files.filter fun f => isBelow l f.location
  (inside.map fun f => f.location.drop l.length).mergeSort precedes

/-- The location that segments lead to from another one, whatever exists. -/
def resolve (l : Location) : List String → Location
  | [] => l
  | segment :: rest =>
    if segment = "" || segment = "." then resolve l rest
    else if segment = ".." then resolve l.dropLast rest
    else resolve (l ++ [segment]) rest

/-- Walk along the segments of a directory, which is made where it does not exist. Only a directory
whose own name is taken by a file is said to exist. -/
def makeDirectory (t : FileTree) (l : Location) : List String → Except FileError Location
  | [] => .ok l
  | segment :: rest =>
    if segment = ".." then makeDirectory t l.dropLast rest
    else if t.isFile (l ++ [segment]) then
      if rest.isEmpty then .error .exists else .error .notDirectory
    else makeDirectory t (l ++ [segment]) rest

/-- Put a file at a location, in place of one that is there. -/
def put (t : FileTree) (l : Location) (bytes : ByteArray) : FileTree :=
  if t.isFile l then
    { t with files := t.files.map fun f => if f.location == l then ⟨l, bytes⟩ else f }
  else { t with files := t.files ++ [⟨l, bytes⟩] }

/-- Write a text to a path, with the directories it is in made where they do not exist. -/
def write (t : FileTree) (path text : String) : Except FileError FileTree :=
  let segments := Path.segments path
  let steps := segments.dropLast.filter fun s => !(s == "" || s == ".")
  match t.makeDirectory (t.startOf path) steps with
  | .error e => .error e
  | .ok directory =>
    let l := directory ++ [segments.getLastD ""]
    if t.isDirectory l then .error .isDirectory else .ok (t.put l text.toUTF8)

/-- The path that leads along a location. -/
def pathOf (l : Location) : String :=
  String.intercalate "/" l

/-- The files of `after` that are not in `t` as they are. -/
def changes (t after : FileTree) : List File :=
  after.files.filter fun f =>
    match t.find? f.location with
    | some g => !(g.bytes == f.bytes)
    | none => true

/-- The files that lie below the working directory, with their paths from there, by path. -/
def localPaths (t : FileTree) (files : List File) : List (String × ByteArray) :=
  let inside := files.filter fun f => isBelow t.base f.location
  (inside.map fun f => (pathOf (f.location.drop t.base.length), f.bytes)).mergeSort
    fun a b => !Text.before b.1 a.1

end FileTree

end Contracts
