/-!
# Paths as texts

A path is a text of segments with slashes between them. Its components are what is left when empty
segments and inner segments of a single point are dropped; the same path has many spellings with the
same components.
-/

namespace Contracts.Path

/-- The segments of a text, which are what stands between its slashes. -/
def segmentsFrom (segment : List Char) : List Char → List String
  | [] => [String.ofList segment.reverse]
  | c :: cs =>
    if c = '/' then String.ofList segment.reverse :: segmentsFrom [] cs
    else segmentsFrom (c :: segment) cs

def segments (path : String) : List String :=
  segmentsFrom [] path.toList

inductive Component where
  | root
  | current
  | parent
  | normal (name : String)
  deriving DecidableEq, Repr

/-- A segment after the first one as a component, if it counts. -/
def component? (segment : String) : Option Component :=
  if segment = "" || segment = "." then none
  else if segment = ".." then some .parent
  else some (.normal segment)

/-- The first segment as a component: empty in front of a slash it is the root, and a point counts
here. -/
def firstComponent? (segment : String) (isLast : Bool) : Option Component :=
  if segment = "" then if isLast then none else some .root
  else if segment = "." then some .current
  else component? segment

def components (path : String) : List Component :=
  match segments path with
  | [] => []
  | first :: rest => (firstComponent? first rest.isEmpty).toList ++ rest.filterMap component?

/-- The components of the directory that a path is in; the root and the empty path are in none. -/
def parentComponents? (path : String) : Option (List Component) :=
  match (components path).getLast? with
  | none | some .root => none
  | some _ => some (components path).dropLast

def excludedNames : List String :=
  ["node_modules", "test", "tests"]

def Component.isExcluded : Component → Bool
  | .normal name => excludedNames.contains name
  | _ => false

/-- Whether a script at the path is to be instrumented: none is that lies in an excluded directory. -/
def isInstrumentable (path : String) : Bool :=
  match parentComponents? path with
  | none => true
  | some cs => !cs.any Component.isExcluded

/-- The name of what a path leads to, if its last component is a name. -/
def fileName? (path : String) : Option String :=
  match (components path).getLast? with
  | some (.normal name) => some name
  | _ => none

/-- Whether a file name has the extension `js`: what follows its last point, if that is not its first
character. -/
def isScriptName (name : String) : Bool :=
  match name.toList.reverse with
  | 's' :: 'j' :: '.' :: stem => !stem.isEmpty
  | _ => false

/-- A path below another one. -/
def join (directory below : String) : String :=
  if directory = "" || below.toList.head? = some '/' then below
  else if directory.toList.getLast? = some '/' then directory ++ below
  else directory ++ "/" ++ below

end Contracts.Path
