import Contracts.Config
import Contracts.Json.Reader

/-!
# Reading a configuration

A configuration is an object whose members may come in any order. Members that are left out keep
their defaults, members of other names are stepped over, and no member of a known name may come
twice. A list gives the fields in their order, and those that are missing keep their defaults.
-/

namespace Contracts.Config

inductive Field where
  | checker
  | checkMethod
  | cacheProperty
  | strictDirectives
  | sourceMap
  deriving DecidableEq, Repr

namespace Field

def name : Field → String
  | .checker => "checker"
  | .checkMethod => "check_method"
  | .cacheProperty => "cache_property"
  | .strictDirectives => "strict_directives"
  | .sourceMap => "source_map"

/-- The fields in the order in which a list gives them. -/
def all : List Field :=
  [.checker, .checkMethod, .cacheProperty, .strictDirectives, .sourceMap]

def ofName? (name : String) : Option Field :=
  all.find? fun f => f.name == name

/-- Read the value of a field into a configuration. -/
def read (f : Field) (c : Config) : JsonReader Config := do
  match f with
  | .checker => return { c with checker := ← JsonReader.string }
  | .checkMethod => return { c with checkMethod := ← JsonReader.optionalString }
  | .cacheProperty => return { c with cacheProperty := ← JsonReader.string }
  | .strictDirectives => return { c with strictDirectives := ← JsonReader.boolean }
  | .sourceMap => return { c with sourceMap := ← JsonReader.boolean }

end Field

/-- Fail because a field comes twice. The error stands after the key and, if the object ends there,
after its end. -/
def repeatedField {α : Type} (f : Field) : JsonReader α := do
  if (← JsonReader.peekAfterBlanks) == some '\x7d' then JsonReader.take
  JsonReader.fail (.duplicateField f.name)

/-- Read members up to the end of the object; `seen` are the fields that have been read. -/
def readMembers (c : Config) (seen : List Field) (isFirst : Bool) : Nat → JsonReader Config
  | 0 => JsonReader.fail .endInObject
  | n + 1 => do
    match ← JsonReader.nextKey? isFirst with
    | none =>
      JsonReader.endObject
      return c
    | some key =>
      match Field.ofName? key with
      | some f =>
        if seen.contains f then repeatedField f
        else
          JsonReader.colon
          let c ← f.read c
          readMembers c (f :: seen) false n
      | none =>
        JsonReader.colon
        JsonReader.skipValue
        readMembers c seen false n

/-- Read the fields of a list, in their order. -/
def readElements (c : Config) (isFirst : Bool) : List Field → JsonReader Config
  | [] => do
    JsonReader.endList
    return c
  | f :: fs => do
    if ← JsonReader.hasElement isFirst then
      let c ← f.read c
      readElements c false fs
    else
      JsonReader.endList
      return c

/-- Read a configuration. -/
def reader : JsonReader Config := do
  match ← JsonReader.peekAfterBlanks with
  | none => JsonReader.fail .endInValue
  | some '[' =>
    JsonReader.take
    readElements .default true Field.all
  | some '\x7b' =>
    JsonReader.take
    readMembers .default [] true ((← get).rest.length + 1)
  | some _ => JsonReader.mistyped "struct InstrumentConfig"

/-- The configuration that a text writes. -/
def read (text : String) : Except JsonError Config :=
  JsonReader.ofText reader text

end Contracts.Config
