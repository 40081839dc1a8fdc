import Contracts.Text.Basic

/-!
# Data in JSON

A value with the members of an object in the order in which they are written, and two ways to write
it: on one line without blanks, and with every element on a line of its own. Numbers are kept as
their text.
-/

namespace Contracts

inductive Json where
  | null
  | bool (b : Bool)
  | number (text : String)
  | string (s : String)
  | array (elements : List Json)
  | object (members : List (String × Json))
  deriving Repr, Inhabited

namespace Json

/-- How a character is written inside a string. -/
def escape (c : Char) : List Char :=
  if c = '"' then ['\\', '"']
  else if c = '\\' then ['\\', '\\']
  else if c = '\x08' then ['\\', 'b']
  else if c = '\x0c' then ['\\', 'f']
  else if c = '\n' then ['\\', 'n']
  else if c = '\r' then ['\\', 'r']
  else if c = '\t' then ['\\', 't']
  else if c.toNat < 0x20 then '\\' :: 'u' :: Text.hex 4 c.toNat
  else [c]

def quoted (s : String) : String :=
  String.ofList ('"' :: s.toList.flatMap escape ++ ['"'])

def ofNat (n : Nat) : Json :=
  .number (toString n)

def joined (separator : String) (parts : List String) : String :=
  String.intercalate separator parts

mutual

/-- The value on one line, without blanks. -/
def compact : Json → String
  | .null => "null"
  | .bool b => if b then "true" else "false"
  | .number text => text
  | .string s => quoted s
  | .array es => "[" ++ joined "," (compactElements es) ++ "]"
  | .object ms => "\x7b" ++ joined "," (compactMembers ms) ++ "\x7d"

def compactElements : List Json → List String
  | [] => []
  | e :: es => compact e :: compactElements es

def compactMembers : List (String × Json) → List String
  | [] => []
  | (k, v) :: ms => (quoted k ++ ":" ++ compact v) :: compactMembers ms

end

/-- The elements of a list or object on lines of their own, two blanks deeper than `depth`. -/
def onLines (opening closing : String) (depth : Nat) (parts : List String) : String :=
  if parts.isEmpty then opening ++ closing
  else
    let line (levels : Nat) : String := "\n" ++ String.ofList (List.replicate (2 * levels) ' ')
    opening ++ line (depth + 1) ++ joined ("," ++ line (depth + 1)) parts ++ line depth ++ closing

mutual

/-- The value with every element on a line of its own, at the given depth. -/
def pretty (depth : Nat) : Json → String
  | .null => "null"
  | .bool b => if b then "true" else "false"
  | .number text => text
  | .string s => quoted s
  | .array es => onLines "[" "]" depth (prettyElements (depth + 1) es)
  | .object ms => onLines "\x7b" "\x7d" depth (prettyMembers (depth + 1) ms)

def prettyElements (depth : Nat) : List Json → List String
  | [] => []
  | e :: es => pretty depth e :: prettyElements depth es

def prettyMembers (depth : Nat) : List (String × Json) → List String
  | [] => []
  | (k, v) :: ms => (quoted k ++ ": " ++ pretty depth v) :: prettyMembers depth ms

end

end Json

end Contracts
