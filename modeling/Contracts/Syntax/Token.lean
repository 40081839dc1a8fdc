import Contracts.Syntax.Span
import Contracts.Text.Basic

/-!
# Tokens

A token is a kind with its text, a span, and whether a line ended between it and the token before.
The classes of words and operators that the grammar and the attachment of comments ask for are
predicates on the kind.
-/

namespace Contracts

/-- White space of a script, line ends not included. -/
def isSpace (c : Char) : Bool :=
  let n := c.toNat
  n == 0x09 || n == 0x0B || n == 0x0C || n == 0x20 || n == 0xA0 || n == 0xFEFF || n == 0x1680 ||
    (0x2000 ≤ n && n ≤ 0x200A) || n == 0x202F || n == 0x205F || n == 0x3000

inductive TokenKind where
  /-- A name or a keyword, escapes resolved; whether it was written with an escape. -/
  | word (text : String) (isEscaped : Bool)
  | privateName (text : String)
  | number (text : String)
  | bigint (text : String)
  | string (text : String)
  | regex (text : String)
  | punctuator (text : String)
  /-- The opening of a substitution in a template. -/
  | substitution
  | endOfFile
  deriving DecidableEq, Repr

structure Token where
  kind : TokenKind
  span : Span
  afterBreak : Bool
  deriving DecidableEq, Repr

/-- The words that are never names. -/
def reservedWords : List String :=
  ["break", "case", "catch", "class", "const", "continue", "debugger", "default", "delete", "do",
    "else", "enum", "export", "extends", "false", "finally", "for", "function", "if", "import",
    "in", "instanceof", "new", "null", "return", "super", "switch", "this", "throw", "true", "try",
    "typeof", "var", "void", "while", "with"]

/-- The words that are names in some places and have a meaning of their own in others, and that do
not count as names when comments are attached. -/
def restrictedWords : List String :=
  ["await", "let", "yield"]

/-- The words that are names only outside of strict mode. -/
def strictWords : List String :=
  ["implements", "interface", "let", "package", "private", "protected", "public", "static",
    "yield"]

def binaryOperators : List String :=
  ["+", "-", "*", "/", "%", "**", "<<", ">>", ">>>", "&", "|", "^", "&&", "||", "??", "==", "!=",
    "===", "!==", "<", "<=", ">", ">="]

def assignmentOperators : List String :=
  ["=", "+=", "-=", "*=", "/=", "%=", "**=", "<<=", ">>=", ">>>=", "&=", "|=", "^=", "&&=", "||=",
    "??="]

namespace TokenKind

def isPunctuator (k : TokenKind) (text : String) : Bool :=
  k == .punctuator text

/-- Whether the token is the keyword `text`, written without escapes. -/
def isWord (k : TokenKind) (text : String) : Bool :=
  k == .word text false

/-- The name that the token can stand for as a variable, if it can. -/
def name? : TokenKind → Option String
  | .word text _ => if reservedWords.contains text then none else some text
  | _ => none

/-- Whether a line comment right after the token belongs to what follows. -/
def isBinaryOperator : TokenKind → Bool
  | .punctuator text => binaryOperators.contains text
  | _ => false

/-- Whether a block comment right after the token, on its line, belongs to the token. -/
def holdsTrailingComment : TokenKind → Bool
  | .word text _ => !reservedWords.contains text && !restrictedWords.contains text
  | .number _ | .bigint _ | .string _ | .regex _ | .substitution => true
  | .punctuator text => text == ";" || text == "\x7b" || text == "\x7d"
  | .privateName _ | .endOfFile => false

end TokenKind

end Contracts
