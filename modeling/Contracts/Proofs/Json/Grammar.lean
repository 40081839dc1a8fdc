import Contracts.Text.Units
import Mathlib.Data.List.Forall2
import Mathlib.Tactic.Choose

/-!
# The grammar of JSON

Which texts are values is said here by rules, without a reader. `Json.Derives` has one
rule for each form of a value, and for the elements of a list and the members of an
object one rule for the last of them and one for those before it. Blanks are part of the
rules for lists and objects and stand wherever the format allows them.

Two things are said about strings. `Json.IsString` is the form: what stands between the
quotes are characters that stand for themselves, short escapes, and escapes with four
digits. `Json.Denotes` says in addition which text a string writes. There a character can
be spelled by the escapes of its UTF-16 units, one after the other, and an escape of half
a surrogate pair that stands alone spells nothing.
-/

namespace Contracts

namespace Json

/-- Blanks, of the four characters that may stand around the marks of a text. -/
def IsBlanks (cs : List Char) : Prop :=
  ∀ c ∈ cs, c = ' ' ∨ c = '\n' ∨ c = '\t' ∨ c = '\r'

theorem isBlanks_nil : IsBlanks [] := by
  simp [IsBlanks]

section Strings

/-- A character that stands for itself between quotes. -/
structure IsPlain (c : Char) : Prop where
  ne_quote : c ≠ '"'
  ne_backslash : c ≠ '\\'
  not_control : 0x20 ≤ c.toNat

/-- The letters that can follow a backslash, with the characters they stand for then. -/
def shortEscapes : List (Char × Char) :=
  [('"', '"'), ('\\', '\\'), ('/', '/'), ('b', '\x08'), ('f', '\x0c'), ('n', '\n'), ('r', '\r'),
    ('t', '\t')]

/-- Four hexadecimal digits, in upper or lower case, and the number that they write. -/
structure IsQuad (digits : List Char) (n : Nat) : Prop where
  length_eq : digits.length = 4
  isHexDigit : ∀ d ∈ digits, Text.isHexDigit d = true
  number_eq : Text.hexNumber digits = n

/-- The pieces that stand between the quotes of a string. -/
inductive IsPiece : List Char → Prop
  | plain {c : Char} (h : IsPlain c) : IsPiece [c]
  | short {letter c : Char} (h : (letter, c) ∈ shortEscapes) : IsPiece ['\\', letter]
  | digits {digits : List Char} {n : Nat} (h : IsQuad digits n) : IsPiece ('\\' :: 'u' :: digits)

/-- A string of whatever pieces. -/
def IsString (cs : List Char) : Prop :=
  ∃ pieces : List (List Char), (∀ p ∈ pieces, IsPiece p) ∧ cs = '"' :: (pieces.flatten ++ ['"'])

/-- The ways to spell a character between quotes. -/
inductive Spells : Char → List Char → Prop
  | plain {c : Char} (h : IsPlain c) : Spells c [c]
  | short {letter c : Char} (h : (letter, c) ∈ shortEscapes) : Spells c ['\\', letter]
  | units {c : Char} {quads : List (List Char)} (h : List.Forall₂ IsQuad quads (Text.charUnits c)) :
      Spells c (quads.flatMap fun digits => '\\' :: 'u' :: digits)

/-- The string writes the text. -/
def Denotes (cs : List Char) (s : String) : Prop :=
  ∃ pieces : List (List Char), List.Forall₂ Spells s.toList pieces ∧
    cs = '"' :: (pieces.flatten ++ ['"'])

/-- Four digits write a number below thirty-two, as control characters have. -/
theorem isQuad_hex {n : Nat} (h : n < 0x20) : IsQuad (Text.hex 4 n) n := by
  have hdigits : ∀ n < 0x20, (Text.hex 4 n).length = 4 ∧
      (Text.hex 4 n).all Text.isHexDigit = true ∧ Text.hexNumber (Text.hex 4 n) = n := by
    decide
  obtain ⟨hlength, hall, hnumber⟩ := hdigits n h
  exact ⟨hlength, List.all_eq_true.mp hall, hnumber⟩

/-- Every character has a spelling. -/
theorem exists_spells (c : Char) : ∃ piece, Spells c piece := by
  by_cases hquote : c = '"'
  · have hshort : ('"', c) ∈ shortEscapes := by rw [hquote]; decide
    exact ⟨_, .short hshort⟩
  by_cases hbackslash : c = '\\'
  · have hshort : ('\\', c) ∈ shortEscapes := by rw [hbackslash]; decide
    exact ⟨_, .short hshort⟩
  by_cases hcontrol : c.toNat < 0x20
  · have hunits : List.Forall₂ IsQuad [Text.hex 4 c.toNat] (Text.charUnits c) := by
      rw [Text.charUnits, if_pos (by omega)]
      exact .cons (isQuad_hex hcontrol) .nil
    exact ⟨_, .units hunits⟩
  · exact ⟨_, .plain ⟨hquote, hbackslash, Nat.not_lt.mp hcontrol⟩⟩

/-- Every text is written by some string. -/
theorem exists_denotes (s : String) : ∃ cs, Denotes cs s := by
  choose piece hpiece using exists_spells
  refine ⟨_, s.toList.map piece, ?_, rfl⟩
  rw [List.forall₂_map_right_iff, List.forall₂_same]
  exact fun c _ => hpiece c

end Strings

section Numbers

def IsDigits (cs : List Char) : Prop :=
  ∀ c ∈ cs, c.isDigit = true

/-- The digits before the point: a zero in front of others is not allowed. -/
inductive IsWhole : List Char → Prop
  | zero : IsWhole ['0']
  | digits {d : Char} {ds : List Char} (hzero : d ≠ '0') (h : IsDigits (d :: ds)) :
      IsWhole (d :: ds)

inductive IsFraction : List Char → Prop
  | none : IsFraction []
  | digits {ds : List Char} (hne : ds ≠ []) (h : IsDigits ds) : IsFraction ('.' :: ds)

inductive IsExponent : List Char → Prop
  | none : IsExponent []
  | digits {mark : Char} {sign ds : List Char} (hmark : mark = 'e' ∨ mark = 'E')
      (hsign : sign = [] ∨ sign = ['+'] ∨ sign = ['-']) (hne : ds ≠ []) (h : IsDigits ds) :
      IsExponent (mark :: (sign ++ ds))

def IsNumber (cs : List Char) : Prop :=
  ∃ sign whole fraction exponent, (sign = [] ∨ sign = ['-']) ∧ IsWhole whole ∧
    IsFraction fraction ∧ IsExponent exponent ∧ cs = sign ++ (whole ++ (fraction ++ exponent))

end Numbers

/-- What the rules are about: a value, the elements of a list that has some, and the members of an
object that has some. -/
inductive Part where
  | value
  | elements
  | members

/-- The texts of values, and what stands between the brackets of a list or object from its first
element or member on, up to the closing bracket. -/
inductive Derives : Part → List Char → Prop
  | null : Derives .value ['n', 'u', 'l', 'l']
  | true : Derives .value ['t', 'r', 'u', 'e']
  | false : Derives .value ['f', 'a', 'l', 's', 'e']
  | number {cs : List Char} (h : IsNumber cs) : Derives .value cs
  | string {cs : List Char} (h : IsString cs) : Derives .value cs
  | emptyList {blanks : List Char} (hblanks : IsBlanks blanks) :
      Derives .value ('[' :: (blanks ++ [']']))
  | list {blanks cs : List Char} (hblanks : IsBlanks blanks) (h : Derives .elements cs) :
      Derives .value ('[' :: (blanks ++ (cs ++ [']'])))
  | emptyObject {blanks : List Char} (hblanks : IsBlanks blanks) :
      Derives .value ('\x7b' :: (blanks ++ ['\x7d']))
  | object {blanks cs : List Char} (hblanks : IsBlanks blanks) (h : Derives .members cs) :
      Derives .value ('\x7b' :: (blanks ++ (cs ++ ['\x7d'])))
  | lastElement {value behind : List Char} (hvalue : Derives .value value)
      (hbehind : IsBlanks behind) : Derives .elements (value ++ behind)
  | element {value behind blanks cs : List Char} (hvalue : Derives .value value)
      (hbehind : IsBlanks behind) (hblanks : IsBlanks blanks) (h : Derives .elements cs) :
      Derives .elements (value ++ (behind ++ ',' :: (blanks ++ cs)))
  | lastMember {key before after value behind : List Char} (hkey : IsString key)
      (hbefore : IsBlanks before) (hafter : IsBlanks after) (hvalue : Derives .value value)
      (hbehind : IsBlanks behind) :
      Derives .members (key ++ (before ++ ':' :: (after ++ (value ++ behind))))
  | member {key before after value behind blanks cs : List Char} (hkey : IsString key)
      (hbefore : IsBlanks before) (hafter : IsBlanks after) (hvalue : Derives .value value)
      (hbehind : IsBlanks behind) (hblanks : IsBlanks blanks) (h : Derives .members cs) :
      Derives .members
        (key ++ (before ++ ':' :: (after ++ (value ++ (behind ++ ',' :: (blanks ++ cs))))))

end Json

end Contracts
