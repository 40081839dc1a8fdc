/-!
# Characters and how they are counted

All reading in this library goes character by character over `List Char`; a `String` is only the
form in which a finished piece of text is kept. This file holds what several readers share: the
blank characters, the characters that end a line, trimming, cutting into lines, and the two ways in
which a text is measured, in bytes of its UTF-8 form and in UTF-16 units.

Two different notions of a line end occur and are kept apart. `isLineBreak` is the one of the
scripting language (four characters); `lines` cuts at line feeds only and is used where the text of
a comment is read line by line.
-/

namespace Contracts.Text

/-- The blank characters are those with the Unicode property White_Space. -/
def isBlank (c : Char) : Bool :=
  let n := c.toNat
  (0x09 ≤ n && n ≤ 0x0D) || n == 0x20 || n == 0x85 || n == 0xA0 || n == 0x1680 ||
    (0x2000 ≤ n && n ≤ 0x200A) || n == 0x2028 || n == 0x2029 || n == 0x202F || n == 0x205F ||
    n == 0x3000

/-- A line of a script ends at a line feed, a carriage return, U+2028 or U+2029. -/
def isLineBreak (c : Char) : Bool :=
  c == '\n' || c == '\r' || c == '\u2028' || c == '\u2029'

def trimLeft (cs : List Char) : List Char :=
  cs.dropWhile isBlank

def trimRight (cs : List Char) : List Char :=
  (cs.reverse.dropWhile isBlank).reverse

def trim (cs : List Char) : List Char :=
  trimRight (trimLeft cs)

/-- What follows `start` in `cs`, if `cs` begins with it. -/
def after? : List Char → List Char → Option (List Char)
  | [], cs => some cs
  | _ :: _, [] => none
  | p :: start, c :: cs => if p = c then after? start cs else none

@[simp] theorem after?_nil (cs : List Char) : after? [] cs = some cs := by
  cases cs <;> rfl

theorem after?_append (start cs : List Char) : after? start (start ++ cs) = some cs := by
  induction start with
  | nil => simp
  | cons p start ih => simp [after?, ih]

theorem eq_append_of_after? {start cs rest : List Char} (h : after? start cs = some rest) :
    cs = start ++ rest := by
  induction start generalizing cs with
  | nil =>
      simp at h
      simp [h]
  | cons p start ih =>
      cases cs with
      | nil => simp [after?] at h
      | cons c cs =>
          rw [after?] at h
          split at h
          next hpc => rw [hpc, List.cons_append, ← ih h]
          next => simp at h

/-- The text `cs` begins with `start` exactly when something follows it there. -/
theorem after?_eq_some_iff {start cs rest : List Char} :
    after? start cs = some rest ↔ cs = start ++ rest :=
  ⟨eq_append_of_after?, fun h => h ▸ after?_append start rest⟩

/-- The parts of `cs` before and after the first place where `mark` stands, if there is one. -/
def splitAt? (mark : List Char) : List Char → Option (List Char × List Char)
  | [] => (after? mark []).map fun rest => ([], rest)
  | c :: cs =>
    match after? mark (c :: cs) with
    | some rest => some ([], rest)
    | none => (splitAt? mark cs).map fun p => (c :: p.1, p.2)

/-- The lines of `cs`: cut at every line feed, a carriage return before it dropped, and no empty
line after a last line feed. `line` holds the current line backwards. -/
def linesFrom (line : List Char) : List Char → List (List Char)
  | [] => if line.isEmpty then [] else [line.reverse]
  | '\n' :: cs => (if line.head? = some '\r' then line.tail else line).reverse :: linesFrom [] cs
  | c :: cs => linesFrom (c :: line) cs

def lines (cs : List Char) : List (List Char) :=
  linesFrom [] cs

/-- The number of bytes of the UTF-8 form of `cs`. -/
def byteLength : List Char → Nat
  | [] => 0
  | c :: cs => c.utf8Size + byteLength cs

@[simp] theorem byteLength_nil : byteLength [] = 0 := rfl

@[simp] theorem byteLength_cons (c : Char) (cs : List Char) :
    byteLength (c :: cs) = c.utf8Size + byteLength cs := rfl

@[simp] theorem byteLength_append (cs ds : List Char) :
    byteLength (cs ++ ds) = byteLength cs + byteLength ds := by
  induction cs with
  | nil => simp
  | cons c cs ih => simp [ih, Nat.add_assoc]

/-- The number of UTF-16 units of a character: two beyond U+FFFF. -/
def units16 (c : Char) : Nat :=
  if c.toNat ≤ 0xFFFF then 1 else 2

/-- The number of UTF-16 units of `cs`. -/
def unitLength : List Char → Nat
  | [] => 0
  | c :: cs => units16 c + unitLength cs

@[simp] theorem unitLength_nil : unitLength [] = 0 := rfl

@[simp] theorem unitLength_cons (c : Char) (cs : List Char) :
    unitLength (c :: cs) = units16 c + unitLength cs := rfl

/-- The characters whose bytes lie before the byte offset `offset`; a character that the offset
cuts is left out. -/
def takeBytes : Nat → List Char → List Char
  | _, [] => []
  | offset, c :: cs =>
    if c.utf8Size ≤ offset then c :: takeBytes (offset - c.utf8Size) cs else []

/-- Whether the byte offset `offset` lies between two characters of `cs`, or at one of its ends. -/
def isBoundary (cs : List Char) (offset : Nat) : Bool :=
  byteLength (takeBytes offset cs) == offset

/-- Texts are ordered by their characters, which for UTF-8 is the order of their bytes. -/
def before (a b : String) : Bool :=
  a < b

/-- The hexadecimal digits of `n`, lower case and at least `width` of them. -/
def hex (width n : Nat) : List Char :=
  let digits := Nat.toDigits 16 n
  List.replicate (width - digits.length) '0' ++ digits

def isHexDigit (c : Char) : Bool :=
  c.isDigit || ('a' ≤ c && c ≤ 'f') || ('A' ≤ c && c ≤ 'F')

/-- The value of a hexadecimal digit; other characters count as zero. -/
def hexValue (c : Char) : Nat :=
  if c.isDigit then c.toNat - '0'.toNat
  else if 'a' ≤ c && c ≤ 'f' then c.toNat - 'a'.toNat + 10
  else if 'A' ≤ c && c ≤ 'F' then c.toNat - 'A'.toNat + 10
  else 0

/-- The number that a run of hexadecimal digits writes. -/
def hexNumber (cs : List Char) : Nat :=
  cs.foldl (fun n c => n * 16 + hexValue c) 0

end Contracts.Text
