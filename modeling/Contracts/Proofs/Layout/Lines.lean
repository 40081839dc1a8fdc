import Contracts.Layout.Generate
import Mathlib.Data.List.DropRight

/-!
# The text on a page

A page is written from left to right and keeps its texts backwards. What it says
in the end does not depend on the positions that are recorded on the way, so where
no comments are printed it is a function of the pieces alone: `Piece.chars` gives
the text of pieces from the state of the line they start on, and `Page.chars_putAll`
says that putting the pieces on a page adds this text to it.
-/

namespace Contracts

namespace Piece

/-- The blanks in front of the first text of a line. -/
def margin (isBlank : Bool) (depth : Nat) : List Char :=
  if isBlank then List.replicate (4 * depth) ' ' else []

/-- The text of pieces, given whether the line they start on is still empty, and its level. -/
def chars (isBlank : Bool) (depth : Nat) : List Piece → List Char
  | [] => []
  | .text s :: ps =>
    if s.isEmpty then chars isBlank depth ps
    else margin isBlank depth ++ s.toList ++ chars false depth ps
  | .newline :: ps => if isBlank then chars true depth ps else '\n' :: chars true depth ps
  | .indent :: ps => chars isBlank (depth + 1) ps
  | .dedent :: ps => chars isBlank (depth - 1) ps
  | .edge _ :: ps => margin isBlank depth ++ chars false depth ps
  | .mark _ :: ps | .spot _ :: ps | .leading _ :: ps | .trailing _ :: ps => chars isBlank depth ps

theorem chars_text (depth : Nat) (s : String) (ps : List Piece) :
    chars false depth (.text s :: ps) = s.toList ++ chars false depth ps := by
  rw [chars]
  split
  next h => simp [String.isEmpty_iff.mp h]
  next => rfl

theorem chars_ofList (depth : Nat) (cs : List Char) (ps : List Piece) :
    chars false depth (.text (String.ofList cs) :: ps) = cs ++ chars false depth ps := by
  rw [chars_text, String.toList_ofList]

theorem chars_ofList_blank (depth : Nat) {cs : List Char} (h : cs ≠ []) (ps : List Piece) :
    chars true depth (.text (String.ofList cs) :: ps) =
      List.replicate (4 * depth) ' ' ++ cs ++ chars false depth ps := by
  rw [chars, if_neg (by simpa using h), String.toList_ofList, margin, if_pos rfl]

theorem chars_trailing (isBlank : Bool) (depth position : Nat) (ps qs : List Piece) :
    chars isBlank depth (ps ++ .trailing position :: qs) = chars isBlank depth (ps ++ qs) := by
  induction ps generalizing isBlank depth with
  | nil => rfl
  | cons piece ps ih => cases piece <;> simp only [List.cons_append, chars, ih]

/-- The comments around a node leave no text where none are printed. -/
theorem chars_commented (isBlank : Bool) (depth : Nat) (s : Span) (ps qs : List Piece) :
    chars isBlank depth (Printer.commented s ps ++ qs) = chars isBlank depth (ps ++ qs) := by
  rw [Printer.commented]
  split
  · rfl
  · rw [List.append_assoc, List.append_assoc]
    exact chars_trailing isBlank depth s.hi ps qs

end Piece

namespace Page

/-- The text that has been written. -/
def chars (p : Page) : List Char :=
  (String.join p.written.reverse).toList

theorem chars_eq (p : Page) : p.chars = p.written.reverse.flatMap String.toList :=
  String.toList_join

/-- Recording a position changes nothing that is seen. -/
theorem exists_record_eq (p : Page) (position : Nat) :
    ∃ records, p.record position = { p with records := records } := by
  unfold record
  simp only
  split
  · exact ⟨p.records, rfl⟩
  · exact ⟨_, rfl⟩

/-- A page on which a line has been opened has its margin. -/
theorem openLine_spec (p : Page) :
    p.openLine.chars = p.chars ++ Piece.margin p.isBlank p.depth ∧
      p.openLine.isBlank = false ∧ p.openLine.depth = p.depth ∧
      p.openLine.comments = p.comments := by
  unfold openLine Piece.margin
  split
  next h =>
      cases p.pending with
      | none => simp [chars_eq]
      | some position =>
          obtain ⟨records, heq⟩ := exists_record_eq { p with
            written := String.ofList (List.replicate (4 * p.depth) ' ') :: p.written
            column := p.column + 4 * p.depth, isBlank := false, pending := none } position
          simp only [heq]
          simp [chars_eq]
  next h => simp_all

/-- What one piece does to a page without comments. -/
theorem put_spec {p : Page} (hp : p.comments = []) (piece : Piece) (ps : List Piece) :
    (p.put piece).comments = [] ∧
      (p.put piece).chars ++ Piece.chars (p.put piece).isBlank (p.put piece).depth ps =
        p.chars ++ Piece.chars p.isBlank p.depth (piece :: ps) := by
  obtain ⟨hchars, hblank, hdepth, hcomments⟩ := p.openLine_spec
  cases piece with
  | text s =>
      rw [put, write, Piece.chars]
      split
      · exact ⟨hp, rfl⟩
      · simp_all [chars_eq]
  | newline =>
      rw [put, newline, Piece.chars]
      split
      · exact ⟨hp, by simp_all [chars_eq]⟩
      · exact ⟨hp, by simp_all [chars_eq]⟩
  | indent => exact ⟨hp, rfl⟩
  | dedent => exact ⟨hp, rfl⟩
  | mark position =>
      rw [put, mark, Piece.chars]
      split
      · exact ⟨hp, rfl⟩
      · obtain ⟨records, heq⟩ := exists_record_eq p position
        rw [heq]
        exact ⟨hp, rfl⟩
  | edge position =>
      rw [put, Piece.chars]
      obtain ⟨records, heq⟩ := exists_record_eq p.openLine position
      rw [heq]
      refine ⟨hcomments.trans hp, ?_⟩
      change p.openLine.chars ++ Piece.chars p.openLine.isBlank p.openLine.depth ps = _
      rw [hchars, hblank, hdepth, List.append_assoc]
  | spot position =>
      obtain ⟨records, heq⟩ := exists_record_eq p position
      rw [put, heq]
      exact ⟨hp, rfl⟩
  | leading position =>
      rw [put, writeComments, hp]
      exact ⟨rfl, rfl⟩
  | trailing position =>
      rw [put, writeComments, hp]
      exact ⟨rfl, rfl⟩

/-- Pieces add their text to a page. -/
theorem chars_putAll {p : Page} (hp : p.comments = []) (ps : List Piece) :
    (p.putAll ps).chars = p.chars ++ Piece.chars p.isBlank p.depth ps := by
  induction ps generalizing p with
  | nil => simp [putAll, Piece.chars]
  | cons piece ps ih =>
      obtain ⟨hcomments, heq⟩ := put_spec hp piece ps
      rw [← heq]
      exact ih hcomments

end Page

/-- The code of a script is the text of its pieces without the line feeds at the end. -/
theorem Script.code_generate (script : Script) (source : Source) (comments : List Comment)
    (sourceMap : Bool) :
    (script.generate source comments ⟨false, sourceMap⟩).code =
      String.ofList ((Piece.chars true 0 script.pieces).rdropWhile (· == '\n')) := by
  have hchars : ((Page.empty []).putAll script.pieces).chars =
      [] ++ Piece.chars true 0 script.pieces := Page.chars_putAll rfl script.pieces
  rw [List.nil_append] at hchars
  rw [← hchars]
  rfl

end Contracts
