import Contracts.Position.SourceMap
import Mathlib.Data.List.Basic

/-!
# Reading the mappings of a source map

`SourceMap.decode?` reads the mappings of a document the way the format is
defined: the text is cut at the semicolons into lines and each line at its commas
into segments, and the numbers of a segment are added to those of the segment
before it. Only the column starts anew with every line.

It gives back the segments that were written (`decode?_mappings`), as long as
their lines do not go backwards. The induction is over the segments, with the one
before carried along: what is read so far depends on it alone.
-/

namespace Contracts

namespace Vlq

theorem ungroup?_groups (n : Nat) (gs : List Nat) : ungroup? (groups n ++ gs) = some (n, gs) := by
  induction n using Nat.strongRecOn with
  | ind n ih =>
      rw [groups]
      split
      next hsmall => simp [ungroup?, hsmall]
      next hlarge =>
          have hbit : ¬ n % 32 + 32 < 32 := by omega
          rw [List.cons_append, ungroup?, if_neg hbit, ih (n / 32) (by omega)]
          simp only [Option.map_some, Option.some.injEq, Prod.mk.injEq, and_true]
          omega

theorem groups_ne_nil (n : Nat) : groups n ≠ [] := by
  rw [groups]
  split <;> simp

theorem lt_of_mem_groups {n g : Nat} (h : g ∈ groups n) : g < 64 := by
  induction n using Nat.strongRecOn with
  | ind n ih =>
      rw [groups] at h
      split at h
      next hsmall =>
          rw [List.mem_singleton] at h
          omega
      next hlarge =>
          rcases List.mem_cons.mp h with rfl | h
          · omega
          · exact ih (n / 32) (by omega) h

theorem ungroupAll_flatMap (ns : List Nat) {fuel : Nat} (h : (ns.flatMap groups).length ≤ fuel) :
    ungroupAll fuel (ns.flatMap groups) = some ns := by
  induction ns generalizing fuel with
  | nil => rw [List.flatMap_nil, ungroupAll]
  | cons n ns ih =>
      obtain ⟨g, gs, hgroups⟩ := List.exists_cons_of_ne_nil (groups_ne_nil n)
      have hread := ungroup?_groups n (ns.flatMap groups)
      rw [List.flatMap_cons, hgroups] at h ⊢
      rw [hgroups] at hread
      rw [List.cons_append, List.length_cons, List.length_append] at h
      obtain ⟨fuel, rfl⟩ : ∃ m, fuel = m + 1 := ⟨fuel - 1, by omega⟩
      rw [List.cons_append] at hread ⊢
      have hrest : ungroupAll fuel (ns.flatMap groups) = some ns := ih (by omega)
      simp only [ungroupAll, hread, hrest, Option.map_some]

theorem toSigned_ofSigned (i : Int) : toSigned (ofSigned i) = i := by
  cases i with
  | ofNat n =>
      have heven : 2 * n % 2 = 0 := by omega
      rw [ofSigned, toSigned, if_pos heven]
      have hhalf : 2 * n / 2 = n := by omega
      rw [hhalf]
      rfl
  | negSucc n =>
      have hodd : ¬ (2 * (n + 1) + 1) % 2 = 0 := by omega
      have hhalf : (2 * (n + 1) + 1) / 2 = n + 1 := by omega
      rw [ofSigned, toSigned, if_neg hodd, hhalf]
      rfl

/-- Each group has a letter of its own. -/
theorem idxOf?_letter {g : Nat} (h : g < 64) : alphabet.idxOf? (letter g) = some g := by
  revert g
  decide +kernel

theorem mapM_idxOf?_letter {gs : List Nat} (h : ∀ g ∈ gs, g < 64) :
    (gs.map letter).mapM (fun c => alphabet.idxOf? c) = some gs := by
  induction gs with
  | nil => rfl
  | cons g gs ih =>
      rw [List.forall_mem_cons] at h
      rw [List.map_cons, List.mapM_cons, idxOf?_letter h.1, ih h.2]
      rfl

/-- The numbers that were written are read again. -/
theorem decode?_flatMap_encode (is : List Int) : decode? (is.flatMap encode) = some is := by
  have hletters : is.flatMap encode = ((is.map ofSigned).flatMap groups).map letter := by
    rw [List.map_flatMap, List.flatMap_map]
    rfl
  have hsmall : ∀ g ∈ (is.map ofSigned).flatMap groups, g < 64 := by
    intro g hg
    obtain ⟨n, -, hn⟩ := List.mem_flatMap.mp hg
    exact lt_of_mem_groups hn
  have hsigned : (is.map ofSigned).map toSigned = is := by
    rw [List.map_map]
    exact (List.map_congr_left fun i _ => toSigned_ofSigned i).trans (List.map_id is)
  rw [decode?, hletters, mapM_idxOf?_letter hsmall]
  simp only [Option.bind_eq_bind, Option.bind_some, ungroupAll_flatMap _ (Nat.le_refl _), hsigned]
  rfl

theorem mem_alphabet_of_mem_encode {i : Int} {c : Char} (h : c ∈ encode i) : c ∈ alphabet := by
  obtain ⟨g, hg, rfl⟩ := List.mem_map.mp h
  have hlength : g < alphabet.length := lt_of_mem_groups hg
  rw [letter, List.getElem?_eq_getElem hlength, Option.getD_some]
  exact List.getElem_mem _

end Vlq

namespace SourceMap

/-- A segment with all its numbers: a place of the generated text, and the number of the source
with the place in it. -/
structure Pointer where
  line : Nat
  column : Int
  source : Int
  sourceLine : Int
  sourceColumn : Int
  deriving DecidableEq, Repr

namespace Pointer

def start : Pointer := ⟨0, 0, 0, 0, 0⟩

/-- The segment after `p` on its line, given the differences. -/
def next? (p : Pointer) : List Int → Option Pointer
  | [column, source, sourceLine, sourceColumn] =>
    some ⟨p.line, p.column + column, p.source + source, p.sourceLine + sourceLine,
      p.sourceColumn + sourceColumn⟩
  | _ => none

/-- Where reading stands at the beginning of the next line. -/
def newLine (p : Pointer) : Pointer :=
  { p with line := p.line + 1, column := 0 }

/-- Where reading stands on the line of the next segment. -/
def onLine (p : Pointer) (line : Nat) : Pointer :=
  { p with line := line, column := if line = p.line then p.column else 0 }

end Pointer

/-- The segments of a line after `p`. -/
def decodeLine (p : Pointer) : List (List Char) → Option (List Pointer)
  | [] => some []
  | [] :: texts => decodeLine p texts
  | text :: texts => do
    let q ← p.next? (← Vlq.decode? text)
    let qs ← decodeLine q texts
    return q :: qs

/-- The segments of lines, the first of which goes on after `p`. -/
def decodeLines (p : Pointer) : List (List Char) → Option (List Pointer)
  | [] => some []
  | line :: lines => do
    let qs ← decodeLine p (line.splitOn ',')
    let rest ← decodeLines (qs.getLastD p).newLine lines
    return qs ++ rest

/-- The segments that the mappings of a document stand for. -/
def decode? (text : List Char) : Option (List Pointer) :=
  decodeLines .start (text.splitOn ';')

/-- A segment of the only source, which has the number zero. -/
def Segment.pointer (s : Segment) : Pointer :=
  ⟨s.line, s.column, 0, s.sourceLine, s.sourceColumn⟩

theorem splitOn_append {mark : Char} {cs : List Char} (h : mark ∉ cs) (ds : List Char) :
    (cs ++ ds).splitOn mark = (ds.splitOn mark).modifyHead (cs ++ ·) := by
  induction cs with
  | nil =>
      obtain ⟨first, rest, hsplit⟩ := List.exists_cons_of_ne_nil (ds.splitOn_ne_nil mark)
      rw [List.nil_append, hsplit]
      rfl
  | cons c cs ih =>
      rw [List.mem_cons, not_or] at h
      have hc : ¬ (c == mark) = true := by simpa using Ne.symm h.1
      rw [List.cons_append, List.splitOn, List.splitOnP_cons_eq_if_modifyHead, if_neg hc]
      have ih := ih h.2
      rw [List.splitOn] at ih
      rw [ih, List.modifyHead_modifyHead]
      rfl

theorem splitOn_cons_self (mark : Char) (cs : List Char) :
    (mark :: cs).splitOn mark = [] :: cs.splitOn mark := by
  rw [List.splitOn, List.splitOnP_cons_eq_if_modifyHead, if_pos (by simp)]
  rfl

/-- Reading a segment, with or without a comma in front, in front of the rest of its line. -/
theorem decodeLine_append {p q : Pointer} {comma text rest : List Char}
    (hcomma : comma = [] ∨ comma = [',']) (htext : text ≠ []) (hmark : ',' ∉ text)
    (hrest : rest = [] ∨ rest.head? = some ',') (hnext : (Vlq.decode? text).bind p.next? = some q) :
    decodeLine p ((comma ++ text ++ rest).splitOn ',') =
      (decodeLine q (rest.splitOn ',')).map (q :: ·) := by
  obtain ⟨c, cs, rfl⟩ := List.exists_cons_of_ne_nil htext
  have hsplit : ∃ texts, ((c :: cs) ++ rest).splitOn ',' = (c :: cs) :: texts ∧
      decodeLine q (rest.splitOn ',') = decodeLine q texts := by
    rw [splitOn_append hmark]
    rcases hrest with rfl | hrest
    · exact ⟨[], by simp, by simp [decodeLine]⟩
    · obtain ⟨rest, rfl⟩ : ∃ tail, rest = ',' :: tail := by
        cases rest with
        | nil => simp at hrest
        | cons d ds => exact ⟨ds, by simpa using hrest⟩
      rw [splitOn_cons_self]
      exact ⟨rest.splitOn ',', by simp, by rw [decodeLine]⟩
  obtain ⟨texts, hsplit, hrest⟩ := hsplit
  have hread : decodeLine p ((c :: cs) :: texts) = (decodeLine q texts).map (q :: ·) := by
    rw [decodeLine]
    · obtain ⟨fields, hfields, hq⟩ := Option.bind_eq_some_iff.mp hnext
      rw [hfields]
      simp only [Option.bind_eq_bind, Option.bind_some, hq]
      cases decodeLine q texts <;> rfl
    · simp
  rcases hcomma with rfl | rfl
  · rw [List.nil_append, hsplit, hread, hrest]
  · rw [List.append_assoc, List.singleton_append, splitOn_cons_self, decodeLine, hsplit, hread,
      hrest]

theorem decodeLines_cons_eq {p q : Pointer} {line line' : List Char} {lines : List (List Char)}
    (h : decodeLine p (line.splitOn ',') = (decodeLine q (line'.splitOn ',')).map (q :: ·)) :
    decodeLines p (line :: lines) = (decodeLines q (line' :: lines)).map (q :: ·) := by
  rw [decodeLines, decodeLines, h]
  cases decodeLine q (line'.splitOn ',') with
  | none => rfl
  | some qs =>
      have hlast : (q :: qs).getLastD p = qs.getLastD q := by cases qs <;> rfl
      simp only [Option.map_some, Option.bind_eq_bind, Option.bind_some, hlast]
      cases decodeLines (qs.getLastD q).newLine lines <;> rfl

/-- A line without segments. -/
theorem decodeLines_nil_cons (p : Pointer) (lines : List (List Char)) :
    decodeLines p ([] :: lines) = decodeLines p.newLine lines := by
  rw [decodeLines]
  simp only [List.splitOn_nil, decodeLine, Option.bind_eq_bind, Option.bind_some, List.getLastD_nil]
  cases decodeLines p.newLine lines <;> rfl

theorem decodeLines_replicate (p : Pointer) (n : Nat) (lines : List (List Char)) :
    decodeLines p (List.replicate (n + 1) [] ++ lines) =
      decodeLines { p with line := p.line + (n + 1), column := 0 } lines := by
  induction n generalizing p with
  | zero => exact decodeLines_nil_cons p lines
  | succ n ih =>
      rw [List.replicate_succ, List.cons_append, decodeLines_nil_cons, ih, Pointer.newLine]
      simp only [Nat.add_assoc, Nat.add_comm 1]

theorem splitOn_replicate_append (mark : Char) (n : Nat) (cs : List Char) :
    (List.replicate n mark ++ cs).splitOn mark = List.replicate n [] ++ cs.splitOn mark := by
  induction n with
  | zero => rfl
  | succ n ih =>
      rw [List.replicate_succ, List.cons_append, splitOn_cons_self, ih]
      rfl

section Writing

/-- The text of a segment that is written after `before`. -/
def segmentText (before s : Segment) : List Char :=
  (fields before s).flatMap Vlq.encode

variable (before s : Segment)

theorem segmentText_ne_nil : segmentText before s ≠ [] := by
  simp [segmentText, fields, Vlq.encode, Vlq.groups_ne_nil]

theorem mem_alphabet_of_mem_segmentText {c : Char} (h : c ∈ segmentText before s) :
    c ∈ Vlq.alphabet := by
  obtain ⟨i, -, hi⟩ := List.mem_flatMap.mp h
  exact Vlq.mem_alphabet_of_mem_encode hi

theorem semicolon_not_mem_segmentText : ';' ∉ segmentText before s :=
  fun h => absurd (mem_alphabet_of_mem_segmentText before s h) (by decide +kernel)

theorem comma_not_mem_segmentText : ',' ∉ segmentText before s :=
  fun h => absurd (mem_alphabet_of_mem_segmentText before s h) (by decide +kernel)

/-- The differences lead from the segment before, or from the beginning of the line, to the
segment. -/
theorem decode?_segmentText :
    (Vlq.decode? (segmentText before s)).bind (before.pointer.onLine s.line).next? =
      some s.pointer := by
  rw [segmentText, Vlq.decode?_flatMap_encode, Option.bind_some, fields, Pointer.next?]
  simp only [Segment.pointer, Pointer.onLine, Option.some.injEq, Pointer.mk.injEq, true_and]
  refine ⟨?_, rfl, ?_, ?_⟩
  · split <;> omega
  · omega
  · omega

/-- On the line of the segment before, what follows it starts with a comma. -/
theorem head?_splitOn_writeFrom (ss : List Segment) {line : List Char} {lines : List (List Char)}
    (h : (writeFrom before false ss).splitOn ';' = line :: lines) :
    line = [] ∨ line.head? = some ',' := by
  cases ss with
  | nil =>
      rw [writeFrom, List.splitOn_nil, List.cons.injEq] at h
      exact .inl h.1.symm
  | cons s ss =>
      rw [writeFrom] at h
      cases hlines : s.line - before.line with
      | zero =>
          simp only [hlines, List.replicate_zero, List.isEmpty_nil, Bool.not_false, Bool.and_self,
            if_true, List.nil_append, List.append_assoc] at h
          rw [splitOn_append (by decide)] at h
          cases hrest : ((fields before s).flatMap Vlq.encode ++
              writeFrom s false ss).splitOn ';' with
          | nil => exact absurd hrest (List.splitOn_ne_nil _ _)
          | cons first rest =>
              rw [hrest, List.modifyHead_cons, List.cons.injEq] at h
              exact .inr (h.1 ▸ rfl)
      | succ n =>
          simp only [hlines, List.replicate_succ, List.cons_append] at h
          rw [splitOn_cons_self, List.cons.injEq] at h
          exact .inl h.1.symm

/-- The text of a segment stands on the line that the segments after it go on with. -/
theorem decodeLines_segment {ss : List Segment} {qs : List Pointer}
    (h : decodeLines s.pointer ((writeFrom s false ss).splitOn ';') = some qs) {comma : List Char}
    (hcomma : comma = [] ∨ comma = [',']) :
    decodeLines (before.pointer.onLine s.line)
        ((comma ++ (segmentText before s ++ writeFrom s false ss)).splitOn ';') =
      some (s.pointer :: qs) := by
  obtain ⟨line, lines, hsplit⟩ :=
    List.exists_cons_of_ne_nil ((writeFrom s false ss).splitOn_ne_nil ';')
  have hmark : ';' ∉ comma := by
    rcases hcomma with rfl | rfl
    · exact List.not_mem_nil
    · decide
  have htext : (comma ++ (segmentText before s ++ writeFrom s false ss)).splitOn ';' =
      (comma ++ segmentText before s ++ line) :: lines := by
    rw [splitOn_append hmark, splitOn_append (semicolon_not_mem_segmentText before s), hsplit]
    simp
  have hline := decodeLine_append hcomma (segmentText_ne_nil before s)
    (comma_not_mem_segmentText before s) (head?_splitOn_writeFrom s ss hsplit)
    (decode?_segmentText before s)
  rw [htext, decodeLines_cons_eq hline, ← hsplit, h]
  rfl

end Writing

/-- The segments that were written are read again, wherever reading has come to. -/
theorem decodeLines_writeFrom {before : Segment} {ss : List Segment}
    (h : (before :: ss).Pairwise fun a b => a.line ≤ b.line) (isFirst : Bool) :
    decodeLines before.pointer ((writeFrom before isFirst ss).splitOn ';') =
      some (ss.map Segment.pointer) := by
  induction ss generalizing before isFirst with
  | nil =>
      rw [writeFrom, List.splitOn_nil, decodeLines_nil_cons]
      rfl
  | cons s ss ih =>
      rw [List.pairwise_cons] at h
      have hline : before.line ≤ s.line := h.1 s List.mem_cons_self
      have hrest := ih h.2 false
      rw [writeFrom, List.append_assoc, List.append_assoc, splitOn_replicate_append]
      cases hlines : s.line - before.line with
      | zero =>
          have hsame : s.line = before.line := by omega
          have hpointer : before.pointer.onLine s.line = before.pointer := by
            simp [hsame, Segment.pointer, Pointer.onLine]
          rw [← hpointer]
          cases isFirst with
          | true => exact decodeLines_segment before s hrest (.inl rfl)
          | false => exact decodeLines_segment before s hrest (.inr rfl)
      | succ n =>
          have hlater : ¬ s.line = before.line := by omega
          have hcount : before.line + (n + 1) = s.line := by omega
          have hpointer : before.pointer.onLine s.line =
              { before.pointer with line := before.pointer.line + (n + 1), column := 0 } := by
            simp [hlater, hcount, Segment.pointer, Pointer.onLine]
          rw [decodeLines_replicate, ← hpointer]
          exact decodeLines_segment before s hrest (.inl rfl)

/-- Reading the mappings gives back the segments that were written. -/
theorem decode?_mappings {ss : List Segment} (h : ss.Pairwise fun a b => a.line ≤ b.line) :
    decode? (mappings ss).toList = some (ss.map Segment.pointer) := by
  rw [mappings, String.toList_ofList]
  have hstart : (⟨0, 0, 0, 0⟩ :: ss).Pairwise fun a b : Segment => a.line ≤ b.line :=
    List.pairwise_cons.mpr ⟨fun s _ => Nat.zero_le s.line, h⟩
  exact decodeLines_writeFrom hstart true

end SourceMap

end Contracts
