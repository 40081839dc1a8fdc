import Contracts.Layout.Generate
import Contracts.Proofs.Position.Decoding
import Mathlib.Data.List.Basic

/-!
# The position map and the source map document agree

Both are made from the records of a page. The position map keeps some of them,
with the byte offset in the source; the document has a segment for each of them,
with the line and the column in the source. So each mapping has a segment with
the same place in the generated text, and the two places in the source are one
(`Script.decode_sourceMap`).

Three things are needed for this. What is put on a page never goes back to an
earlier line, and so the segments can be read again. Leaving out equal neighbours
loses no segment. And the line and the column of an offset, which are found by a
search through the starts of the lines, are those that one comes to by walking
through the text (`SourceMap.sourcePlace_eq`).
-/

namespace Contracts

namespace Text

theorem takeBytes_append {cs : List Char} {offset : Nat} (h : byteLength cs ≤ offset)
    (ds : List Char) :
    takeBytes offset (cs ++ ds) = cs ++ takeBytes (offset - byteLength cs) ds := by
  induction cs generalizing offset with
  | nil => rfl
  | cons c cs ih =>
      rw [byteLength_cons] at h
      have hc : c.utf8Size ≤ offset := by omega
      rw [List.cons_append, takeBytes, if_pos hc, ih (by omega), byteLength_cons, Nat.sub_add_eq]
      rfl

theorem unitLength_append (cs ds : List Char) :
    unitLength (cs ++ ds) = unitLength cs + unitLength ds := by
  induction cs with
  | nil => simp
  | cons c cs ih => simp [ih, Nat.add_assoc]

end Text

namespace SourceMap

/-- The line and the column of a byte offset from a place on. A line ends at a line feed, at a
carriage return, and at the two together; columns count UTF-16 units. -/
def placeFrom (line column : Nat) : Nat → List Char → Nat × Nat
  | _, [] => (line, column)
  | offset, '\r' :: '\n' :: cs =>
    if 2 ≤ offset then placeFrom (line + 1) 0 (offset - 2) cs else (line, column + offset)
  | offset, c :: cs =>
    if c.utf8Size ≤ offset then
      if c = '\n' || c = '\r' then placeFrom (line + 1) 0 (offset - c.utf8Size) cs
      else placeFrom line (column + Text.units16 c) (offset - c.utf8Size) cs
    else (line, column)

theorem placeFrom_cons (line column offset : Nat) {c : Char} {cs : List Char}
    (h : ∀ ds, c = '\r' → cs = '\n' :: ds → False) :
    placeFrom line column offset (c :: cs) =
      if c.utf8Size ≤ offset then
        if c = '\n' || c = '\r' then placeFrom (line + 1) 0 (offset - c.utf8Size) cs
        else placeFrom line (column + Text.units16 c) (offset - c.utf8Size) cs
      else (line, column) := by
  rw [placeFrom]
  exact h

/-- The line and the column of a byte offset of a text. -/
def placeAt (text : List Char) (offset : Nat) : Nat × Nat :=
  placeFrom 0 0 offset text

/-- Lines with their numbers, from `line` on. -/
def numberedFrom (line : Nat) (lines : List (Nat × List Char)) : List (Nat × Nat × List Char) :=
  (lines.zipIdx line).map fun ((start, rest), line) => (line, start, rest)

theorem lt_of_mem_sourceLinesFrom {offset : Nat} {cs : List Char} {l : Nat × List Char}
    (h : l ∈ sourceLinesFrom offset cs) : offset < l.1 := by
  fun_induction sourceLinesFrom offset cs with
  | case1 => simp at h
  | case2 offset cs ih =>
      rcases List.mem_cons.mp h with rfl | h
      · exact Nat.lt_add_of_pos_right (by decide)
      · exact Nat.lt_of_le_of_lt (Nat.le_add_right offset 2) (ih h)
  | case3 offset c cs _ next _ ih =>
      have hnext : offset < next := Nat.lt_add_of_pos_right c.utf8Size_pos
      rcases List.mem_cons.mp h with rfl | h
      · exact hnext
      · exact Nat.lt_trans hnext (ih h)
  | case4 offset c cs _ next _ ih =>
      exact Nat.lt_trans (Nat.lt_add_of_pos_right c.utf8Size_pos) (ih h)

theorem start_of_mem_numberedFrom {line : Nat} {lines : List (Nat × List Char)}
    {l : Nat × Nat × List Char} (h : l ∈ numberedFrom line lines) : (l.2.1, l.2.2) ∈ lines := by
  obtain ⟨⟨⟨start, rest⟩, number⟩, hl, rfl⟩ := List.mem_map.mp h
  exact List.fst_mem_of_mem_zipIdx hl

/-- The last line that starts at the offset or before it counts, so a line is passed over if the
next one is such a line too. -/
theorem sourcePlace_of_le (l : Nat × Nat × List Char) (line : Nat) {next offset : Nat}
    (h : next ≤ offset) (cs : List Char) (lines : List (Nat × List Char)) :
    sourcePlace (l :: numberedFrom line ((next, cs) :: lines)).reverse offset =
      sourcePlace ((line, next, cs) :: numberedFrom (line + 1) lines).reverse offset := by
  have hlines : numberedFrom line ((next, cs) :: lines) =
      (line, next, cs) :: numberedFrom (line + 1) lines := rfl
  rw [sourcePlace, List.reverse_cons, List.find?_append, Option.or_of_isSome]
  · rfl
  · rw [hlines, List.find?_isSome]
    exact ⟨(line, next, cs), by simp, by simpa using h⟩

/-- If all lines after it start behind the offset, the line counts of which `done` has been gone
through. -/
theorem sourcePlace_of_lt {line start here offset : Nat} {done : List Char}
    (hhere : here = start + Text.byteLength done) (h : here ≤ offset) (cs : List Char)
    {lines : List (Nat × Nat × List Char)} (hlines : ∀ l ∈ lines, offset < l.2.1) :
    sourcePlace ((line, start, done ++ cs) :: lines).reverse offset =
      (line, Text.unitLength done + Text.unitLength (Text.takeBytes (offset - here) cs)) := by
  have hstart : start ≤ offset := by omega
  have hdone : Text.byteLength done ≤ offset - start := by omega
  have hrest : offset - start - Text.byteLength done = offset - here := by omega
  rw [sourcePlace, List.reverse_cons, List.find?_append, Option.or_of_isNone,
    List.find?_cons_of_pos (by simpa using hstart)]
  · simp only [Text.takeBytes_append hdone, Text.unitLength_append, hrest]
  · rw [Option.isNone_iff_eq_none, List.find?_eq_none]
    intro l hl
    simpa using hlines l (List.mem_reverse.mp hl)

theorem le_of_mem_numberedFrom {line next : Nat} {cs : List Char} {l : Nat × Nat × List Char}
    (h : l ∈ numberedFrom line ((next, cs) :: sourceLinesFrom next cs)) : next ≤ l.2.1 := by
  rcases List.mem_cons.mp (start_of_mem_numberedFrom h) with hl | hl
  · exact Nat.le_of_eq (congrArg Prod.fst hl).symm
  · exact Nat.le_of_lt (lt_of_mem_sourceLinesFrom hl)

/-- The search through the lines comes to where the walk comes to. The walk has gone through `done`,
which is the part of the current line before `cs`. -/
theorem sourcePlace_eq_placeFrom (line start : Nat) (done cs : List Char) {here offset : Nat}
    (hhere : here = start + Text.byteLength done) (h : here ≤ offset) :
    sourcePlace ((line, start, done ++ cs) ::
        numberedFrom (line + 1) (sourceLinesFrom here cs)).reverse offset =
      placeFrom line (Text.unitLength done) (offset - here) cs := by
  fun_induction sourceLinesFrom here cs generalizing line start done with
  | case1 here =>
      rw [numberedFrom, List.zipIdx_nil, List.map_nil, sourcePlace_of_lt hhere h [] (by simp),
        placeFrom]
      rfl
  | case2 here cs ih =>
      rw [placeFrom]
      split
      next hbehind =>
          have hnext := ih (line + 1) (here + 2) [] rfl (by omega)
          rw [Nat.sub_sub, sourcePlace_of_le _ _ (by omega)]
          exact hnext
      next hbefore =>
          have hlater : ∀ l ∈ numberedFrom (line + 1) ((here + 2, cs) ::
              sourceLinesFrom (here + 2) cs), offset < l.2.1 := by
            intro l hl
            have hl := le_of_mem_numberedFrom hl
            omega
          have hcut : Text.unitLength (Text.takeBytes (offset - here) ('\r' :: '\n' :: cs)) =
              offset - here := by
            obtain hzero | hone : offset - here = 0 ∨ offset - here = 1 := by omega
            · rw [hzero]
              rfl
            · rw [hone]
              rfl
          rw [sourcePlace_of_lt hhere h _ hlater, hcut]
  | case3 here c cs hcs next hc ih =>
      rw [placeFrom_cons _ _ _ hcs]
      split
      next hbehind =>
          have hnext := ih (line + 1) next [] rfl (by omega)
          rw [Nat.sub_sub, sourcePlace_of_le _ _ (by omega)]
          exact hnext
      next hbefore =>
          have hlater : ∀ l ∈ numberedFrom (line + 1) ((next, cs) :: sourceLinesFrom next cs),
              offset < l.2.1 := by
            intro l hl
            have hl := le_of_mem_numberedFrom hl
            omega
          rw [sourcePlace_of_lt hhere h _ hlater, Text.takeBytes, if_neg hbefore]
          rfl
  | case4 here c cs hcs next hc ih =>
      rw [placeFrom_cons _ _ _ hcs]
      split
      next hbehind =>
          have hdone : next = start + Text.byteLength (done ++ [c]) := by
            rw [Text.byteLength_append, ← Nat.add_assoc, ← hhere]
            rfl
          have hnext := ih line start (done ++ [c]) hdone (by omega)
          rw [List.append_assoc, List.singleton_append, Text.unitLength_append] at hnext
          rw [Nat.sub_sub]
          exact hnext
      next hbefore =>
          have hlater : ∀ l ∈ numberedFrom (line + 1) (sourceLinesFrom next cs),
              offset < l.2.1 := by
            intro l hl
            have hl := lt_of_mem_sourceLinesFrom (start_of_mem_numberedFrom hl)
            omega
          rw [sourcePlace_of_lt hhere h _ hlater, Text.takeBytes, if_neg hbefore]
          rfl

/-- The place that is found for an offset is the one that a walk through the text comes to. -/
theorem sourcePlace_eq (text : List Char) (offset : Nat) :
    sourcePlace (numbered (sourceLines text)).reverse offset = placeAt text offset := by
  have hlines : numbered (sourceLines text) =
      (0, 0, [] ++ text) :: numberedFrom (0 + 1) (sourceLinesFrom 0 text) := rfl
  rw [hlines]
  exact sourcePlace_eq_placeFrom 0 0 [] text rfl (Nat.zero_le offset)

/-- The segment of a record. -/
def segmentOf (source : Source) (r : Record) : Segment :=
  let place := placeAt source.text (source.offset r.position)
  ⟨r.line, r.column, place.1, place.2⟩

/-- Keep a segment, unless it is the one that was kept last. -/
theorem foldl_neighbours (all kept : List Segment) :
    ∃ ss, all.foldl (fun kept s => if kept.head? = some s then kept else s :: kept) kept =
        ss.reverse ++ kept ∧
      ss.Sublist all ∧ ∀ s ∈ all, s ∈ ss ++ kept := by
  induction all generalizing kept with
  | nil => exact ⟨[], rfl, List.Sublist.refl _, by simp⟩
  | cons s all ih =>
      rw [List.foldl_cons]
      split
      next hhead =>
          obtain ⟨ss, hss, hsub, hmem⟩ := ih kept
          refine ⟨ss, hss, hsub.cons s, List.forall_mem_cons.mpr ⟨?_, hmem⟩⟩
          exact List.mem_append_right ss (List.mem_of_mem_head? hhead)
      next =>
          obtain ⟨ss, hss, hsub, hmem⟩ := ih (s :: kept)
          refine ⟨s :: ss, by simp [hss], hsub.cons_cons s, List.forall_mem_cons.mpr ⟨by simp, ?_⟩⟩
          intro t ht
          have ht := hmem t ht
          simp only [List.mem_append, List.mem_cons] at ht ⊢
          tauto

/-- Every record has its segment, and the segments are in the order of the records. -/
theorem segments_spec (source : Source) (records : List Record) :
    (segments source records).Sublist (records.map (segmentOf source)) ∧
      ∀ r ∈ records, segmentOf source r ∈ segments source records := by
  obtain ⟨ss, hss, hsub, hmem⟩ := foldl_neighbours (records.map (segmentOf source)) []
  have hsegments : segments source records = ss := by
    simp only [segments, sourcePlace_eq]
    change ((records.map (segmentOf source)).foldl _ []).reverse = ss
    rw [hss, List.append_nil, List.reverse_reverse]
  rw [hsegments]
  refine ⟨hsub, fun r hr => ?_⟩
  simpa using hmem _ (List.mem_map_of_mem hr)

end SourceMap

namespace Page

/-- The lines of the records go up to the current one; the latest record comes first. -/
structure InOrder (p : Page) : Prop where
  records : p.records.Pairwise fun a b => b.line ≤ a.line
  here : ∀ r ∈ p.records, r.line ≤ p.line

variable {p : Page}

/-- Going on to a later place keeps the records in order. -/
theorem InOrder.of_le (h : p.InOrder) {q : Page} (hrecords : q.records = p.records)
    (hline : p.line ≤ q.line) : q.InOrder := by
  refine ⟨hrecords ▸ h.records, fun r hr => ?_⟩
  exact Nat.le_trans (h.here r (hrecords ▸ hr)) hline

theorem inOrder_empty (comments : List Comment) : (empty comments).InOrder :=
  ⟨List.Pairwise.nil, by simp [empty]⟩

theorem le_line_place (line column : Nat) (cs : List Char) : line ≤ (place line column cs).1 := by
  fun_induction place line column cs
  all_goals omega

theorem InOrder.record (h : p.InOrder) (position : Nat) : (p.record position).InOrder := by
  simp only [Page.record]
  split
  next => exact h
  next => exact ⟨List.pairwise_cons.mpr ⟨h.here, h.records⟩,
      List.forall_mem_cons.mpr ⟨Nat.le_refl _, h.here⟩⟩

theorem InOrder.openLine (h : p.InOrder) : p.openLine.InOrder := by
  simp only [Page.openLine]
  split
  next =>
      split
      next =>
          refine InOrder.record ?_ _
          exact h.of_le rfl (Nat.le_refl _)
      next => exact h.of_le rfl (Nat.le_refl _)
  next => exact h

theorem InOrder.write (h : p.InOrder) (s : String) : (p.write s).InOrder := by
  unfold Page.write
  split
  next => exact h
  next => exact h.openLine.of_le rfl (le_line_place _ _ _)

theorem InOrder.newline (h : p.InOrder) : p.newline.InOrder := by
  unfold Page.newline
  split
  next => exact h.of_le rfl (Nat.le_refl _)
  next => exact h.of_le rfl (Nat.le_succ _)

theorem InOrder.writeLeading (h : p.InOrder) (c : Comment) : (p.writeLeading c).InOrder := by
  unfold Page.writeLeading
  split
  next => exact (h.write _).newline
  next => exact h.write _

theorem InOrder.writeTrailing (h : p.InOrder) (c : Comment) : (p.writeTrailing c).InOrder := by
  unfold Page.writeTrailing
  split
  next => exact (h.write _).newline
  next => exact h.write _

theorem InOrder.foldl {α : Type} {step : Page → α → Page}
    (hstep : ∀ p a, p.InOrder → (step p a).InOrder) (h : p.InOrder) (l : List α) :
    (l.foldl step p).InOrder := by
  induction l generalizing p with
  | nil => exact h
  | cons a l ih => exact ih (hstep p a h)

theorem InOrder.put (h : p.InOrder) (piece : Piece) : (p.put piece).InOrder := by
  cases piece with
  | text s => exact h.write s
  | newline => exact h.newline
  | indent => exact h.of_le rfl (Nat.le_refl _)
  | dedent => exact h.of_le rfl (Nat.le_refl _)
  | mark position =>
      rw [Page.put, Page.mark]
      split
      next => exact h.of_le rfl (Nat.le_refl _)
      next => exact h.record position
  | edge position => exact h.openLine.record position
  | spot position => exact h.record position
  | leading position =>
      refine InOrder.foldl (fun _ c hp => hp.writeLeading c) ?_ _
      exact h.of_le rfl (Nat.le_refl _)
  | trailing position =>
      refine InOrder.foldl (fun _ c hp => hp.writeTrailing c) ?_ _
      exact h.of_le rfl (Nat.le_refl _)

theorem InOrder.putAll (h : p.InOrder) (pieces : List Piece) : (p.putAll pieces).InOrder :=
  InOrder.foldl (fun _ piece hp => hp.put piece) h pieces

end Page

namespace PositionMap

theorem mem_push {ms : Array Mapping} {m n : Mapping} (h : n ∈ push ms m) : n ∈ ms ∨ n = m := by
  unfold push at h
  split at h
  next =>
      split at h
      next => exact .inl h
      next => exact Array.mem_push.mp h
  next => exact Array.mem_push.mp h

theorem mem_foldl_push {ms : List Mapping} {kept : Array Mapping} {n : Mapping}
    (h : n ∈ ms.foldl push kept) : n ∈ kept ∨ n ∈ ms := by
  induction ms generalizing kept with
  | nil => exact .inl h
  | cons m ms ih =>
      rcases ih h with hkept | hms
      · rcases mem_push hkept with hkept | rfl
        · exact .inl hkept
        · exact .inr List.mem_cons_self
      · exact .inr (List.mem_cons_of_mem m hms)

/-- Every mapping is that of a record. -/
theorem exists_record_of_mem {code : List Char} {records : List Record} {source : Source}
    {m : Mapping} (h : m ∈ (ofRecords code records source).mappings) :
    ∃ r ∈ records, m.line = r.line ∧ m.column = r.column ∧ m.source = source.offset r.position := by
  rcases mem_foldl_push h with hnone | hmem
  · simp at hnone
  · obtain ⟨r, hr, hm⟩ := List.mem_filterMap.mp hmem
    refine ⟨r, hr, ?_⟩
    unfold mappingOf at hm
    split at hm
    next =>
        obtain ⟨generated, -, rfl⟩ := Option.map_eq_some_iff.mp hm
        exact ⟨rfl, rfl, rfl⟩
    next => exact absurd hm (by simp)

end PositionMap

namespace Script

/-- Where a source map is asked for, it is a document whose mappings can be read, and for each
mapping of the position map they have a segment with the same place in the generated text and, in
the file, the line and the column of the offset that the mapping has. -/
theorem decode_sourceMap (script : Script) (source : Source) (comments : List Comment)
    (printComments : Bool) :
    let generated := script.generate source comments ⟨printComments, true⟩
    ∃ (members : List (String × Json)) (sources : List Json) (mappings : String)
        (pointers : List SourceMap.Pointer),
      generated.sourceMap = some (Json.object members).compact ∧
      members.lookup "sources" = some (.array sources) ∧
      members.lookup "mappings" = some (.string mappings) ∧
      SourceMap.decode? mappings.toList = some pointers ∧
      ∀ m ∈ generated.map.mappings, sources = [.string source.file] ∧
        ∃ q ∈ pointers, q.line = m.line ∧ q.column = m.column ∧ q.source = 0 ∧
          q.sourceLine = (SourceMap.placeAt source.text m.source).1 ∧
          q.sourceColumn = (SourceMap.placeAt source.text m.source).2 := by
  intro generated
  let page := (Page.empty (if printComments then comments else [])).putAll script.pieces
  have hrecords : page.records.reverse.Pairwise fun a b => a.line ≤ b.line :=
    List.pairwise_reverse.mpr ((Page.inOrder_empty _).putAll script.pieces).records
  obtain ⟨hsub, hmem⟩ := SourceMap.segments_spec source page.records.reverse
  have hsegments : (SourceMap.segments source page.records.reverse).Pairwise
      fun a b => a.line ≤ b.line := by
    refine List.Pairwise.sublist hsub ?_
    rw [List.pairwise_map]
    exact hrecords
  refine ⟨_, _, _, _, rfl, rfl, rfl, SourceMap.decode?_mappings hsegments, ?_⟩
  intro m hm
  obtain ⟨r, hr, hline, hcolumn, hsource⟩ := PositionMap.exists_record_of_mem hm
  refine ⟨?_, (SourceMap.segmentOf source r).pointer, List.mem_map_of_mem (hmem r hr), ?_⟩
  · refine if_neg ?_
    rw [Bool.not_eq_true, List.isEmpty_eq_false_iff_exists_mem]
    exact ⟨r, hr⟩
  · rw [hline, hcolumn, hsource]
    exact ⟨rfl, rfl, rfl, rfl, rfl⟩

end Script

end Contracts
