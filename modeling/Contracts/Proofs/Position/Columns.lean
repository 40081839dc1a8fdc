import Contracts.Proofs.Position.Advancing
import Mathlib.Data.List.DropRight
import Mathlib.Data.List.TakeWhile

/-!
# Lines and columns of the generated text

A text is cut around each of its lines (`IsLineOf`), and the number of the line is
that of the line feeds in front of it. There the list of line starts has its entry
(`getElem?_lineStarts`).

Within a line a column takes as few characters as have that many UTF-16 units
(`IsTaken`): all characters of the line if it has fewer units, and a character that
the column cuts as a whole. So greater columns take more, and nothing is taken
beyond the line.
-/

namespace Contracts

namespace Text

theorem units16_pos (c : Char) : 0 < units16 c := by
  rw [units16]
  split <;> decide

theorem byteLength_le_of_isPrefix {cs ds : List Char} (h : cs <+: ds) :
    byteLength cs ≤ byteLength ds := by
  obtain ⟨rest, rfl⟩ := h
  rw [byteLength_append]
  exact Nat.le_add_right _ _

end Text

namespace PositionMap

section Lines

/-- A text that is cut around one of its lines. The line feed that ends the line, if
there is one, stands behind it. -/
structure IsLineOf (code before text behind : List Char) : Prop where
  code_eq : code = before ++ (text ++ behind)
  starts : ∀ c ∈ before.getLast?, c = '\n'
  unbroken : '\n' ∉ text
  ends : ∀ c ∈ behind.head?, c = '\n'

variable {code before rest : List Char}

theorem getElem?_lineStartsFrom (offset : Nat) (before rest : List Char) :
    (lineStartsFrom offset (before ++ '\n' :: rest))[before.count '\n']? =
      some (offset + Text.byteLength (before ++ ['\n']), rest) := by
  induction before generalizing offset with
  | nil => rfl
  | cons c before ih =>
      rw [List.cons_append, lineStartsFrom, List.cons_append, Text.byteLength_cons, ← Nat.add_assoc]
      by_cases hc : c = '\n'
      · rw [if_pos hc, hc, List.count_cons_self, List.getElem?_cons_succ]
        exact ih _
      · rw [if_neg hc, List.count_cons_of_ne hc]
        exact ih _

/-- The line behind some line feeds has its start in the list at their number. -/
theorem getElem?_lineStarts (hstarts : ∀ c ∈ before.getLast?, c = '\n') (rest : List Char) :
    (lineStarts (before ++ rest))[before.count '\n']? = some (Text.byteLength before, rest) := by
  rcases List.eq_nil_or_concat before with rfl | ⟨before, c, rfl⟩
  · rfl
  · obtain rfl : c = '\n' := hstarts c (by simp)
    have hfrom := getElem?_lineStartsFrom 0 before rest
    rw [Nat.zero_add] at hfrom
    rw [List.concat_eq_append, List.append_assoc, List.count_append]
    exact hfrom

theorem placeOffset_of_starts (hstarts : ∀ c ∈ before.getLast?, c = '\n') (rest : List Char)
    (column : Nat) :
    placeOffset (lineStarts (before ++ rest)).toArray (before.count '\n') column =
      some (Text.byteLength before + byteColumn column rest) := by
  rw [placeOffset, List.getElem?_toArray, getElem?_lineStarts hstarts]
  rfl

/-- What stands behind as many line feeds as are asked for. -/
theorem exists_starts {code : List Char} {line : Nat} (h : line ≤ code.count '\n') :
    ∃ before rest, code = before ++ rest ∧ (∀ c ∈ before.getLast?, c = '\n') ∧
      before.count '\n' = line := by
  induction code generalizing line with
  | nil =>
      obtain rfl : line = 0 := Nat.le_zero.mp h
      exact ⟨[], [], rfl, by simp, rfl⟩
  | cons c code ih =>
      cases line with
      | zero => exact ⟨[], c :: code, rfl, by simp, rfl⟩
      | succ line =>
          by_cases hc : c = '\n'
          · rw [hc, List.count_cons_self] at h
            obtain ⟨before, rest, rfl, hstarts, hcount⟩ := ih (Nat.le_of_succ_le_succ h)
            refine ⟨c :: before, rest, rfl, ?_, by rw [hc, List.count_cons_self, hcount]⟩
            cases before with
            | nil => simpa using hc
            | cons d before => simpa using hstarts
          · rw [List.count_cons_of_ne hc] at h
            obtain ⟨before, rest, rfl, hstarts, hcount⟩ := ih h
            refine ⟨c :: before, rest, rfl, ?_, by rw [List.count_cons_of_ne hc, hcount]⟩
            cases before with
            | nil => simp at hcount
            | cons d before => simpa using hstarts

/-- Every line up to the number of line feeds is there. -/
theorem exists_isLineOf {line : Nat} (h : line ≤ code.count '\n') :
    ∃ before text behind, IsLineOf code before text behind ∧ before.count '\n' = line := by
  obtain ⟨before, rest, rfl, hstarts, hcount⟩ := exists_starts h
  refine ⟨before, rest.takeWhile (· != '\n'), rest.dropWhile (· != '\n'), ⟨?_, hstarts, ?_, ?_⟩,
    hcount⟩
  · rw [List.takeWhile_append_dropWhile]
  · intro hmem
    simpa using List.mem_takeWhile_imp hmem
  · intro c hc
    have hnot := List.head?_dropWhile_not (· != '\n') rest
    rw [Option.mem_def.mp hc] at hnot
    simpa using hnot

end Lines

section Columns

/-- The characters of a line that a column takes: as few as have that many units,
and all of them if the line has fewer. -/
structure IsTaken (column : Nat) (text taken : List Char) : Prop where
  isPrefix : taken <+: text
  reaches : taken = text ∨ column ≤ Text.unitLength taken
  needed : ∀ fewer, fewer <+: taken → fewer ≠ taken → Text.unitLength fewer < column

variable {text behind taken taken' : List Char} {column column' : Nat}

/-- In front of a line feed, as many units as there are take everything. -/
theorem byteColumn_unitLength (htext : '\n' ∉ text) (behind : List Char) :
    byteColumn (Text.unitLength text) (text ++ behind) = Text.byteLength text := by
  induction text with
  | nil => cases behind <;> rfl
  | cons c text ih =>
      have hc : c ≠ '\n' := fun h => htext (h ▸ List.mem_cons_self)
      have hunits : Text.units16 c ≠ 0 := Nat.ne_of_gt (Text.units16_pos c)
      rw [List.cons_append, Text.unitLength_cons, byteColumn, if_neg (by simp [hunits, hc]),
        Nat.add_sub_cancel_left, ih fun h => htext (List.mem_cons_of_mem c h),
        Text.byteLength_cons]

theorem isTaken_nil (text : List Char) : IsTaken 0 text [] :=
  ⟨List.nil_prefix, .inr (Nat.zero_le _), fun _ h hne => absurd (List.prefix_nil.mp h) hne⟩

/-- A character is taken just if the column is beyond its start. -/
theorem IsTaken.cons {c : Char} (hcolumn : 0 < column)
    (h : IsTaken (column - Text.units16 c) text taken) : IsTaken column (c :: text) (c :: taken) where
  isPrefix := List.cons_prefix_cons.mpr ⟨rfl, h.isPrefix⟩
  reaches := by
    rw [Text.unitLength_cons, List.cons_inj_right]
    exact h.reaches.imp_right fun hle => by omega
  needed := by
    intro fewer hprefix hne
    cases fewer with
    | nil => exact hcolumn
    | cons d fewer =>
        obtain ⟨rfl, htail⟩ := List.cons_prefix_cons.mp hprefix
        have hlt := h.needed fewer htail fun heq => hne (by rw [heq])
        rw [Text.unitLength_cons]
        omega

/-- The offset of a column is the width of what it takes. -/
theorem exists_isTaken (htext : '\n' ∉ text) (hends : ∀ c ∈ behind.head?, c = '\n')
    (column : Nat) :
    ∃ taken, IsTaken column text taken ∧
      byteColumn column (text ++ behind) = Text.byteLength taken := by
  induction text generalizing column with
  | nil =>
      refine ⟨[], ⟨List.prefix_rfl, .inl rfl, fun _ h hne => ?_⟩, ?_⟩
      · exact absurd (List.prefix_nil.mp h) hne
      · cases behind with
        | nil => rfl
        | cons c behind => simp [byteColumn, hends c rfl]
  | cons c text ih =>
      rw [List.cons_append, byteColumn]
      rcases Nat.eq_zero_or_pos column with rfl | hcolumn
      · exact ⟨[], isTaken_nil _, by simp⟩
      · have hc : c ≠ '\n' := fun h => htext (h ▸ List.mem_cons_self)
        obtain ⟨taken, htaken, hwidth⟩ :=
          ih (fun h => htext (List.mem_cons_of_mem c h)) (column - Text.units16 c)
        refine ⟨c :: taken, htaken.cons hcolumn, ?_⟩
        rw [if_neg (by simp [Nat.ne_of_gt hcolumn, hc]), hwidth, Text.byteLength_cons]

/-- A greater column takes no less. -/
theorem IsTaken.isPrefix_of_le (h : IsTaken column text taken)
    (h' : IsTaken column' text taken') (hle : column ≤ column') : taken <+: taken' := by
  rcases List.prefix_or_prefix_of_prefix h.isPrefix h'.isPrefix with hshort | hlong
  · exact hshort
  · -- Had the greater column taken less, it would not have reached what it asks for.
    by_cases heq : taken' = taken
    · exact heq ▸ List.prefix_rfl
    · have hlt := h.needed taken' hlong heq
      rcases h'.reaches with rfl | hreaches
      · exact h.isPrefix
      · omega

end Columns

section Places

/-- A boundary is found again by the line feeds before it and the units behind the last of them. -/
theorem placeOffset_boundary (before after : List Char) :
    placeOffset (lineStarts (before ++ after)).toArray (before.count '\n')
        (Text.unitLength (before.rtakeWhile (· != '\n'))) = some (Text.byteLength before) := by
  have hcut : before.rdropWhile (· != '\n') ++ before.rtakeWhile (· != '\n') = before :=
    List.rdropWhile_append_rtakeWhile
  have htext : '\n' ∉ before.rtakeWhile (· != '\n') :=
    fun h => by simpa using List.mem_rtakeWhile_imp h
  have hstarts : ∀ c ∈ (before.rdropWhile (· != '\n')).getLast?, c = '\n' := by
    intro c hc
    obtain ⟨hne, rfl⟩ := List.mem_getLast?_eq_getLast hc
    simpa using List.rdropWhile_last_not (· != '\n') before hne
  generalize before.rdropWhile (· != '\n') = front at hcut hstarts
  generalize before.rtakeWhile (· != '\n') = text at hcut htext ⊢
  rw [← hcut, List.count_append, List.count_eq_zero.mpr htext, Nat.add_zero, List.append_assoc,
    placeOffset_of_starts hstarts, byteColumn_unitLength htext, Text.byteLength_append]

variable {code before text behind : List Char}

/-- A column of a line has the offset of what it takes. -/
theorem IsLineOf.exists_placeOffset (h : IsLineOf code before text behind) (column : Nat) :
    ∃ taken, IsTaken column text taken ∧
      placeOffset (lineStarts code).toArray (before.count '\n') column =
        some (Text.byteLength (before ++ taken)) := by
  obtain ⟨taken, htaken, hwidth⟩ := exists_isTaken h.unbroken h.ends column
  refine ⟨taken, htaken, ?_⟩
  rw [h.code_eq, placeOffset_of_starts h.starts, hwidth, Text.byteLength_append]

theorem byteLength_append_le_of_isPrefix (before : List Char) {cs ds : List Char} (h : cs <+: ds) :
    Text.byteLength (before ++ cs) ≤ Text.byteLength (before ++ ds) :=
  Text.byteLength_le_of_isPrefix ((List.prefix_append_right_inj before).mpr h)

theorem IsLineOf.offset_le_of_le (h : IsLineOf code before text behind)
    {column column' offset offset' : Nat} (hle : column ≤ column')
    (hoffset : placeOffset (lineStarts code).toArray (before.count '\n') column = some offset)
    (hoffset' : placeOffset (lineStarts code).toArray (before.count '\n') column' =
      some offset') : offset ≤ offset' := by
  obtain ⟨taken, htaken, hplace⟩ := h.exists_placeOffset column
  obtain ⟨taken', htaken', hplace'⟩ := h.exists_placeOffset column'
  obtain rfl := Option.some.inj (hplace.symm.trans hoffset)
  obtain rfl := Option.some.inj (hplace'.symm.trans hoffset')
  exact byteLength_append_le_of_isPrefix before (htaken.isPrefix_of_le htaken' hle)

end Places

/-- A boundary between characters has a line, which is the number of line feeds before it, and a
column, which is the number of units from the last of them on; the offset of this place is that of
the boundary. On a line that exists, every column has an offset: the line starts where the list of
line starts says, the offset is that of the characters that the column takes, so it is not beyond
the line feed or the end of the text, and it does not decrease as the column grows. -/
theorem placeOffset_leftInverse (code : List Char) :
    (∀ before after, code = before ++ after →
      placeOffset (lineStarts code).toArray (before.count '\n')
          (Text.unitLength (before.rtakeWhile (· != '\n'))) = some (Text.byteLength before)) ∧
      ∀ line, line < (lineStarts code).length → ∃ before text behind,
        IsLineOf code before text behind ∧ before.count '\n' = line ∧
        (lineStarts code)[line]? = some (Text.byteLength before, text ++ behind) ∧
        (∀ column, ∃ taken, IsTaken column text taken ∧
          placeOffset (lineStarts code).toArray line column =
            some (Text.byteLength (before ++ taken)) ∧
          Text.byteLength (before ++ taken) ≤ Text.byteLength (before ++ text)) ∧
        ∀ column column' offset offset', column ≤ column' →
          placeOffset (lineStarts code).toArray line column = some offset →
          placeOffset (lineStarts code).toArray line column' = some offset' →
          offset ≤ offset' := by
  refine ⟨?_, fun line hline => ?_⟩
  · rintro before after rfl
    exact placeOffset_boundary before after
  · rw [length_lineStarts, Nat.lt_succ_iff] at hline
    obtain ⟨before, text, behind, hcut, rfl⟩ := exists_isLineOf hline
    refine ⟨before, text, behind, hcut, rfl, ?_, fun column => ?_, ?_⟩
    · rw [hcut.code_eq]
      exact getElem?_lineStarts hcut.starts _
    · obtain ⟨taken, htaken, hplace⟩ := hcut.exists_placeOffset column
      exact ⟨taken, htaken, hplace, byteLength_append_le_of_isPrefix before htaken.isPrefix⟩
    · exact fun _ _ _ _ => hcut.offset_le_of_le

/-- The last character of the second line has eight bytes before it, and on its line three units,
two of which are those of one character. -/
theorem placeOffset_leftInverse_pair :
    placeOffset (lineStarts ['é', '\n', 'y', '😀', 'z']).toArray 1 3 = some 8 :=
  (placeOffset_leftInverse _).1 ['é', '\n', 'y', '😀'] ['z'] rfl

-- A column that cuts a pair of units, and one beyond the end of its line.
example : placeOffset (lineStarts ['é', '\n', 'y', '😀', 'z']).toArray 1 2 = some 8 ∧
    placeOffset (lineStarts ['é', '\n', 'y', '😀', 'z']).toArray 0 7 = some 2 := by
  decide

end PositionMap

end Contracts
