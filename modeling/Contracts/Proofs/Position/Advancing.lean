import Contracts.Position.Map
import Mathlib.Data.List.Nodup

/-!
# What a position map keeps

A record of a page has a mapping if it lies in the file and on a line of the code
(`mapped?`). The offset of a mapping in the code is never in the middle of a
character: a line starts behind a line feed, and a column takes characters as a
whole.

Of the mappings that the records have, a position map keeps those that go beyond
all that were kept before them. This is said by marking each of them as kept or
not (`IsAdvancing`). A new mapping is compared with the last one that was kept
only, which is enough because the kept ones ascend; this is the invariant that
each step preserves (`Keeps.push`).
-/

namespace Contracts

namespace PositionMap

section Places

/-- A line starts behind some characters, which are as wide as its offset says. -/
theorem exists_append_of_mem_lineStartsFrom {offset : Nat} {cs : List Char}
    {start : Nat × List Char} (h : start ∈ lineStartsFrom offset cs) :
    ∃ before, cs = before ++ start.2 ∧ start.1 = offset + Text.byteLength before := by
  fun_induction lineStartsFrom offset cs with
  | case1 => exact absurd h List.not_mem_nil
  | case2 offset cs next ih =>
      rcases List.mem_cons.mp h with rfl | h
      · exact ⟨['\n'], rfl, rfl⟩
      · obtain ⟨before, rfl, hstart⟩ := ih h
        refine ⟨'\n' :: before, rfl, ?_⟩
        rw [hstart, Text.byteLength_cons, Nat.add_assoc]
  | case3 offset c cs next _ ih =>
      obtain ⟨before, rfl, hstart⟩ := ih h
      refine ⟨c :: before, rfl, ?_⟩
      rw [hstart, Text.byteLength_cons, Nat.add_assoc]

theorem exists_append_of_mem_lineStarts {code : List Char} {start : Nat × List Char}
    (h : start ∈ lineStarts code) :
    ∃ before, code = before ++ start.2 ∧ start.1 = Text.byteLength before := by
  rcases List.mem_cons.mp h with rfl | h
  · exact ⟨[], rfl, rfl⟩
  · obtain ⟨before, hcode, hstart⟩ := exists_append_of_mem_lineStartsFrom h
    exact ⟨before, hcode, by rw [hstart, Nat.zero_add]⟩

/-- There is one line more than there are line feeds. -/
theorem length_lineStarts (code : List Char) : (lineStarts code).length = code.count '\n' + 1 := by
  have hfrom : ∀ offset, (lineStartsFrom offset code).length = code.count '\n' := by
    intro offset
    fun_induction lineStartsFrom offset code with
    | case1 => rfl
    | case2 offset cs next ih => rw [List.length_cons, ih, List.count_cons_self]
    | case3 offset c cs next hc ih => rw [ih, List.count_cons_of_ne hc]
  rw [lineStarts, List.length_cons, hfrom]

/-- A column takes characters as a whole. -/
theorem exists_append_byteColumn (column : Nat) (cs : List Char) :
    ∃ taken rest, cs = taken ++ rest ∧ byteColumn column cs = Text.byteLength taken := by
  fun_induction byteColumn column cs with
  | case1 => exact ⟨[], [], rfl, rfl⟩
  | case2 column c cs _ => exact ⟨[], c :: cs, rfl, rfl⟩
  | case3 column c cs _ ih =>
      obtain ⟨taken, rest, rfl, hwidth⟩ := ih
      exact ⟨c :: taken, rest, rfl, by rw [hwidth, Text.byteLength_cons]⟩

/-- The offset of a place has whole characters before it. -/
theorem exists_append_of_placeOffset {code : List Char} {line column offset : Nat}
    (h : placeOffset (lineStarts code).toArray line column = some offset) :
    ∃ before after, code = before ++ after ∧ offset = Text.byteLength before := by
  obtain ⟨⟨start, rest⟩, hline, rfl⟩ := Option.map_eq_some_iff.mp h
  rw [List.getElem?_toArray] at hline
  obtain ⟨before, rfl, rfl⟩ := exists_append_of_mem_lineStarts (List.mem_of_getElem? hline)
  obtain ⟨taken, after, rfl, hwidth⟩ := exists_append_byteColumn column rest
  refine ⟨before ++ taken, after, by rw [List.append_assoc], ?_⟩
  rw [Text.byteLength_append, ← hwidth]

theorem isSome_placeOffset_iff {code : List Char} {line : Nat} (column : Nat) :
    (placeOffset (lineStarts code).toArray line column).isSome ↔ line ≤ code.count '\n' := by
  rw [placeOffset, Option.isSome_map, List.getElem?_toArray, isSome_getElem?, length_lineStarts,
    Nat.lt_succ_iff]

end Places

section Records

/-- The mapping that a record has in a code, if it lies in the file and on a line of the code. -/
def mapped? (code : List Char) (source : Source) (r : Record) : Option Mapping :=
  mappingOf source (lineStarts code).toArray r

variable {code : List Char} {source : Source} {r : Record} {m : Mapping}

theorem mapped?_eq_some_iff :
    mapped? code source r = some m ↔
      source.contains r.position = true ∧
        placeOffset (lineStarts code).toArray r.line r.column = some m.generated ∧
        m.line = r.line ∧ m.column = r.column ∧ m.source = source.offset r.position := by
  obtain ⟨generated, line, column, offset⟩ := m
  rw [mapped?, mappingOf]
  split
  next hfile =>
      rw [Option.map_eq_some_iff]
      constructor
      · rintro ⟨place, hplace, hm⟩
        obtain ⟨rfl, rfl, rfl, rfl⟩ := Mapping.mk.inj hm
        exact ⟨hfile, hplace, rfl, rfl, rfl⟩
      · rintro ⟨-, hplace, rfl, rfl, rfl⟩
        exact ⟨generated, hplace, rfl⟩
  next hfile => simp [hfile]

theorem contains_eq_true_iff (source : Source) (position : Nat) :
    source.contains position = true ↔ 1 ≤ position ∧ position ≤ source.length + 1 := by
  simp [Source.contains]

theorem exists_mapped?_iff :
    (∃ m, mapped? code source r = some m) ↔
      (1 ≤ r.position ∧ r.position ≤ source.length + 1) ∧ r.line ≤ code.count '\n' := by
  rw [← contains_eq_true_iff, ← isSome_placeOffset_iff r.column, Option.isSome_iff_exists]
  constructor
  · rintro ⟨m, hm⟩
    obtain ⟨hfile, hplace, -⟩ := mapped?_eq_some_iff.mp hm
    exact ⟨hfile, m.generated, hplace⟩
  · rintro ⟨hfile, offset, hplace⟩
    exact ⟨⟨offset, r.line, r.column, source.offset r.position⟩,
      mapped?_eq_some_iff.mpr ⟨hfile, hplace, rfl, rfl, rfl⟩⟩

/-- In the file, a position is one more than its offset. -/
theorem position_of_mapped? (h : mapped? code source r = some m) : m.source + 1 = r.position := by
  obtain ⟨hstart, hstop⟩ := (exists_mapped?_iff.mp ⟨m, h⟩).1
  rw [(mapped?_eq_some_iff.mp h).2.2.2.2, Source.offset]
  omega

end Records

section Keeping

/-- Each mapping is marked as kept just if it goes beyond all mappings before it that are. -/
def IsAdvancing (marked : List (Mapping × Bool)) : Prop :=
  ∀ before m isKept after, marked = before ++ (m, isKept) :: after →
    (isKept = true ↔ ∀ k ∈ before, k.2 = true → k.1.generated < m.generated)

/-- The mappings that are marked as kept. -/
def keptOf (marked : List (Mapping × Bool)) : List Mapping :=
  (marked.filter Prod.snd).map Prod.fst

theorem mem_keptOf {marked : List (Mapping × Bool)} {m : Mapping} :
    m ∈ keptOf marked ↔ (m, true) ∈ marked := by
  simp [keptOf]

/-- The mappings so far are marked, and those that are kept ascend. -/
structure Keeps (marked : List (Mapping × Bool)) (kept : List Mapping) : Prop where
  advancing : IsAdvancing marked
  kept_eq : keptOf marked = kept
  ascending : kept.Pairwise fun m n => m.generated < n.generated

theorem keeps_nil : Keeps [] [] :=
  ⟨fun _ _ _ _ h => absurd h (by simp), rfl, .nil⟩

theorem IsAdvancing.concat {marked : List (Mapping × Bool)} (h : IsAdvancing marked) {m : Mapping}
    {isKept : Bool}
    (hkept : isKept = true ↔ ∀ k ∈ marked, k.2 = true → k.1.generated < m.generated) :
    IsAdvancing (marked ++ [(m, isKept)]) := by
  intro before n isKept' after heq
  rcases List.eq_nil_or_concat after with rfl | ⟨after, final, rfl⟩
  · obtain ⟨rfl, hlast⟩ := List.append_inj' heq rfl
    obtain ⟨rfl, rfl⟩ := Prod.mk.inj (List.singleton_inj.mp hlast)
    exact hkept
  · rw [List.concat_eq_append, ← List.cons_append, ← List.append_assoc] at heq
    exact h before n isKept' after (List.append_inj' heq rfl).1

variable {marked : List (Mapping × Bool)} {kept : Array Mapping}

/-- The last mapping of those that ascend is the greatest. -/
theorem forall_lt_iff_of_back? {last m : Mapping}
    (hascending : kept.toList.Pairwise fun m n => m.generated < n.generated)
    (hlast : kept.back? = some last) :
    (∀ k ∈ kept.toList, k.generated < m.generated) ↔ last.generated < m.generated := by
  rw [← Array.getLast?_toList, List.getLast?_eq_some_iff] at hlast
  obtain ⟨first, hkept⟩ := hlast
  rw [hkept, List.pairwise_append] at hascending
  rw [hkept, List.forall_mem_append, List.forall_mem_singleton]
  refine ⟨And.right, fun h => ⟨fun k hk => ?_, h⟩⟩
  exact Nat.lt_trans (hascending.2.2 k hk last List.mem_cons_self) h

/-- One more mapping is kept just if it goes beyond all that were kept. -/
theorem push_of_ascending (m : Mapping)
    (hascending : kept.toList.Pairwise fun m n => m.generated < n.generated) :
    ((∀ k ∈ kept.toList, k.generated < m.generated) → (push kept m).toList = kept.toList ++ [m]) ∧
      (¬ (∀ k ∈ kept.toList, k.generated < m.generated) → push kept m = kept) := by
  rw [push]
  split
  next last hlast =>
      rw [forall_lt_iff_of_back? hascending hlast]
      refine ⟨fun h => ?_, fun h => if_pos (Nat.le_of_not_lt h)⟩
      rw [if_neg (Nat.not_le_of_lt h), Array.toList_push]
  next hnone =>
      obtain rfl := Array.back?_eq_none_iff.mp hnone
      exact ⟨fun _ => Array.toList_push, fun h => absurd (by simp) h⟩

theorem Keeps.push (h : Keeps marked kept.toList) (m : Mapping) :
    ∃ isKept, Keeps (marked ++ [(m, isKept)]) (push kept m).toList := by
  obtain ⟨hpush, hpass⟩ := push_of_ascending m h.ascending
  have hbeyond : (∀ k ∈ kept.toList, k.generated < m.generated) ↔
      ∀ k ∈ marked, k.2 = true → k.1.generated < m.generated := by
    simp only [← h.kept_eq, mem_keptOf]
    constructor
    · rintro hall ⟨k, isKept⟩ hk rfl
      exact hall k hk
    · exact fun hall k hk => hall (k, true) hk rfl
  by_cases hall : ∀ k ∈ kept.toList, k.generated < m.generated
  · refine ⟨true, h.advancing.concat (iff_of_true rfl (hbeyond.mp hall)), ?_, ?_⟩
    · rw [hpush hall, ← h.kept_eq, keptOf, List.filter_append, List.map_append]
      rfl
    · rw [hpush hall, List.pairwise_append]
      exact ⟨h.ascending, List.pairwise_singleton _ _, by simpa using hall⟩
  · refine ⟨false, h.advancing.concat (iff_of_false (by simp) (mt hbeyond.mpr hall)), ?_, ?_⟩
    · rw [hpass hall, ← h.kept_eq, keptOf, List.filter_append, List.map_append]
      exact List.append_nil _
    · rw [hpass hall]
      exact h.ascending

/-- Going through mappings marks each of them. -/
theorem Keeps.foldl_push (h : Keeps marked kept.toList) (ms : List Mapping) :
    ∃ more, more.map Prod.fst = ms ∧
      Keeps (marked ++ more) (ms.foldl PositionMap.push kept).toList := by
  induction ms generalizing marked kept with
  | nil => exact ⟨[], rfl, by rwa [List.append_nil]⟩
  | cons m ms ih =>
      obtain ⟨isKept, hpush⟩ := h.push m
      obtain ⟨more, rfl, hmore⟩ := ih hpush
      refine ⟨(m, isKept) :: more, rfl, ?_⟩
      rwa [List.append_assoc, List.singleton_append] at hmore

/-- Where mappings never go back, the first of each offset is kept. -/
theorem IsAdvancing.mem_keptOf_of_find? (h : IsAdvancing marked) {found : List Mapping}
    (hfound : marked.map Prod.fst = found)
    (horder : found.Pairwise fun m n => m.generated ≤ n.generated) {offset : Nat} {first : Mapping}
    (hfirst : found.find? (fun k => k.generated == offset) = some first) :
    first ∈ keptOf marked := by
  obtain ⟨hoffset, before, after, rfl, hbefore⟩ := List.find?_eq_some_iff_append.mp hfirst
  obtain ⟨done, rest, rfl, rfl, hrest⟩ := List.map_eq_append_iff.mp hfound
  obtain ⟨⟨first, isKept⟩, rest, rfl, rfl, rfl⟩ := List.map_eq_cons_iff.mp hrest
  have hlt : ∀ k ∈ done, k.2 = true → k.1.generated < first.generated := by
    intro k hk _
    have hmem : k.1 ∈ done.map Prod.fst := List.mem_map_of_mem hk
    have hle := (List.pairwise_append.mp horder).2.2 k.1 hmem first List.mem_cons_self
    refine Nat.lt_of_le_of_ne hle fun heq => ?_
    have hne := hbefore k.1 hmem
    rw [heq, hoffset] at hne
    exact absurd hne (by decide)
  obtain rfl := (h done first isKept rest rfl).mpr hlt
  exact mem_keptOf.mpr (List.mem_append_right done List.mem_cons_self)

end Keeping

/-- Mappings that ascend are told apart by their offsets. -/
theorem eq_of_generated_eq {kept : List Mapping}
    (h : kept.Pairwise fun m n => m.generated < n.generated) {m n : Mapping} (hm : m ∈ kept)
    (hn : n ∈ kept) (heq : m.generated = n.generated) : m = n := by
  have hnodup : (kept.map Mapping.generated).Nodup :=
    List.pairwise_map.mpr (h.imp Nat.ne_of_lt)
  exact List.inj_on_of_nodup_map hnodup hm hn heq

/-- Where mappings never go back, one of each offset is kept, and this is the first. -/
theorem Keeps.exists_first {marked : List (Mapping × Bool)} {kept found : List Mapping}
    (h : Keeps marked kept) (hfound : marked.map Prod.fst = found)
    (horder : found.Pairwise fun m n => m.generated ≤ n.generated) {m : Mapping} (hm : m ∈ found) :
    ∃ first, found.find? (fun k => k.generated == m.generated) = some first ∧
      first ∈ kept ∧ ∀ k ∈ kept, k.generated = m.generated → k = first := by
  have hsome : (found.find? fun k => k.generated == m.generated).isSome :=
    List.find?_isSome.mpr ⟨m, hm, by simp⟩
  obtain ⟨first, hfirst⟩ := Option.isSome_iff_exists.mp hsome
  have hkept : first ∈ kept := by
    have hmarked := h.advancing.mem_keptOf_of_find? hfound horder hfirst
    rwa [h.kept_eq] at hmarked
  refine ⟨first, hfirst, hkept, fun k hk heq => ?_⟩
  have hoffset : first.generated = m.generated := by
    simpa using List.find?_some hfirst
  exact eq_of_generated_eq h.ascending hk hkept (heq.trans hoffset.symm)

/-- A record has a mapping just if it lies in the file and on a line of the code. The position map
has those of these mappings that go beyond all that are kept before them. Their offsets in the code
ascend and lie between its characters, and their offsets in the source lie within it. Where the
mappings never go back, the first one of each offset is kept, and no other. -/
theorem ofRecords_isAdvancing (code : List Char) (records : List Record) (source : Source) :
    let found := records.filterMap (mapped? code source)
    let kept := (ofRecords code records source).mappings.toList
    (∀ r, (∃ m, mapped? code source r = some m) ↔
        (1 ≤ r.position ∧ r.position ≤ source.length + 1) ∧ r.line ≤ code.count '\n') ∧
      (∀ r m, mapped? code source r = some m →
        placeOffset (lineStarts code).toArray r.line r.column = some m.generated ∧
          m.line = r.line ∧ m.column = r.column ∧ m.source + 1 = r.position) ∧
      (kept.Pairwise fun m n => m.generated < n.generated) ∧
      (∀ m ∈ kept, m.generated ≤ Text.byteLength code ∧
        (∃ before after, code = before ++ after ∧ m.generated = Text.byteLength before) ∧
        m.source ≤ source.length) ∧
      (∃ marked, marked.map Prod.fst = found ∧ IsAdvancing marked ∧ keptOf marked = kept) ∧
      ((found.Pairwise fun m n => m.generated ≤ n.generated) →
        ∀ m ∈ found, ∃ first, found.find? (fun k => k.generated == m.generated) = some first ∧
          first ∈ kept ∧ ∀ k ∈ kept, k.generated = m.generated → k = first) := by
  intro found kept
  have hempty : Keeps [] (#[] : Array Mapping).toList := keeps_nil
  obtain ⟨marked, hfound, hkeeps⟩ := hempty.foldl_push found
  change Keeps marked kept at hkeeps
  have hmem : ∀ m ∈ kept, m ∈ found := by
    intro m hm
    rw [← hfound]
    rw [← hkeeps.kept_eq, mem_keptOf] at hm
    exact List.mem_map_of_mem hm
  refine ⟨fun r => exists_mapped?_iff, fun r m hm => ?_, hkeeps.ascending, fun m hm => ?_,
    ⟨marked, hfound, hkeeps.advancing, hkeeps.kept_eq⟩, fun horder m hm => ?_⟩
  · obtain ⟨-, hplace, hline, hcolumn, -⟩ := mapped?_eq_some_iff.mp hm
    exact ⟨hplace, hline, hcolumn, position_of_mapped? hm⟩
  · obtain ⟨r, -, hr⟩ := List.mem_filterMap.mp (hmem m hm)
    obtain ⟨-, hplace, -, -, hsource⟩ := mapped?_eq_some_iff.mp hr
    obtain ⟨before, after, hcode, hoffset⟩ := exists_append_of_placeOffset hplace
    refine ⟨?_, ⟨before, after, hcode, hoffset⟩, hsource ▸ source.offset_le_length _⟩
    rw [hcode, hoffset, Text.byteLength_append]
    exact Nat.le_add_right _ _
  · exact hkeeps.exists_first hfound horder hm

-- A column beyond the end of its line, a synthesized position, a step back, and an offset twice.
example : (ofRecords "ab\nc".toList
      [⟨1, 0, 0⟩, ⟨2, 0, 5⟩, ⟨0, 1, 0⟩, ⟨2, 0, 1⟩, ⟨3, 1, 0⟩, ⟨4, 1, 0⟩]
      (Source.ofText "a.js" "abcd".toList)).mappings.toList =
    [⟨0, 0, 0, 0⟩, ⟨2, 0, 5, 1⟩, ⟨3, 1, 0, 2⟩] := by
  decide

end PositionMap

end Contracts
