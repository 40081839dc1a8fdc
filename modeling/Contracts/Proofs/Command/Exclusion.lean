import Contracts.Proofs.Command.Inputs
import Mathlib.Data.List.Infix

/-!
# Excluded directories

The same path can be spelled in many ways: slashes may be repeated, and single points
may stand between them. What counts are the parts of a path (`Path.parts`), which are
what stands between its slashes, without the empty pieces and the single points. A path
below another one has the parts of both (`Path.parts_slash`).

Whether a script is excluded depends on the parts of its path only, and there on all but
the last one (`Path.isInstrumentable_eq_false_iff`). The root and a point in front, which
are components of a path but no parts of it, are no names and exclude nothing.
-/

namespace Contracts

namespace Path

/-- The parts of a path, as its text shows them. -/
def parts (path : String) : List String :=
  ((path.toList.splitOn '/').map String.ofList).filter fun s => !(s == "" || s == ".")

section Splitting

theorem segmentsFrom_eq_splitOn {segment : List Char} (hsegment : '/' ∉ segment)
    (cs : List Char) :
    segmentsFrom segment cs = ((segment.reverse ++ cs).splitOn '/').map String.ofList := by
  induction cs generalizing segment with
  | nil =>
      have hsplit : segment.reverse.splitOn '/' = [segment.reverse] :=
        List.splitOnP_eq_singleton fun c hc => by
          simpa using ne_of_mem_of_not_mem (List.mem_reverse.mp hc) hsegment
      rw [segmentsFrom, List.append_nil, hsplit, List.map_singleton]
  | cons c cs ih =>
      rw [segmentsFrom]
      split
      next hc =>
          subst hc
          have hsplit : (segment.reverse ++ '/' :: cs).splitOn '/' =
              segment.reverse :: cs.splitOn '/' :=
            List.splitOnP_append_cons_of_forall_mem
              (fun c hc => by
                simpa using ne_of_mem_of_not_mem (List.mem_reverse.mp hc) hsegment)
              '/' (by simp) cs
          rw [ih List.not_mem_nil, hsplit, List.map_cons]
          rfl
      next hc =>
          rw [ih (by simpa [hsegment] using Ne.symm hc), List.reverse_cons, List.append_assoc,
            List.singleton_append]

theorem parts_eq_filter (path : String) :
    parts path = (segments path).filter fun s => !(s == "" || s == ".") := by
  rw [parts, segments, segmentsFrom_eq_splitOn List.not_mem_nil]
  rfl

@[simp]
theorem parts_empty : parts "" = [] := by decide

@[simp]
theorem parts_point : parts "." = [] := by decide

theorem parts_slash (directory below : String) :
    parts (directory ++ "/" ++ below) = parts directory ++ parts below := by
  rw [parts_eq_filter, parts_eq_filter, parts_eq_filter, segments_slash, List.filter_append]

/-- Names that lead along a location are the parts of their path. -/
theorem parts_pathOf {names : Location} (hnames : ∀ name ∈ names, IsName name) :
    parts (FileTree.pathOf names) = names := by
  by_cases hne : names = []
  · subst hne
    exact parts_empty
  · rw [parts_eq_filter, FileTree.segments_pathOf hnames hne]
    refine List.filter_eq_self.mpr fun name hname => ?_
    simp [(hnames name hname).ne_empty, (hnames name hname).ne_current]

end Splitting

section Components

/-- A part of a path as a component. -/
def partComponent (part : String) : Component :=
  if part = ".." then .parent else .normal part

theorem partComponent_ne_root (part : String) : partComponent part ≠ .root := by
  unfold partComponent
  split <;> simp

theorem isExcluded_partComponent (part : String) :
    (partComponent part).isExcluded = true ↔
      part = "node_modules" ∨ part = "test" ∨ part = "tests" := by
  unfold partComponent
  split
  next h => simp [Component.isExcluded, h]
  next h => simp [Component.isExcluded, excludedNames]

theorem component?_eq (segment : String) :
    component? segment =
      if segment = "" ∨ segment = "." then none else some (partComponent segment) := by
  unfold component? partComponent
  by_cases hstay : segment = "" ∨ segment = "."
  · rw [if_pos (by simpa using hstay), if_pos hstay]
  · rw [if_neg (by simpa using hstay), if_neg hstay]
    split <;> rfl

theorem filterMap_component? (segments : List String) :
    segments.filterMap component? =
      (segments.filter fun s => !(s == "" || s == ".")).map partComponent := by
  induction segments with
  | nil => rfl
  | cons segment segments ih =>
      have hcomponent := component?_eq segment
      by_cases hstay : segment = "" ∨ segment = "."
      · rw [if_pos hstay] at hcomponent
        rw [List.filterMap_cons_none hcomponent, ih, List.filter_cons]
        rcases hstay with rfl | rfl <;> rfl
      · rw [if_neg hstay] at hcomponent
        rw [List.filterMap_cons_some hcomponent, List.filter_cons_of_pos (by simpa using hstay),
          List.map_cons, ih]

/-- The components of a path are its parts, with the root or a point in front of them. -/
theorem exists_components_eq (path : String) :
    ∃ lead, (lead = [] ∨ lead = [.root] ∨ lead = [.current]) ∧
      components path = lead ++ (parts path).map partComponent := by
  rw [parts_eq_filter]
  unfold components
  cases segments path with
  | nil => exact ⟨[], .inl rfl, rfl⟩
  | cons first rest =>
      dsimp only
      rw [filterMap_component?]
      unfold firstComponent?
      split
      next hempty =>
          rw [List.filter_cons_of_neg (by simp [hempty])]
          split
          next => exact ⟨[], .inl rfl, rfl⟩
          next => exact ⟨[.root], .inr (.inl rfl), rfl⟩
      next hempty =>
          split
          next hpoint =>
              rw [List.filter_cons_of_neg (by simp [hpoint])]
              exact ⟨[.current], .inr (.inr rfl), rfl⟩
          next hpoint =>
              rw [List.filter_cons_of_pos (by simp [hempty, hpoint]), component?_eq,
                if_neg (by simp [hempty, hpoint])]
              exact ⟨[], .inl rfl, rfl⟩

end Components

section Exclusion

/-- A path that ends in a component other than the root is in the directory of those before it. -/
theorem parentComponents?_of_concat {path : String} {cs : List Component} {c : Component}
    (h : components path = cs ++ [c]) (hc : c ≠ .root) : parentComponents? path = some cs := by
  rw [parentComponents?, h, List.getLast?_concat, List.dropLast_concat]
  cases c with
  | root => exact absurd rfl hc
  | current => rfl
  | parent => rfl
  | normal name => rfl

/-- A script is excluded just if a part of its path is an excluded name, the last part apart. -/
theorem isInstrumentable_eq_false_iff {path : String} :
    isInstrumentable path = false ↔
      ∃ part ∈ (parts path).dropLast, part = "node_modules" ∨ part = "test" ∨ part = "tests" := by
  obtain ⟨lead, hlead, hcomponents⟩ := exists_components_eq path
  obtain hparts | ⟨init, last, hparts⟩ := List.eq_nil_or_concat' (parts path)
  · -- What has no parts is the root, a point or nothing.
    rw [hparts, List.map_nil, List.append_nil] at hcomponents
    rw [isInstrumentable, parentComponents?, hcomponents, hparts]
    rcases hlead with rfl | rfl | rfl <;> simp
  · rw [hparts, List.map_append, List.map_singleton, ← List.append_assoc] at hcomponents
    have hparent := parentComponents?_of_concat hcomponents (partComponent_ne_root last)
    have hclear : lead.any Component.isExcluded = false := by
      rcases hlead with rfl | rfl | rfl <;> rfl
    simp only [isInstrumentable, hparent, hparts, List.dropLast_concat]
    rw [Bool.not_eq_false', List.any_append, hclear, Bool.false_or, List.any_map, List.any_eq_true]
    exact exists_congr fun part => and_congr_right fun _ => isExcluded_partComponent part

theorem isInstrumentable_of_parts_eq {path other : String} (h : parts other = parts path) :
    isInstrumentable other = isInstrumentable path := by
  have hiff : isInstrumentable other = false ↔ isInstrumentable path = false := by
    rw [isInstrumentable_eq_false_iff, isInstrumentable_eq_false_iff, h]
  cases hpath : isInstrumentable path with
  | false => exact hiff.mpr hpath
  | true => simpa [hpath] using hiff

/-- What lies below an excluded script is excluded. -/
theorem isInstrumentable_eq_false_of_prefix {path longer : String}
    (hlonger : parts path <+: parts longer) (h : isInstrumentable path = false) :
    isInstrumentable longer = false := by
  rw [isInstrumentable_eq_false_iff] at h ⊢
  obtain ⟨part, hpart, hname⟩ := h
  obtain ⟨more, hmore⟩ := hlonger
  refine ⟨part, ?_, hname⟩
  rw [← hmore]
  by_cases hnil : more = []
  · rwa [hnil, List.append_nil]
  · rw [List.dropLast_append_of_ne_nil hnil]
    exact List.mem_append_left _ (List.mem_of_mem_dropLast hpart)

end Exclusion

/-- Which scripts are excluded, and that it does not depend on how a path is spelled: the names in
front of the last part of the path decide, a slash may be doubled, a point may be put between two
slashes, and the path may end with a slash. What extends an excluded path is excluded as well, even
where it leads up again. -/
theorem isInstrumentable_iff_no_excluded_part (path : String) :
    (isInstrumentable path = false ↔
        ∃ part ∈ (parts path).dropLast,
          part = "node_modules" ∨ part = "test" ∨ part = "tests") ∧
      (∀ before after,
        isInstrumentable (before ++ "//" ++ after) = isInstrumentable (before ++ "/" ++ after) ∧
          isInstrumentable (before ++ "/./" ++ after) =
            isInstrumentable (before ++ "/" ++ after)) ∧
      isInstrumentable (path ++ "/") = isInstrumentable path ∧
      isInstrumentable (path ++ "/.") = isInstrumentable path ∧
      (∀ other, parts other = parts path → isInstrumentable other = isInstrumentable path) ∧
      (isInstrumentable path = false →
        (∀ further, isInstrumentable (path ++ "/" ++ further) = false) ∧
          ∀ longer, parts path <+: parts longer → isInstrumentable longer = false) := by
  have hstay : ∀ before stay after, parts stay = [] →
      parts (before ++ "/" ++ (stay ++ "/" ++ after)) = parts (before ++ "/" ++ after) := by
    intro before stay after hempty
    rw [parts_slash, parts_slash, parts_slash, hempty, List.nil_append]
  refine ⟨isInstrumentable_eq_false_iff, ?_, ?_, ?_,
    fun other => isInstrumentable_of_parts_eq, fun h => ⟨fun further => ?_, fun longer hlonger =>
      isInstrumentable_eq_false_of_prefix hlonger h⟩⟩
  · intro before after
    refine ⟨isInstrumentable_of_parts_eq ?_, isInstrumentable_of_parts_eq ?_⟩
    · have htwo : before ++ "//" ++ after = before ++ "/" ++ ("" ++ "/" ++ after) := by
        simp [← String.toList_inj]
      rw [htwo, hstay before "" after parts_empty]
    · have hpoint : before ++ "/./" ++ after = before ++ "/" ++ ("." ++ "/" ++ after) := by
        simp [← String.toList_inj]
      rw [hpoint, hstay before "." after parts_point]
  · refine isInstrumentable_of_parts_eq ?_
    have hslash := parts_slash path ""
    rwa [parts_empty, List.append_nil, String.append_empty] at hslash
  · refine isInstrumentable_of_parts_eq ?_
    have hslash := parts_slash path "."
    rw [parts_point, List.append_nil] at hslash
    rwa [String.append_assoc] at hslash
  · refine isInstrumentable_eq_false_of_prefix ?_ h
    rw [parts_slash]
    exact List.prefix_append _ _

end Path

end Contracts
