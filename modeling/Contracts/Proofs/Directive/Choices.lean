import Contracts.Proofs.Directive.Forms
import Mathlib.Data.List.Forall2

/-!
# How choices are read

A choice is a name with a header and lines below it (`Listing`). The header is what
stands on the line of the name, and below it every line that is not blank has to
write a field. Reading goes through the lines once: it stops at the first one that
writes no field, and otherwise it sets one field after the other.

What the fields are in the end is said by `Gathers`, which looks at all that was
written at once: the names are in the order of their first appearance, and each of
them has the type that it was given last. Setting one more field keeps this up
(`Gathers.setField`), with what was written so far carried along.
-/

namespace Contracts

namespace Text

section Trimming

/-- A blank at the end of a text is trimmed. -/
theorem trim_append_blank (cs : List Char) {b : Char} (hb : isBlank b = true) :
    trim (cs ++ [b]) = trim cs := by
  have hend : ∀ ds, trimRight (ds ++ [b]) = trimRight ds := by
    intro ds
    rw [trimRight, List.reverse_append, List.reverse_singleton, List.singleton_append,
      List.dropWhile_cons_of_pos hb]
    rfl
  rw [trim, trim, trimLeft, trimLeft, List.dropWhile_append]
  split
  next hempty =>
      rw [List.isEmpty_iff.mp hempty, List.dropWhile_cons_of_pos hb]
      rfl
  next => exact hend _

/-- Lines that are not blank, without the blanks around them. -/
def solid (lines : List (List Char)) : List (List Char) :=
  (lines.map trim).filter fun line => !line.isEmpty

theorem solid_cons_congr {line line' : List Char} {lines lines' : List (List Char)}
    (hline : trim line = trim line') (hlines : solid lines = solid lines') :
    solid (line :: lines) = solid (line' :: lines') := by
  unfold solid at hlines ⊢
  rw [List.map_cons, List.map_cons, List.filter_cons, List.filter_cons, hline, hlines]

end Trimming

section Feeds

variable {cs : List Char}

theorem splitOn_of_not_mem (h : '\n' ∉ cs) : cs.splitOn '\n' = [cs] :=
  List.splitOnP_eq_singleton fun c hc => by simpa using ne_of_mem_of_not_mem hc h

theorem splitOn_feed (h : '\n' ∉ cs) (ds : List Char) :
    (cs ++ '\n' :: ds).splitOn '\n' = cs :: ds.splitOn '\n' :=
  List.splitOnP_append_cons_of_forall_mem
    (fun c hc => by simpa using ne_of_mem_of_not_mem hc h) '\n' (by simp) ds

/-- Up to blanks, the lines of a text are what stands between its line feeds. -/
theorem solid_linesFrom (line cs : List Char) (hline : '\n' ∉ line) :
    solid (linesFrom line cs) = solid ((line.reverse ++ cs).splitOn '\n') := by
  fun_induction linesFrom line cs with
  | case1 line hempty =>
      rw [List.isEmpty_iff.mp hempty]
      rfl
  | case2 line =>
      rw [List.append_nil, splitOn_of_not_mem (by simpa using hline)]
  | case3 line cs ih =>
      rw [splitOn_feed (by simpa using hline)]
      refine solid_cons_congr ?_ (ih List.not_mem_nil)
      split
      next hreturn =>
          obtain ⟨line, rfl⟩ := List.head?_eq_some_iff.mp hreturn
          rw [List.tail_cons, List.reverse_cons, trim_append_blank _ (by decide)]
      next => rfl
  | case4 line c cs hc ih =>
      have hfeed : '\n' ∉ c :: line := by
        rw [List.mem_cons, not_or]
        exact ⟨fun h => hc h.symm, hline⟩
      rw [ih hfeed, List.reverse_cons, List.append_assoc, List.singleton_append]

theorem not_mem_of_splitAt?_eq_none {mark : Char} (h : splitAt? [mark] cs = none) :
    mark ∉ cs := by
  intro hmem
  obtain ⟨before, rest, rfl, hbefore⟩ := List.eq_append_cons_of_mem hmem
  rw [splitAt?_singleton hbefore] at h
  exact absurd h (by simp)

end Feeds

end Text

namespace Directive

open Text

section Headers

variable (cs : List Char)

/-- The header ends at the first line feed, and the lines come after it. -/
theorem splitHeader_eq :
    (splitHeader cs).1 = cs.takeWhile (· != '\n') ∧
      solidLines (splitHeader cs).2 = solid (cs.splitOn '\n').tail := by
  rw [splitHeader]
  cases hsplit : splitAt? ['\n'] cs with
  | none =>
      have hfeed := not_mem_of_splitAt?_eq_none hsplit
      rw [splitOn_of_not_mem hfeed]
      refine ⟨(List.takeWhile_eq_self_iff.mpr fun c hc => ?_).symm, rfl⟩
      simpa using ne_of_mem_of_not_mem hc hfeed
  | some parts =>
      obtain ⟨header, body⟩ := parts
      obtain ⟨rfl, hfeed⟩ := eq_append_of_splitAt?_singleton hsplit
      rw [splitOn_feed hfeed]
      refine ⟨?_, solid_linesFrom [] body List.not_mem_nil⟩
      have hheader : ∀ c ∈ header, (c != '\n') = true :=
        fun c hc => by simpa using ne_of_mem_of_not_mem hc hfeed
      rw [List.takeWhile_append_of_pos hheader, List.takeWhile_cons_of_neg (by simp),
        List.append_nil]
      rfl

end Headers

section Fields

/-- Of what was written, the field is the last one of its name. -/
def IsLast (written : List (String × String)) (field : String × String) : Prop :=
  ∃ before after, written = before ++ field :: after ∧ field.1 ∉ after.map Prod.fst

/-- The fields have the names that were written, in the order in which they first came, and each of
them has the type that was written for it last. -/
structure Gathers (written fields : List (String × String)) : Prop where
  names : fields.map Prod.fst = (written.map Prod.fst).eraseDups
  types : ∀ field ∈ fields, IsLast written field

theorem gathers_nil : Gathers [] [] :=
  ⟨rfl, by simp⟩

variable {written fields : List (String × String)} {name type : String}

theorem map_fst_setField :
    (setField fields name type).map Prod.fst =
      if name ∈ fields.map Prod.fst then fields.map Prod.fst
      else fields.map Prod.fst ++ [name] := by
  have hany : (fields.any fun f => f.1 == name) = true ↔ name ∈ fields.map Prod.fst := by
    simp
  rw [setField]
  split
  next hset =>
      rw [if_pos (hany.mp hset), List.map_map]
      refine List.map_congr_left fun f _ => ?_
      by_cases hname : f.1 = name <;> simp [hname]
  next hset =>
      rw [if_neg fun hmem => hset (hany.mpr hmem), List.map_append]
      rfl

/-- A field that is set takes the place of those of its name. -/
theorem eq_or_ne_of_mem_setField {field : String × String}
    (h : field ∈ setField fields name type) :
    field = (name, type) ∨ (field ∈ fields ∧ field.1 ≠ name) := by
  rw [setField] at h
  split at h
  next =>
      obtain ⟨f, hf, rfl⟩ := List.mem_map.mp h
      by_cases hname : f.1 = name
      · exact .inl (by simp [hname])
      · exact .inr (by simpa [hname] using hf)
  next hset =>
      obtain hmem | hmem := List.mem_append.mp h
      · exact .inr ⟨hmem, fun hname => hset (by simpa using ⟨field.2, hname ▸ hmem⟩)⟩
      · exact .inl (List.mem_singleton.mp hmem)

theorem Gathers.setField (h : Gathers written fields) (name type : String) :
    Gathers (written ++ [(name, type)]) (setField fields name type) := by
  constructor
  · rw [map_fst_setField, h.names, List.map_append, List.eraseDups_append]
    simp only [List.mem_eraseDups, List.map_cons, List.map_nil]
    split
    next hmem => simp [List.removeAll, hmem]
    next hmem => simp [List.removeAll, hmem, List.eraseDups_cons]
  · intro field hfield
    obtain rfl | ⟨hmem, hne⟩ := eq_or_ne_of_mem_setField hfield
    · exact ⟨written, [], rfl, List.not_mem_nil⟩
    · obtain ⟨before, after, rfl, hlast⟩ := h.types field hmem
      refine ⟨before, after ++ [(name, type)], by simp, ?_⟩
      rw [List.map_append, List.mem_append, not_or]
      exact ⟨hlast, by simpa using hne⟩

/-- Going through lines gathers what they write. -/
theorem Gathers.of_readFields {lines : List (List Char)} {found : List (String × String)}
    (h : Gathers written fields) (hread : readFields fields lines = .ok found) :
    ∃ new, List.Forall₂ WritesField lines new ∧ Gathers (written ++ new) found := by
  induction lines generalizing written fields with
  | nil =>
      obtain rfl := Except.ok.inj hread
      exact ⟨[], .nil, by rwa [List.append_nil]⟩
  | cons line lines ih =>
      rw [readFields] at hread
      split at hread
      next name type hfield =>
          obtain ⟨new, hnew, hgathers⟩ := ih (h.setField name type) hread
          refine ⟨(name, type) :: new, .cons (readField?_eq_some_iff.mp hfield) hnew, ?_⟩
          rwa [List.append_assoc, List.singleton_append] at hgathers
      next => exact absurd hread (by simp)

theorem Gathers.ne_nil (h : Gathers written fields) (hne : written ≠ []) : fields ≠ [] := by
  obtain ⟨first, rest, rfl⟩ := List.exists_cons_of_ne_nil hne
  rintro rfl
  have hnames := h.names
  rw [List.map_cons, List.eraseDups_cons] at hnames
  exact absurd hnames (by simp)

end Fields

/-- A line that is no field has a first one before it, or is it. -/
theorem exists_breaksAt_iff {lines : List (List Char)} :
    (∃ line, BreaksAt lines line) ↔ ∃ line ∈ lines, ¬ IsField line := by
  induction lines with
  | nil => simp [BreaksAt]
  | cons first lines ih =>
      by_cases hfirst : IsField first
      · simp only [breaksAt_cons_of_isField hfirst, ih, List.mem_cons, exists_eq_or_imp, hfirst,
          not_true_eq_false, false_or]
      · simp only [breaksAt_cons_of_not_isField hfirst, exists_eq', List.mem_cons,
          exists_eq_or_imp, hfirst, not_false_eq_true, true_or]

/-- Lines that are all fields are read, and no others. -/
theorem exists_readFields_iff (fields : List (String × String)) {lines : List (List Char)} :
    (∃ found, readFields fields lines = .ok found) ↔ ∀ line ∈ lines, IsField line := by
  cases hread : readFields fields lines with
  | ok found =>
      have hnone : ¬ ∃ line, BreaksAt lines line := by
        rintro ⟨line, hline⟩
        rw [readFields_eq_error_iff.mpr hline] at hread
        exact absurd hread (by simp)
      rw [exists_breaksAt_iff] at hnone
      simpa using hnone
  | error line =>
      obtain ⟨line, hmem, hline⟩ := exists_breaksAt_iff.mp ⟨line, readFields_eq_error_iff.mp hread⟩
      simp only [reduceCtorEq, exists_const, false_iff]
      exact fun hall => hline (hall line hmem)

namespace Listing

/-- What stands on the line of the name. -/
def header (l : Listing) : List Char :=
  l.rest.takeWhile (· != '\n')

/-- The lines below the name that are not blank, without the blanks around them. -/
def lines (l : Listing) : List (List Char) :=
  solid (l.rest.splitOn '\n').tail

variable (l : Listing) (span : Span)

theorem readChoice_text :
    readChoice span l.text =
      if l.header.all isBlank then
        match readFields [] l.lines with
        | .error line => .error (.malformedField (String.ofList l.name) (String.ofList line) span)
        | .ok [] => .ok none
        | .ok fields => .ok (some (.choice (String.ofList l.name) fields))
      else .ok none := by
  obtain ⟨hheader, hlines⟩ := splitHeader_eq l.rest
  have hsplit : splitName? l.text = some (l.name, l.rest) := splitName?_append l.isName l.rest_start
  rw [solidLines] at hlines
  rw [readChoice, hsplit]
  dsimp only
  rw [hheader, hlines]
  rfl

variable {l}

theorem readChoice_of_unlisted (h : ¬ (∀ c ∈ l.header, isBlank c = true) ∨ l.lines = []) :
    readChoice span l.text = .ok none := by
  rw [readChoice_text]
  split
  next hblank =>
      obtain hheader | hlines := h
      · exact absurd (List.all_eq_true.mp hblank) hheader
      · rw [hlines]
        rfl
  next => rfl

theorem readChoice_eq_error_iff_breaksAt (hblank : ∀ c ∈ l.header, isBlank c = true)
    {e : DirectiveError} :
    readChoice span l.text = .error e ↔
      ∃ line, BreaksAt l.lines line ∧
        e = .malformedField (String.ofList l.name) (String.ofList line) span := by
  rw [readChoice_text, if_pos (List.all_eq_true.mpr hblank)]
  have hbreaks : ∀ line, BreaksAt l.lines line ↔ readFields [] l.lines = .error line :=
    fun _ => readFields_eq_error_iff.symm
  simp only [hbreaks]
  cases readFields [] l.lines with
  | error line => simp [eq_comm]
  | ok found => cases found <;> simp

theorem exists_readChoice_eq_ok (hblank : ∀ c ∈ l.header, isBlank c = true)
    (hlines : l.lines ≠ []) (hfields : ∀ line ∈ l.lines, IsField line) :
    ∃ written fields, List.Forall₂ WritesField l.lines written ∧ Gathers written fields ∧
      readChoice span l.text = .ok (some (.choice (String.ofList l.name) fields)) := by
  obtain ⟨fields, hread⟩ := (exists_readFields_iff []).mpr hfields
  obtain ⟨written, hwritten, hgathers⟩ := gathers_nil.of_readFields hread
  refine ⟨written, fields, hwritten, hgathers, ?_⟩
  have hne : fields ≠ [] := by
    refine hgathers.ne_nil ?_
    rintro rfl
    exact hlines (List.forall₂_nil_right_iff.mp hwritten)
  obtain ⟨first, rest, rfl⟩ := List.exists_cons_of_ne_nil hne
  rw [readChoice_text, if_pos (List.all_eq_true.mpr hblank), hread]

end Listing

section Exactness

variable {span : Span}

/-- What is read from a listing is what its choice comes to. -/
theorem read_listing (o : Opening) (l : Listing) (span : Span) :
    read (o.text "adt".toList l.text) span =
      (readChoice span l.text).map (Option.map (⟨·, span⟩)) :=
  read_adt o l.isPastBlanks_text span

theorem read_listing_eq_error_iff {o : Opening} {l : Listing} {e : DirectiveError} :
    read (o.text "adt".toList l.text) span = .error e ↔ readChoice span l.text = .error e := by
  rw [read_listing]
  cases readChoice span l.text <;> simp [Except.map]

/-- A comment that opens as a choice is none if its header is not blank, or if all of its lines are.
Otherwise it is malformed just if one of its lines is no field, and the first such line is told; and
if all of them are fields, it is the choice between the fields that they write. All other comments
are neither choices nor malformed. -/
theorem read_iff_listing (text : List Char) (span : Span) :
    (∀ (o : Opening) (l : Listing), text = o.text "adt".toList l.text →
      (¬ (∀ c ∈ l.header, isBlank c = true) ∨ l.lines = [] → read text span = .ok none) ∧
        ((∀ c ∈ l.header, isBlank c = true) → l.lines ≠ [] →
          ((∃ e, read text span = .error e) ↔ ∃ line ∈ l.lines, ¬ IsField line) ∧
            (∀ e, read text span = .error e ↔
              ∃ line, BreaksAt l.lines line ∧
                e = .malformedField (String.ofList l.name) (String.ofList line) span) ∧
            ((∀ line ∈ l.lines, IsField line) →
              ∃ written fields, List.Forall₂ WritesField l.lines written ∧
                Gathers written fields ∧
                read text span = .ok (some ⟨.choice (String.ofList l.name) fields, span⟩)))) ∧
      ((∀ (o : Opening) (l : Listing), text ≠ o.text "adt".toList l.text) →
        (∀ e, read text span ≠ .error e) ∧
          ∀ name fields place, read text span ≠ .ok (some ⟨.choice name fields, place⟩)) := by
  refine ⟨?_, fun hnone => ⟨fun e hread => ?_, fun name fields place hread => ?_⟩⟩
  · rintro o l rfl
    refine ⟨fun hunlisted => ?_, fun hblank hlines => ⟨?_, fun e => ?_, fun hfields => ?_⟩⟩
    · rw [read_listing, Listing.readChoice_of_unlisted span hunlisted]
      rfl
    · simp only [read_listing_eq_error_iff, Listing.readChoice_eq_error_iff_breaksAt span hblank,
        ← exists_breaksAt_iff]
      constructor
      · rintro ⟨e, line, hline, -⟩
        exact ⟨line, hline⟩
      · rintro ⟨line, hline⟩
        exact ⟨_, line, hline, rfl⟩
    · rw [read_listing_eq_error_iff, Listing.readChoice_eq_error_iff_breaksAt span hblank]
    · obtain ⟨written, fields, hwritten, hgathers, hread⟩ :=
        Listing.exists_readChoice_eq_ok span hblank hlines hfields
      refine ⟨written, fields, hwritten, hgathers, ?_⟩
      rw [read_listing, hread]
      rfl
  · obtain ⟨o, l, htext⟩ := exists_listing_of_read_error hread
    exact hnone o l htext
  · obtain ⟨-, ⟨_, _, -, hkind⟩ | ⟨_, _, -, hkind⟩ | ⟨o, l, htext, -⟩⟩ := read_eq_some_cases hread
    · exact absurd hkind (by simp)
    · exact absurd hkind (by simp)
    · exact hnone o l htext

example : read "typify: adt A\n b: C\n\n d: E\n b: F".toList ⟨1, 9⟩ =
    .ok (some ⟨.choice "A" [("b", "F"), ("d", "E")], ⟨1, 9⟩⟩) := by
  decide

end Exactness

end Directive

end Contracts
