import Contracts.Proofs.Directive.Signatures

/-!
# What is read from a comment and the ends of its lines

Three kinds of texts are taken from comments: signatures, the definitions of synonyms,
and the types of the fields of choices. The first two end at every character that ends
a line of a script. The lines of a choice end at line feeds only, so that a type is on
one line if the lines of the comment end with a line feed, with or without a carriage
return before it; but the other ends of a line stay within a type, and so does all
that comes after them (`Directive.read_choice_type`).
-/

namespace Contracts

namespace Text

/-- No line ends within the text. -/
def IsLine (cs : List Char) : Prop :=
  ∀ c ∈ cs, isLineBreak c = false

/-- All lines of a text end with a line feed, with or without a carriage return before it. -/
def EndsLinesByFeed (cs : List Char) : Prop :=
  ∀ before c after, cs = before ++ c :: after → isLineBreak c = true →
    c = '\n' ∨ (c = '\r' ∧ after.head? = some '\n')

theorem trim_isInfix (cs : List Char) : trim cs <:+: cs := by
  obtain ⟨blanks, -, hcs⟩ := exists_blanks_append_trimLeft cs
  obtain ⟨trailing, -, htrim⟩ := exists_trimRight_append_blanks (trimLeft cs)
  refine ⟨blanks, trailing, ?_⟩
  rw [List.append_assoc, trim, ← htrim, ← hcs]

theorem trim_eq_self {cs : List Char} (hstart : ∀ c ∈ cs.head?, isBlank c = false)
    (hstop : ∀ c ∈ cs.getLast?, isBlank c = false) : trim cs = cs := by
  have hleft : trimLeft ([] ++ cs) = cs := trimLeft_append (by simp) hstart
  have hright : trimRight (cs ++ []) = cs := trimRight_append (by simp) hstop
  rw [List.nil_append] at hleft
  rw [List.append_nil] at hright
  rw [trim, hleft, hright]

/-- What stands between line feeds has none, and it stands in the text as it is. -/
theorem isInfix_of_mem_splitOn {line cs : List Char} (h : line ∈ cs.splitOn '\n') :
    '\n' ∉ line ∧ line <:+: cs := by
  induction hlength : cs.length using Nat.strong_induction_on generalizing cs with
  | h n ih =>
      by_cases hfeed : '\n' ∈ cs
      · obtain ⟨first, rest, rfl, hfirst⟩ := List.eq_append_cons_of_mem hfeed
        rw [splitOn_feed hfirst, List.mem_cons] at h
        obtain rfl | h := h
        · exact ⟨hfirst, (List.prefix_append line _).isInfix⟩
        · have hshorter : rest.length < n := by
            rw [← hlength, List.length_append, List.length_cons]
            omega
          obtain ⟨hline, hinfix⟩ := ih _ hshorter h rfl
          have hsuffix : rest <:+ first ++ '\n' :: rest :=
            (List.suffix_cons '\n' rest).trans (List.suffix_append first _)
          exact ⟨hline, hinfix.trans hsuffix.isInfix⟩
      · rw [splitOn_of_not_mem hfeed, List.mem_singleton] at h
        exact ⟨h ▸ hfeed, h ▸ List.infix_rfl⟩

/-- Between line feeds only a carriage return can be left of the end of a line, and it is a blank in
front of a line feed. -/
theorem EndsLinesByFeed.isLine {text part : List Char} (h : EndsLinesByFeed text)
    (hpart : part <:+: text) (hfeed : '\n' ∉ part)
    (hstop : ∀ c ∈ part.getLast?, isBlank c = false) : IsLine part := by
  intro c hc
  by_contra hbreak
  rw [Bool.not_eq_false] at hbreak
  obtain ⟨before, after, rfl⟩ := List.append_of_mem hc
  obtain ⟨front, back, rfl⟩ := hpart
  have htext : front ++ (before ++ c :: after) ++ back =
      (front ++ before) ++ c :: (after ++ back) := by
    simp
  obtain rfl | ⟨rfl, hnext⟩ := h _ _ _ htext hbreak
  · exact hfeed hc
  · cases after with
    | nil =>
        have hblank := hstop '\r' (by simp)
        exact absurd hblank (by decide)
    | cons d after =>
        obtain rfl : d = '\n' := Option.some.inj hnext
        exact hfeed (by simp)

end Text

namespace Directive

open Text

section Types

variable {text : List Char} {span place : Span} {name : String}
  {fields : List (String × String)}

theorem Opening.suffix_text (o : Opening) (word rest : List Char) : rest <:+ o.text word rest :=
  ⟨o.outer ++ (marker ++ (o.inner ++ (word ++ o.behind))), by simp [Opening.text]⟩

theorem Listing.readFields_of_read {o : Opening} {l : Listing}
    (h : read (o.text "adt".toList l.text) span = .ok (some ⟨.choice name fields, place⟩)) :
    readFields [] l.lines = .ok fields := by
  rw [read_listing, Listing.readChoice_text] at h
  split at h
  next =>
      split at h
      next => exact absurd h (by simp [Except.map])
      next => exact absurd h (by simp [Except.map])
      next found _ hread =>
          obtain ⟨-, rfl⟩ : String.ofList l.name = name ∧ found = fields := by
            simpa [Except.map] using (congrArg (Option.map Directive.kind) (Except.ok.inj h))
          exact hread
  next => exact absurd h (by simp [Except.map])

/-- The type of a field is what is left of a stretch of the comment without the blanks around it,
and there is no line feed in this stretch. -/
theorem exists_isInfix_of_read
    (h : read text span = .ok (some ⟨.choice name fields, place⟩)) :
    ∀ field ∈ fields, ∃ type, field.2.toList = trim type ∧ '\n' ∉ type ∧ type <:+: text := by
  obtain ⟨-, ⟨_, _, -, hkind⟩ | ⟨_, _, -, hkind⟩ | ⟨o, l, rfl, -⟩⟩ := read_eq_some_cases h
  · exact absurd hkind (by simp)
  · exact absurd hkind (by simp)
  · refine forall_mem_of_readFields (fun line hline field hfield => ?_) (by simp)
      (Listing.readFields_of_read h)
    obtain ⟨called, blanks, type, rfl, -, -, -, rfl⟩ := readField?_eq_some_iff.mp hfield
    obtain ⟨whole, hwhole, htrim⟩ := List.mem_map.mp (List.mem_of_mem_filter hline)
    obtain ⟨hfeed, hinfix⟩ := isInfix_of_mem_splitOn (List.mem_of_mem_tail hwhole)
    have htype : type <:+: whole := by
      have hsuffix : type <:+ called ++ (blanks ++ ':' :: type) :=
        ⟨called ++ (blanks ++ [':']), by simp⟩
      rw [← htrim] at hsuffix
      exact hsuffix.isInfix.trans (trim_isInfix whole)
    have hrest : l.rest <:+ o.text "adt".toList l.text :=
      (List.suffix_append l.name l.rest).trans (o.suffix_text _ _)
    exact ⟨type, String.toList_ofList, fun hmem => hfeed (htype.subset hmem),
      (htype.trans hinfix).trans hrest.isInfix⟩

/-- Every text without line feeds and without blanks around it is the type of a field, whatever else
is in it. -/
theorem read_choice_type {type : List Char} (hne : type ≠ [])
    (hstart : ∀ c ∈ type.head?, isBlank c = false)
    (hstop : ∀ c ∈ type.getLast?, isBlank c = false) (hfeed : '\n' ∉ type) (span : Span) :
    read ("typify: adt A\nb:".toList ++ type) span =
      .ok (some ⟨.choice "A" [("b", String.ofList type)], span⟩) := by
  have hblank : ∀ c ∈ [' '], isBlank c = true := List.forall_mem_singleton.mpr rfl
  let o : Opening := ⟨[], [' '], [' '], by simp, hblank, hblank, by simp⟩
  let l : Listing :=
    ⟨['A'], '\n' :: 'b' :: ':' :: type, ⟨'A', [], rfl, rfl, by simp⟩,
      fun c hc => Option.some.inj hc ▸ rfl⟩
  have hlines : l.lines = ['b' :: ':' :: type] := by
    have htrim : trim ('b' :: ':' :: type) = 'b' :: ':' :: type := by
      refine trim_eq_self (fun c hc => Option.some.inj hc ▸ rfl) ?_
      rw [List.getLast?_cons_cons, List.getLast?_cons_of_ne_nil hne]
      exact hstop
    have hsplit : l.rest.splitOn '\n' = [[], 'b' :: ':' :: type] := by
      have hline : '\n' ∉ 'b' :: ':' :: type := by simpa using hfeed
      have hsplit := splitOn_feed List.not_mem_nil ('b' :: ':' :: type)
      rwa [splitOn_of_not_mem hline] at hsplit
    rw [Listing.lines, hsplit]
    simp [solid, htrim]
  have hfield : readField? ('b' :: ':' :: type) = some ("b", String.ofList type) := by
    refine readField?_eq_some_iff.mpr ⟨['b'], [], type, rfl, ⟨'b', [], rfl, rfl, by simp⟩,
      by simp, ?_, ?_⟩
    · obtain ⟨c, type, rfl⟩ := List.exists_cons_of_ne_nil hne
      exact ⟨c, List.mem_cons_self, hstart c rfl⟩
    · rw [trim_eq_self hstart hstop]
  have htext : "typify: adt A\nb:".toList ++ type = o.text "adt".toList l.text := rfl
  rw [htext, read_listing, Listing.readChoice_text, hlines, readFields, hfield]
  rfl

end Types

/-- Signatures and the definitions of synonyms stand on one line. The type of a field has no line
feed, and it stands on one line too if the lines of its comment end by line feeds; but apart from
line feeds any text without blanks around it is a type. -/
theorem isLine_of_read (comments : List Comment) (text : List Char) (span : Span) :
    (∀ s, Signature.find? comments = some s → IsLine s.toList) ∧
      (∀ name definition place, read text span = .ok (some ⟨.synonym name definition, place⟩) →
        IsLine definition.toList) ∧
      (∀ name fields place, read text span = .ok (some ⟨.choice name fields, place⟩) →
        ∀ field ∈ fields, '\n' ∉ field.2.toList ∧
          (EndsLinesByFeed text → IsLine field.2.toList)) ∧
      ∀ type : List Char, type ≠ [] → (∀ c ∈ type.head?, isBlank c = false) →
        (∀ c ∈ type.getLast?, isBlank c = false) → '\n' ∉ type →
          ∃ listing, read listing span =
            .ok (some ⟨.choice "A" [("b", String.ofList type)], span⟩) := by
  refine ⟨fun s hs => ?_, fun name definition place h => ?_,
    fun name fields place h field hfield => ?_, fun type hne hstart hstop hfeed => ?_⟩
  · rw [Signature.find?_eq, Option.bind_eq_some_iff] at hs
    obtain ⟨c, -, hc⟩ := hs
    obtain ⟨a, -, rfl⟩ := Signature.ofComment?_eq_some_iff.mp hc
    rw [String.toList_ofList]
    exact a.signature_line
  · obtain ⟨-, o, e, -, -, rfl⟩ := read_eq_synonym_iff.mp h
    rw [String.toList_ofList]
    exact e.definition_line
  · obtain ⟨type, htype, hfeed, hinfix⟩ := exists_isInfix_of_read h field hfield
    have hpart := trim_isInfix type
    have hnone : '\n' ∉ trim type := fun hmem => hfeed (hpart.subset hmem)
    rw [htype]
    refine ⟨hnone, fun htext => htext.isLine (hpart.trans hinfix) hnone fun c hc => ?_⟩
    exact isBlank_eq_false_of_mem_getLast?_trimRight hc
  · exact ⟨_, read_choice_type hne hstart hstop hfeed span⟩

/-- A carriage return alone does not end the line of a field, so that the next field is taken for a
part of its type. -/
theorem not_isLine_type :
    ¬ ∀ text span name fields place, read text span = .ok (some ⟨.choice name fields, place⟩) →
      ∀ field ∈ fields, IsLine field.2.toList := by
  intro h
  have hread : read "typify: adt A\n b: C\r d: E".toList ⟨1, 28⟩ =
      .ok (some ⟨.choice "A" [("b", "C\r d: E")], ⟨1, 28⟩⟩) := by
    decide
  have hline := h _ _ _ _ _ hread _ List.mem_cons_self '\r' (by decide)
  exact absurd hline (by decide)

end Directive

end Contracts
