import Contracts.Proofs.Directive.Choices
import Contracts.Signature

/-!
# Directives with the mark of a signature

Two colons mark a signature, wherever they stand in a comment, and nothing keeps them out of a
directive. The comment that carries the signature of a function is the first one that is marked
(`Signature.carrier?`).

In the opening of a directive and in its name there is no mark: the marker ends in a single colon,
and what follows it is a blank or the word of the form. So instances are never marked, a synonym is
marked just if its definition is, and a choice just if one of its lines is (`isMarked_iff_of_read`).
-/

namespace Contracts

namespace Signature

open Text

/-- Whether the mark of a signature stands in a text. -/
def isMarked (cs : List Char) : Bool :=
  (splitAt? mark cs).isSome

/-- The comment whose mark counts. -/
def carrier? (comments : List Comment) : Option Comment :=
  comments.find? fun c => isMarked c.text.toList

/-- The signature in a comment. -/
def ofComment? (c : Comment) : Option String :=
  (afterMark? c.text.toList).bind fun rest =>
    if (ofRest rest).isEmpty then none else some (String.ofList (ofRest rest))

theorem findSome?_afterMark? (comments : List Comment) :
    (comments.findSome? fun c => afterMark? c.text.toList) =
      (carrier? comments).bind fun c => afterMark? c.text.toList := by
  induction comments with
  | nil => rfl
  | cons c cs ih =>
      rw [carrier?, List.findSome?_cons, List.find?_cons]
      cases hmark : splitAt? mark c.text.toList with
      | none =>
          simp only [afterMark?, isMarked, hmark, Option.map_none, Option.isSome_none]
          exact ih
      | some parts => simp [afterMark?, isMarked, hmark]

/-- The signature comes from the first comment that is marked. -/
theorem find?_eq (comments : List Comment) :
    find? comments = (carrier? comments).bind ofComment? := by
  rw [find?, findSome?_afterMark?]
  cases carrier? comments with
  | none => rfl
  | some c =>
      rw [Option.bind_some, Option.bind_some, ofComment?]
      cases afterMark? c.text.toList <;> rfl

theorem carrier?_eq_some_iff {comments : List Comment} {c : Comment} :
    carrier? comments = some c ↔ isMarked c.text.toList = true ∧
      ∃ before after, comments = before ++ c :: after ∧
        ∀ b ∈ before, isMarked b.text.toList = false := by
  simp [carrier?, List.find?_eq_some_iff_append]

section Texts

variable {cs ds : List Char} {c : Char}

theorem isMarked_nil : isMarked [] = false :=
  rfl

theorem isMarked_cons (c : Char) (cs : List Char) :
    isMarked (c :: cs) = (c == ':' && cs.head? == some ':' || isMarked cs) := by
  rw [isMarked, splitAt?]
  by_cases hc : c = ':'
  · subst hc
    cases cs with
    | nil => rfl
    | cons d ds =>
        by_cases hd : d = ':'
        · subst hd
          simp [mark, after?]
        · simp [mark, after?, hd, Ne.symm hd, isMarked]
  · simp [mark, after?, hc, Ne.symm hc, isMarked]

/-- The mark does not reach across a character that is no colon. -/
theorem isMarked_append_cons (hc : c ≠ ':') (cs ds : List Char) :
    isMarked (cs ++ c :: ds) = (isMarked cs || isMarked ds) := by
  induction cs with
  | nil => simp [isMarked_cons, isMarked_nil, hc]
  | cons d cs ih =>
      have hhead : ((cs ++ c :: ds).head? == some ':') = (cs.head? == some ':') := by
        cases cs with
        | nil => simpa using hc
        | cons => rfl
      rw [List.cons_append, isMarked_cons, isMarked_cons, ih, hhead, Bool.or_assoc]

theorem isMarked_append_of_not_mem (h : ':' ∉ cs) (ds : List Char) :
    isMarked (cs ++ ds) = isMarked ds := by
  induction cs with
  | nil => rfl
  | cons c cs ih =>
      rw [List.mem_cons, not_or] at h
      rw [List.cons_append, isMarked_cons, ih h.2]
      simp [Ne.symm h.1]

theorem isMarked_of_not_mem (h : ':' ∉ cs) : isMarked cs = false := by
  rw [← List.append_nil cs, isMarked_append_of_not_mem h, isMarked_nil]

theorem isMarked_append_right (cs : List Char) (h : ':' ∉ ds) :
    isMarked (cs ++ ds) = isMarked cs := by
  cases ds with
  | nil => rw [List.append_nil]
  | cons d ds =>
      rw [List.mem_cons, not_or] at h
      rw [isMarked_append_cons (Ne.symm h.1), isMarked_of_not_mem h.2, Bool.or_false]

theorem not_mem_of_blanks (h : ∀ c ∈ cs, isBlank c = true) : ':' ∉ cs := by
  intro hmem
  exact absurd (h ':' hmem) (by decide)

theorem isMarked_trimLeft (cs : List Char) : isMarked (trimLeft cs) = isMarked cs := by
  obtain ⟨blanks, hblanks, hcs⟩ := exists_blanks_append_trimLeft cs
  calc isMarked (trimLeft cs)
      = isMarked (blanks ++ trimLeft cs) :=
        (isMarked_append_of_not_mem (not_mem_of_blanks hblanks) _).symm
    _ = isMarked cs := by rw [← hcs]

theorem isMarked_trimRight (cs : List Char) : isMarked (trimRight cs) = isMarked cs := by
  obtain ⟨blanks, hblanks, hcs⟩ := exists_trimRight_append_blanks cs
  calc isMarked (trimRight cs)
      = isMarked (trimRight cs ++ blanks) :=
        (isMarked_append_right _ (not_mem_of_blanks hblanks)).symm
    _ = isMarked cs := by rw [← hcs]

/-- Trimming takes no mark away. -/
theorem isMarked_trim (cs : List Char) : isMarked (trim cs) = isMarked cs := by
  rw [trim, isMarked_trimRight, isMarked_trimLeft]

/-- A mark stands on one line. -/
theorem isMarked_splitOn (cs : List Char) :
    isMarked cs = (cs.splitOn '\n').any isMarked := by
  induction hlength : cs.length using Nat.strong_induction_on generalizing cs with
  | h n ih =>
      by_cases hfeed : '\n' ∈ cs
      · obtain ⟨line, rest, rfl, hline⟩ := List.eq_append_cons_of_mem hfeed
        have hshorter : rest.length < n := by
          rw [← hlength, List.length_append, List.length_cons]
          omega
        rw [splitOn_feed hline, List.any_cons, isMarked_append_cons (by decide),
          ← ih _ hshorter rest rfl]
      · rw [splitOn_of_not_mem hfeed]
        simp

theorem any_isMarked_solid (lines : List (List Char)) :
    (solid lines).any isMarked = lines.any isMarked := by
  have hempty : ∀ line : List Char, (!line.isEmpty && isMarked line) = isMarked line := by
    intro line
    cases line <;> rfl
  simp only [solid, List.any_filter, hempty, List.any_map, Function.comp_def, isMarked_trim]

end Texts

end Signature

namespace Directive

open Signature Text

theorem IsName.not_mem {name : List Char} (h : IsName (String.ofList name)) : ':' ∉ name := by
  obtain ⟨c, cs, heq, hc, hcs⟩ := h
  obtain rfl := String.ofList_injective heq
  rw [List.mem_cons, not_or]
  constructor
  · rintro rfl
    exact absurd hc (by decide)
  · intro hmem
    exact absurd (hcs ':' hmem) (by decide)

/-- The opening of a directive is not marked, and no mark starts in it. -/
theorem Opening.isMarked_text (o : Opening) {word : List Char} (hword : word ∈ formWords)
    (rest : List Char) : isMarked (o.text word rest) = isMarked rest := by
  have hcolon : ':' ∉ word := by
    revert word
    decide
  have hhead : ((o.inner ++ (word ++ (o.behind ++ rest))).head? == some ':') = false := by
    cases hinner : o.inner with
    | nil =>
        simp only [formWords, List.mem_cons, List.not_mem_nil, or_false] at hword
        rcases hword with rfl | rfl | rfl <;> rfl
    | cons c cs =>
        have hc := o.inner_blank c (by simp [hinner])
        have hne : c ≠ ':' := by
          rintro rfl
          exact absurd hc (by decide)
        simpa using hne
  have hmarker : ∀ ds, marker ++ ds = "typify".toList ++ ':' :: ds := fun _ => rfl
  rw [Opening.text, isMarked_append_of_not_mem (not_mem_of_blanks o.outer_blank), hmarker,
    isMarked_append_of_not_mem (by decide), isMarked_cons, hhead, Bool.and_false, Bool.false_or,
    isMarked_append_of_not_mem (not_mem_of_blanks o.inner_blank),
    isMarked_append_of_not_mem hcolon,
    isMarked_append_of_not_mem (not_mem_of_blanks o.behind_blank)]

theorem Equation.isMarked_text (e : Equation) : isMarked e.text = isMarked e.definition := by
  have hafter : ∀ c ∈ e.afterSign, isBlank c = true := by
    intro c hc
    have hclass := e.afterSign_blank c hc
    rw [Bool.and_eq_true] at hclass
    exact hclass.1
  rw [Equation.text, isMarked_append_of_not_mem e.isName.not_mem,
    isMarked_append_of_not_mem (not_mem_of_blanks e.beforeSign_blank), isMarked_cons,
    isMarked_append_of_not_mem (not_mem_of_blanks hafter)]
  rfl

theorem LoneName.isMarked_text (n : LoneName) : isMarked n.text = false := by
  rw [LoneName.text, isMarked_append_of_not_mem n.isName.not_mem]
  exact isMarked_of_not_mem (not_mem_of_blanks n.behind_blank)

/-- With a blank header, the marks of a listing stand in its lines. -/
theorem Listing.isMarked_text {l : Listing} (hblank : ∀ c ∈ l.header, isBlank c = true) :
    isMarked l.text = l.lines.any isMarked := by
  have hheader : isMarked l.header = false := isMarked_of_not_mem (not_mem_of_blanks hblank)
  rw [Listing.text, isMarked_append_of_not_mem l.isName.not_mem, isMarked_splitOn, Listing.lines,
    any_isMarked_solid]
  by_cases hfeed : '\n' ∈ l.rest
  · obtain ⟨line, rest, heq, hline⟩ := List.eq_append_cons_of_mem hfeed
    have hfirst : l.header = line := by
      have hall : ∀ c ∈ line, (c != '\n') = true :=
        fun c hc => by simpa using ne_of_mem_of_not_mem hc hline
      rw [Listing.header, heq, List.takeWhile_append_of_pos hall,
        List.takeWhile_cons_of_neg (by simp), List.append_nil]
    rw [heq, splitOn_feed hline, List.any_cons, ← hfirst, hheader]
    rfl
  · have hfirst : l.header = l.rest :=
      List.takeWhile_eq_self_iff.mpr fun c hc => by simpa using ne_of_mem_of_not_mem hc hfeed
    rw [splitOn_of_not_mem hfeed, List.any_cons, ← hfirst, hheader]
    rfl

end Directive

/-- Whether what a directive declares in a text is marked. -/
def DirectiveKind.IsMarkedIn (text : List Char) : DirectiveKind → Prop
  | .synonym _ definition => Signature.isMarked definition.toList = true
  | .instances _ => False
  | .choice _ _ => ∃ (o : Directive.Opening) (l : Directive.Listing),
      text = o.text "adt".toList l.text ∧ ∃ line ∈ l.lines, Signature.isMarked line = true

namespace Directive

open Signature Text

/-- A comment that is read as a directive is marked just if what it declares is. -/
theorem isMarked_iff_of_read {text : List Char} {span : Span} {d : Directive}
    (h : read text span = .ok (some d)) : isMarked text = true ↔ d.kind.IsMarkedIn text := by
  obtain ⟨-, ⟨o, e, rfl, hkind⟩ | ⟨o, n, rfl, hkind⟩ | ⟨o, l, rfl, name, fields, hkind⟩⟩ :=
    read_eq_some_cases h
  · rw [hkind, o.isMarked_text (by decide), e.isMarked_text, DirectiveKind.IsMarkedIn,
      String.toList_ofList]
  · rw [hkind, o.isMarked_text (by decide), n.isMarked_text]
    exact iff_of_false (by simp) id
  · -- What is read from a listing has a blank header, whichever way its text is cut up.
    have hblank : ∀ (o' : Opening) (l' : Listing),
        o.text "adt".toList l.text = o'.text "adt".toList l'.text →
          ∀ c ∈ l'.header, isBlank c = true := by
      intro o' l' htext
      by_contra hheader
      rw [htext, read_listing, Listing.readChoice_of_unlisted _ (.inl hheader)] at h
      exact absurd h (by simp [Except.map])
    rw [hkind]
    constructor
    · intro hmarked
      rw [o.isMarked_text (by decide), Listing.isMarked_text (hblank o l rfl)] at hmarked
      exact ⟨o, l, rfl, List.any_eq_true.mp hmarked⟩
    · rintro ⟨o', l', htext, hline⟩
      rw [htext, o'.isMarked_text (by decide), Listing.isMarked_text (hblank o' l' htext)]
      exact List.any_eq_true.mpr hline

end Directive

end Contracts
