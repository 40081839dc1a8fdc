import Contracts.Proofs.Directive.Marks

/-!
# How signatures are read

A signature stands behind the first mark of a comment, on the first line that is not
blank there, and it goes up to the end of that line without the blanks around it. An
`Annotation` is a comment of which the parts are told apart: what is before the mark,
the signature, the blanks on both sides of it, and the lines below.

Only the first comment with a mark is looked at. It carries a signature just if it is
an annotation (`ofComment?_eq_some_iff`), and if it is none there is no signature at
all, whatever the comments after it are.
-/

namespace Contracts

namespace Signature

open Text

section FirstMark

variable {cs before rest : List Char}

/-- A text is marked just if the two colons stand in it somewhere. -/
theorem isMarked_iff_isInfix : isMarked cs = true ↔ mark <:+: cs := by
  constructor
  · intro h
    induction cs with
    | nil => exact absurd h (by simp [isMarked_nil])
    | cons c cs ih =>
        rw [isMarked_cons, Bool.or_eq_true, Bool.and_eq_true, beq_iff_eq, beq_iff_eq,
          List.head?_eq_some_iff] at h
        obtain ⟨rfl, rest, rfl⟩ | h := h
        · exact (List.prefix_append mark rest).isInfix
        · exact (ih h).trans (List.suffix_cons c cs).isInfix
  · rintro ⟨before, rest, rfl⟩
    induction before with
    | nil => exact isMarked_cons ':' (':' :: rest)
    | cons c before ih =>
        rw [List.cons_append, List.cons_append, isMarked_cons, ih, Bool.or_true]

theorem isSome_after?_mark (c : Char) (cs : List Char) :
    (after? mark (c :: cs)).isSome = (c == ':' && cs.head? == some ':') := by
  rw [Bool.eq_iff_iff, Option.isSome_iff_exists, Bool.and_eq_true, beq_iff_eq, beq_iff_eq,
    List.head?_eq_some_iff]
  simp only [after?_eq_some_iff]
  constructor
  · rintro ⟨rest, h⟩
    obtain ⟨rfl, rfl⟩ := List.cons.inj h
    exact ⟨rfl, rest, rfl⟩
  · rintro ⟨rfl, rest, rfl⟩
    exact ⟨rest, rfl⟩

/-- A mark behind some characters looks from them like a single colon. -/
theorem head?_append_mark (before rest : List Char) :
    (before ++ (mark ++ rest)).head? = (before ++ [':']).head? := by
  cases before <;> rfl

theorem eq_append_of_splitAt?_mark (h : splitAt? mark cs = some (before, rest)) :
    cs = before ++ (mark ++ rest) ∧ isMarked (before ++ [':']) = false := by
  induction cs generalizing before with
  | nil => exact absurd h (by simp [splitAt?, mark, after?])
  | cons c cs ih =>
      rw [splitAt?] at h
      split at h
      next tail htail =>
          obtain ⟨rfl, rfl⟩ := Prod.mk.inj (Option.some.inj h)
          have hcs : c :: cs = mark ++ tail := eq_append_of_after? htail
          exact ⟨hcs, rfl⟩
      next hnone =>
          obtain ⟨⟨first, tail⟩, hfirst, heq⟩ := Option.map_eq_some_iff.mp h
          obtain ⟨rfl, rfl⟩ := Prod.mk.inj heq
          obtain ⟨rfl, hmark⟩ := ih hfirst
          refine ⟨rfl, ?_⟩
          rw [List.cons_append, isMarked_cons, hmark, Bool.or_false, ← head?_append_mark,
            ← isSome_after?_mark, hnone]
          rfl

theorem splitAt?_mark_append (h : isMarked (before ++ [':']) = false) (rest : List Char) :
    splitAt? mark (before ++ (mark ++ rest)) = some (before, rest) := by
  induction before with
  | nil => rfl
  | cons c before ih =>
      rw [List.cons_append, isMarked_cons, Bool.or_eq_false_iff, ← head?_append_mark _ rest,
        ← isSome_after?_mark, Option.isSome_eq_false_iff, Option.isNone_iff_eq_none] at h
      rw [List.cons_append, splitAt?, h.1]
      dsimp only
      rw [ih h.2]
      rfl

/-- The text is cut at the mark that stands first: none starts any earlier, not even one that ends
with the first of its two colons. -/
theorem afterMark?_eq_some_iff :
    afterMark? cs = some rest ↔
      ∃ before, cs = before ++ (mark ++ rest) ∧ ¬ mark <:+: before ++ [':'] := by
  simp only [← isMarked_iff_isInfix, Bool.not_eq_true]
  constructor
  · intro h
    obtain ⟨⟨before, tail⟩, hsplit, rfl⟩ := Option.map_eq_some_iff.mp h
    exact ⟨before, eq_append_of_splitAt?_mark hsplit⟩
  · rintro ⟨before, rfl, hmark⟩
    rw [afterMark?, splitAt?_mark_append hmark]
    rfl

end FirstMark

section Annotations

/-- A text with a signature behind its first mark. Blanks around the signature and the lines below
it do not belong to it. -/
structure Annotation where
  before : List Char
  blanks : List Char
  signature : List Char
  trailing : List Char
  below : List Char
  before_unmarked : ¬ mark <:+: before ++ [':']
  blanks_blank : ∀ c ∈ blanks, isBlank c = true
  signature_ne_nil : signature ≠ []
  signature_start : ∀ c ∈ signature.head?, isBlank c = false
  signature_stop : ∀ c ∈ signature.getLast?, isBlank c = false
  signature_line : ∀ c ∈ signature, isLineBreak c = false
  trailing_blank : ∀ c ∈ trailing, isBlank c = true
  trailing_line : ∀ c ∈ trailing, isLineBreak c = false
  below_start : ∀ c ∈ below.head?, isLineBreak c = true

namespace Annotation

/-- What comes behind the mark. -/
def behind (a : Annotation) : List Char :=
  a.blanks ++ (a.signature ++ (a.trailing ++ a.below))

def text (a : Annotation) : List Char :=
  a.before ++ (mark ++ a.behind)

theorem afterMark?_text (a : Annotation) : afterMark? a.text = some a.behind :=
  afterMark?_eq_some_iff.mpr ⟨a.before, rfl, a.before_unmarked⟩

theorem ofRest_behind (a : Annotation) : ofRest a.behind = a.signature := by
  have hstart : ∀ c ∈ (a.signature ++ (a.trailing ++ a.below)).head?, isBlank c = false := by
    rw [List.head?_append_of_ne_nil _ a.signature_ne_nil]
    exact a.signature_start
  have hline : ∀ c ∈ a.signature ++ a.trailing, (!isLineBreak c) = true := by
    intro c hc
    obtain hc | hc := List.mem_append.mp hc
    · rw [a.signature_line c hc]
      rfl
    · rw [a.trailing_line c hc]
      rfl
  have hbelow : ∀ c ∈ a.below.head?, (!isLineBreak c) = false := by
    intro c hc
    rw [a.below_start c hc]
    rfl
  rw [ofRest, behind, trimLeft_append a.blanks_blank hstart, ← List.append_assoc,
    takeWhile_append_of_head? hline hbelow, trimRight_append a.trailing_blank a.signature_stop]

/-- Where something is left behind the mark, a text is an annotation. -/
theorem exists_text_eq {cs rest : List Char} (hrest : afterMark? cs = some rest)
    (hne : ofRest rest ≠ []) : ∃ a : Annotation, a.text = cs ∧ a.signature = ofRest rest := by
  obtain ⟨before, rfl, hbefore⟩ := afterMark?_eq_some_iff.mp hrest
  obtain ⟨blanks, hblanks, hblanks_eq⟩ := exists_blanks_append_trimLeft rest
  have hline : ∀ c ∈ (trimLeft rest).takeWhile (fun c => !isLineBreak c),
      isLineBreak c = false := by
    intro c hc
    have hkind := List.mem_takeWhile_imp hc
    simpa using hkind
  obtain ⟨trailing, htrailing, htrailing_eq⟩ :=
    exists_trimRight_append_blanks ((trimLeft rest).takeWhile fun c => !isLineBreak c)
  have hparts : trimLeft rest =
      ofRest rest ++ (trailing ++ (trimLeft rest).dropWhile fun c => !isLineBreak c) := by
    rw [ofRest, ← List.append_assoc, ← htrailing_eq, List.takeWhile_append_dropWhile]
  have hsignature : ∀ c ∈ ofRest rest, isLineBreak c = false := by
    intro c hc
    exact hline c (htrailing_eq ▸ List.mem_append_left trailing hc)
  refine ⟨⟨before, blanks, ofRest rest, trailing,
    (trimLeft rest).dropWhile fun c => !isLineBreak c, hbefore, hblanks, hne, ?_, ?_, hsignature,
    htrailing, ?_, ?_⟩, ?_, rfl⟩
  · intro c hc
    have hhead : c ∈ (trimLeft rest).head? := by
      rwa [hparts, List.head?_append_of_ne_nil _ hne]
    exact eq_false_of_mem_head?_dropWhile hhead
  · exact fun c hc => isBlank_eq_false_of_mem_getLast?_trimRight hc
  · intro c hc
    exact hline c (htrailing_eq ▸ List.mem_append_right _ hc)
  · intro c hc
    simpa using eq_false_of_mem_head?_dropWhile hc
  · rw [text, behind]
    dsimp only
    rw [← hparts, ← hblanks_eq]

end Annotation

/-- A comment carries a signature just if it is an annotation with it. -/
theorem ofComment?_eq_some_iff {c : Comment} {s : String} :
    ofComment? c = some s ↔
      ∃ a : Annotation, c.text.toList = a.text ∧ s = String.ofList a.signature := by
  rw [ofComment?, Option.bind_eq_some_iff]
  constructor
  · rintro ⟨rest, hrest, h⟩
    split at h
    next => exact absurd h (by simp)
    next hempty =>
        obtain ⟨a, htext, hsignature⟩ :=
          Annotation.exists_text_eq hrest (by simpa using hempty)
        exact ⟨a, htext.symm, by rw [hsignature, Option.some.inj h]⟩
  · rintro ⟨a, htext, rfl⟩
    refine ⟨a.behind, htext ▸ a.afterMark?_text, ?_⟩
    rw [a.ofRest_behind, if_neg (by simpa using a.signature_ne_nil)]

end Annotations

theorem carrier?_eq_some_iff_isInfix {comments : List Comment} {c : Comment} :
    carrier? comments = some c ↔ mark <:+: c.text.toList ∧
      ∃ before after, comments = before ++ c :: after ∧
        ∀ b ∈ before, ¬ mark <:+: b.text.toList := by
  simp only [carrier?_eq_some_iff, ← isMarked_iff_isInfix, Bool.not_eq_true]

/-- The comments after the first marked one are not looked at. -/
theorem find?_append_cons {before : List Comment} {c : Comment}
    (hbefore : ∀ b ∈ before, ¬ mark <:+: b.text.toList) (hc : mark <:+: c.text.toList)
    (after : List Comment) : find? (before ++ c :: after) = ofComment? c := by
  have hcarrier : carrier? (before ++ c :: after) = some c :=
    carrier?_eq_some_iff_isInfix.mpr ⟨hc, before, after, rfl, hbefore⟩
  rw [find?_eq, hcarrier, Option.bind_some]

theorem Annotation.isInfix_text (a : Annotation) : mark <:+: a.text :=
  ⟨a.before, a.behind, List.append_assoc _ _ _⟩

theorem find?_eq_some_iff {comments : List Comment} {s : String} :
    find? comments = some s ↔
      ∃ before c after, comments = before ++ c :: after ∧
        (∀ b ∈ before, ¬ mark <:+: b.text.toList) ∧
        ∃ a : Annotation, c.text.toList = a.text ∧ s = String.ofList a.signature := by
  constructor
  · intro h
    rw [find?_eq, Option.bind_eq_some_iff] at h
    obtain ⟨c, hcarrier, hs⟩ := h
    obtain ⟨-, before, after, hcomments, hbefore⟩ := carrier?_eq_some_iff_isInfix.mp hcarrier
    exact ⟨before, c, after, hcomments, hbefore, ofComment?_eq_some_iff.mp hs⟩
  · rintro ⟨before, c, after, rfl, hbefore, a, htext, rfl⟩
    rw [find?_append_cons hbefore (htext ▸ a.isInfix_text)]
    exact ofComment?_eq_some_iff.mpr ⟨a, htext, rfl⟩

/-- Comments carry a signature just if the first of them with a mark is an annotation with it. What
comes after that comment does not count, whether it carries a signature or not. A signature stands
on one line and has no blanks around it. -/
theorem find?_iff_annotation (comments : List Comment) :
    (∀ s, find? comments = some s ↔
        ∃ before c after, comments = before ++ c :: after ∧
          (∀ b ∈ before, ¬ mark <:+: b.text.toList) ∧
          ∃ a : Annotation, c.text.toList = a.text ∧ s = String.ofList a.signature) ∧
      (∀ before c after, comments = before ++ c :: after →
        (∀ b ∈ before, ¬ mark <:+: b.text.toList) → mark <:+: c.text.toList →
          ∀ others, find? (before ++ c :: others) = find? comments) ∧
      ∀ s, find? comments = some s →
        (∀ c ∈ s.toList, isLineBreak c = false) ∧ s ≠ "" ∧
          (∀ c ∈ s.toList.head?, isBlank c = false) ∧
          ∀ c ∈ s.toList.getLast?, isBlank c = false := by
  refine ⟨fun s => find?_eq_some_iff, ?_, fun s hs => ?_⟩
  · rintro before c after rfl hbefore hc others
    rw [find?_append_cons hbefore hc, find?_append_cons hbefore hc]
  · obtain ⟨-, -, -, -, -, a, -, rfl⟩ := find?_eq_some_iff.mp hs
    rw [String.toList_ofList]
    refine ⟨a.signature_line, ?_, a.signature_start, a.signature_stop⟩
    intro hempty
    exact a.signature_ne_nil (String.ofList_injective hempty)

-- Blanks in front may go over lines, but those behind end with the line.
example : find? [⟨.block, " f ::\n  A :: b \t\u2028 c", ⟨1, 9⟩, .leading 9⟩] = some "A :: b" := by
  decide

example : find? [⟨.line, " ::  ", ⟨1, 9⟩, .leading 9⟩, ⟨.line, ":: a", ⟨1, 9⟩, .leading 9⟩] =
    none := by
  decide

end Signature

end Contracts
