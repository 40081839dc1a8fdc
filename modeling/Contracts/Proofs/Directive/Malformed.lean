import Contracts.Proofs.Directive.Reading
import Contracts.Proofs.Text.Runs

/-!
# Malformed choices

A choice is written as the marker, the word `adt` and a name that stands alone
on its line, and then as fields on lines of their own. It is malformed if one of
these lines, blank ones aside, is no field, and this is the only way in which
reading a directive fails (`Directive.read_eq_error_iff`).
-/

namespace Contracts

namespace Text

theorem trim_eq_nil_iff {cs : List Char} : trim cs = [] ↔ ∀ c ∈ cs, isBlank c = true := by
  rw [trim, trimRight, trimLeft, List.reverse_eq_nil_iff, List.dropWhile_eq_nil_iff]
  simp only [List.mem_reverse]
  constructor
  · intro h
    have hnil : cs.dropWhile isBlank = [] := by
      cases hrest : cs.dropWhile isBlank with
      | nil => rfl
      | cons c rest =>
          have hc := List.head?_dropWhile_not isBlank cs
          rw [hrest] at h hc
          simp [h c List.mem_cons_self] at hc
    exact List.dropWhile_eq_nil_iff.mp hnil
  · intro h c hc
    exact h c ((List.dropWhile_suffix isBlank).subset hc)

theorem splitAt?_singleton {mark : Char} {cs : List Char} (h : mark ∉ cs) (rest : List Char) :
    splitAt? [mark] (cs ++ mark :: rest) = some (cs, rest) := by
  induction cs with
  | nil => simp [splitAt?, after?]
  | cons c cs ih =>
      rw [List.mem_cons, not_or] at h
      simp [splitAt?, after?, h.1, ih h.2]

theorem eq_append_of_splitAt?_singleton {mark : Char} {cs before rest : List Char}
    (h : splitAt? [mark] cs = some (before, rest)) :
    cs = before ++ mark :: rest ∧ mark ∉ before := by
  induction cs generalizing before with
  | nil => simp [splitAt?, after?] at h
  | cons c cs ih =>
      by_cases hc : mark = c
      · obtain ⟨rfl, rfl⟩ : [] = before ∧ cs = rest := by simpa [splitAt?, after?, hc] using h
        exact ⟨by rw [hc]; rfl, List.not_mem_nil⟩
      · obtain ⟨before, hbefore, rfl⟩ :
            ∃ first, splitAt? [mark] cs = some (first, rest) ∧ c :: first = before := by
          simpa [splitAt?, after?, hc] using h
        obtain ⟨rfl, hmark⟩ := ih hbefore
        exact ⟨rfl, by simp [hc, hmark]⟩

end Text

namespace Directive

open Text

theorem isBlank_of_isNamePart {c : Char} (h : isNamePart c = true) : isBlank c = false := by
  have hcodes : 'A'.val.toNat = 65 ∧ 'Z'.val.toNat = 90 ∧ 'a'.val.toNat = 97 ∧
      'z'.val.toNat = 122 ∧ '0'.val.toNat = 48 ∧ '9'.val.toNat = 57 := by
    decide
  have hval : c.toNat = c.val.toNat := rfl
  have halphanum : c.isAlphanum = ((decide (c.val ≥ 'A'.val ∧ c.val ≤ 'Z'.val) ||
      (decide (c.val ≥ 'a'.val) && decide (c.val ≤ 'z'.val))) ||
      (decide (c.val ≥ '0'.val) && decide (c.val ≤ '9'.val))) := rfl
  simp only [isNamePart, halphanum, Bool.or_eq_true, Bool.and_eq_true, decide_eq_true_eq,
    beq_iff_eq, ge_iff_le, UInt32.le_iff_toNat_le] at h
  simp only [isBlank, Bool.or_eq_false_iff, Bool.and_eq_false_iff, beq_eq_false_iff_ne,
    decide_eq_false_iff_not]
  obtain h | rfl := h
  · omega
  · decide

theorem isNamePart_of_isNameStart {c : Char} (h : isNameStart c = true) : isNamePart c = true := by
  rw [isNameStart, Bool.or_eq_true] at h
  rw [isNamePart, Char.isAlphanum]
  obtain h | h := h <;> simp [h]

theorem isNamePart_of_isBlank {c : Char} (h : isBlank c = true) : isNamePart c = false := by
  cases hpart : isNamePart c with
  | false => rfl
  | true => exact absurd h (by simp [isBlank_of_isNamePart hpart])

/-- A name ends where blanks or a mark follow. -/
theorem isNamePart_head?_blanks {blanks : List Char} {mark : Char}
    (hblanks : ∀ c ∈ blanks, isBlank c = true) (hmark : isNamePart mark = false)
    (rest : List Char) : ∀ c ∈ (blanks ++ mark :: rest).head?, isNamePart c = false := by
  intro c hc
  cases blanks with
  | nil =>
      obtain rfl := Option.some.inj hc
      exact hmark
  | cons b blanks =>
      obtain rfl := Option.some.inj hc
      exact isNamePart_of_isBlank (hblanks b List.mem_cons_self)

theorem splitName?_append {name rest : List Char} (hname : IsName (String.ofList name))
    (hrest : ∀ c ∈ rest.head?, isNamePart c = false) :
    splitName? (name ++ rest) = some (name, rest) := by
  obtain ⟨c, cs, heq, hc, hcs⟩ := hname
  obtain rfl := String.ofList_injective heq
  have htake : (cs ++ rest).takeWhile isNamePart = cs := by
    rw [List.takeWhile_append_of_pos hcs]
    cases rest with
    | nil => simp
    | cons d rest => simp [hrest d rfl]
  rw [List.cons_append, splitName?, if_pos hc, htake, dropWhile_append_of_head? hcs hrest]

theorem eq_append_of_splitName? {cs name rest : List Char}
    (h : splitName? cs = some (name, rest)) : cs = name ++ rest := by
  cases cs with
  | nil => exact absurd h (by simp [splitName?])
  | cons c cs =>
      rw [splitName?] at h
      split at h
      next =>
          obtain ⟨rfl, rfl⟩ := Prod.mk.inj (Option.some.inj h)
          rw [List.cons_append, List.takeWhile_append_dropWhile]
      next => exact absurd h (by simp)

/-- A line of the form `name: type`. -/
def IsField (line : List Char) : Prop :=
  ∃ name blanks type, line = name ++ (blanks ++ ':' :: type) ∧ IsName (String.ofList name) ∧
    (∀ c ∈ blanks, isBlank c = true) ∧ ∃ c ∈ type, isBlank c = false

/-- The line writes the field with its name and its type. -/
def WritesField (line : List Char) (field : String × String) : Prop :=
  ∃ name blanks type, line = name ++ (blanks ++ ':' :: type) ∧ IsName (String.ofList name) ∧
    (∀ c ∈ blanks, isBlank c = true) ∧ (∃ c ∈ type, isBlank c = false) ∧
    field = (String.ofList name, String.ofList (trim type))

theorem readField?_eq_some_iff {line : List Char} {field : String × String} :
    readField? line = some field ↔ WritesField line field := by
  constructor
  · intro h
    rw [readField?, Option.bind_eq_bind, Option.bind_eq_some_iff] at h
    obtain ⟨⟨name, rest⟩, hsplit, h⟩ := h
    simp only [Option.bind_eq_bind, Option.bind_eq_some_iff] at h
    obtain ⟨type, htype, h⟩ := h
    split at h
    next => exact absurd h (by simp)
    next hsome =>
        obtain ⟨blanks, hblanks, hrest⟩ := exists_blanks_append_trimLeft rest
        refine ⟨name, blanks, type, ?_, (splitName?_eq_some hsplit).1, hblanks, ?_,
          (Option.some.inj h).symm⟩
        · rw [eq_append_of_splitName? hsplit, hrest, eq_append_of_after? htype]
          rfl
        · rw [List.isEmpty_iff, trim_eq_nil_iff] at hsome
          simpa using hsome
  · rintro ⟨name, blanks, type, rfl, hname, hblanks, ⟨c, hc, hsolid⟩, rfl⟩
    have hsplit : splitName? (name ++ (blanks ++ ':' :: type)) =
        some (name, blanks ++ ':' :: type) :=
      splitName?_append hname (isNamePart_head?_blanks hblanks (by decide) type)
    have htrim : trimLeft (blanks ++ ':' :: type) = [':'] ++ type := by
      refine trimLeft_append hblanks fun d hd => ?_
      obtain rfl := Option.some.inj hd
      decide
    have htype : ¬ (trim type).isEmpty = true := by
      rw [List.isEmpty_iff, trim_eq_nil_iff]
      exact fun h => absurd (h c hc) (by simp [hsolid])
    simp only [readField?, hsplit, htrim, after?_append, Option.bind_eq_bind, Option.bind_some,
      if_neg htype]

theorem isSome_readField?_iff {line : List Char} : (readField? line).isSome ↔ IsField line := by
  rw [Option.isSome_iff_exists]
  simp only [readField?_eq_some_iff]
  constructor
  · rintro ⟨field, name, blanks, type, hline, hname, hblanks, htype, -⟩
    exact ⟨name, blanks, type, hline, hname, hblanks, htype⟩
  · rintro ⟨name, blanks, type, hline, hname, hblanks, htype⟩
    exact ⟨_, name, blanks, type, hline, hname, hblanks, htype, rfl⟩

/-- Of some lines, `line` is the first that is no field. -/
def BreaksAt (lines : List (List Char)) (line : List Char) : Prop :=
  ∃ before after, lines = before ++ line :: after ∧ (∀ l ∈ before, IsField l) ∧ ¬ IsField line

section Breaks

variable {first line : List Char} {lines : List (List Char)}

theorem breaksAt_cons_of_isField (hfirst : IsField first) :
    BreaksAt (first :: lines) line ↔ BreaksAt lines line := by
  constructor
  · rintro ⟨before, after, heq, hbefore, hline⟩
    cases before with
    | nil =>
        obtain ⟨rfl, rfl⟩ := List.cons.inj heq
        exact absurd hfirst hline
    | cons l before =>
        obtain ⟨rfl, rfl⟩ := List.cons.inj heq
        exact ⟨before, after, rfl, (List.forall_mem_cons.mp hbefore).2, hline⟩
  · rintro ⟨before, after, rfl, hbefore, hline⟩
    exact ⟨first :: before, after, rfl, List.forall_mem_cons.mpr ⟨hfirst, hbefore⟩, hline⟩

theorem breaksAt_cons_of_not_isField (hfirst : ¬ IsField first) :
    BreaksAt (first :: lines) line ↔ first = line := by
  constructor
  · rintro ⟨before, after, heq, hbefore, hline⟩
    cases before with
    | nil => exact (List.cons.inj heq).1
    | cons l before =>
        obtain ⟨rfl, rfl⟩ := List.cons.inj heq
        exact absurd (hbefore first List.mem_cons_self) hfirst
  · rintro rfl
    exact ⟨[], lines, rfl, by simp, hfirst⟩

/-- Reading fields fails at the first line that is none. -/
theorem readFields_eq_error_iff {fields : List (String × String)} :
    readFields fields lines = .error line ↔ BreaksAt lines line := by
  induction lines generalizing fields with
  | nil => simp [readFields, BreaksAt]
  | cons first lines ih =>
      rw [readFields]
      split
      next name type hfield =>
          have hfirst : IsField first := isSome_readField?_iff.mp (by rw [hfield]; rfl)
          rw [ih, breaksAt_cons_of_isField hfirst]
      next hfield =>
          have hfirst : ¬ IsField first := by
            rw [← isSome_readField?_iff, hfield]
            simp
          rw [breaksAt_cons_of_not_isField hfirst, Except.error.injEq]

end Breaks

/-- The lines of a text that are not blank, without the blanks around them. -/
def solidLines (body : List Char) : List (List Char) :=
  ((lines body).map trim).filter fun line => !line.isEmpty

/-- The text is a choice `name` in which `line` is the first line that is no field. -/
def MalformedChoice (text name line : List Char) : Prop :=
  ∃ blanks₁ blanks₂ blanks₃ blanks₄ body,
    text = blanks₁ ++ (marker ++ (blanks₂ ++ ("adt".toList ++
      (blanks₃ ++ (name ++ (blanks₄ ++ '\n' :: body)))))) ∧
    (∀ c ∈ blanks₁ ++ blanks₂ ++ blanks₃ ++ blanks₄, isBlank c = true) ∧
    blanks₃ ≠ [] ∧ '\n' ∉ blanks₄ ∧ IsName (String.ofList name) ∧ BreaksAt (solidLines body) line

theorem readChoice_eq_error_iff {span : Span} {cs : List Char} {e : DirectiveError} :
    readChoice span cs = .error e ↔
      ∃ name blanks body line, cs = name ++ (blanks ++ '\n' :: body) ∧
        (IsName (String.ofList name) ∧ (∀ c ∈ blanks, isBlank c = true) ∧ '\n' ∉ blanks) ∧
        BreaksAt (solidLines body) line ∧
        e = .malformedField (String.ofList name) (String.ofList line) span := by
  constructor
  · intro h
    rw [readChoice] at h
    split at h
    next => exact absurd h (by simp)
    next name rest hsplit =>
        cases hheader : splitAt? ['\n'] rest with
        | none =>
            have hnone : splitHeader rest = (rest, []) := by
              rw [splitHeader, hheader]
              rfl
            -- Without a second line there is no field that could be malformed.
            simp [hnone, lines, linesFrom, readFields] at h
        | some parts =>
            obtain ⟨blanks, body⟩ := parts
            have hsome : splitHeader rest = (blanks, body) := by
              rw [splitHeader, hheader]
              rfl
            obtain ⟨rfl, hbreak⟩ := eq_append_of_splitAt?_singleton hheader
            simp only [hsome] at h
            split at h
            next hblanks =>
                split at h
                next line hfields =>
                    exact ⟨name, blanks, body, line, eq_append_of_splitName? hsplit,
                      ⟨(splitName?_eq_some hsplit).1, List.all_eq_true.mp hblanks, hbreak⟩,
                      readFields_eq_error_iff.mp hfields, (Except.error.inj h).symm⟩
                next => exact absurd h (by simp)
                next => exact absurd h (by simp)
            next => exact absurd h (by simp)
  · rintro ⟨name, blanks, body, line, rfl, ⟨hname, hblanks, hbreak⟩, hline, rfl⟩
    have hsplit : splitName? (name ++ (blanks ++ '\n' :: body)) =
        some (name, blanks ++ '\n' :: body) :=
      splitName?_append hname (isNamePart_head?_blanks hblanks (by decide) body)
    have hheader : splitHeader (blanks ++ '\n' :: body) = (blanks, body) := by
      rw [splitHeader, splitAt?_singleton hbreak]
      rfl
    have hall : blanks.all isBlank = true := List.all_eq_true.mpr hblanks
    have hfields : readFields [] (solidLines body) = .error line :=
      readFields_eq_error_iff.mpr hline
    rw [solidLines] at hfields
    simp only [readChoice, hsplit, hheader, hall, if_true, hfields]

theorem afterKeyword?_append (word : List Char) {blanks rest : List Char}
    (hblanks : ∀ c ∈ blanks, isBlank c = true) (hne : blanks ≠ [])
    (hrest : ∀ c ∈ rest.head?, isBlank c = false) :
    afterKeyword? word (word ++ (blanks ++ rest)) = some rest := by
  have hlength : rest.length < (blanks ++ rest).length := by
    rw [List.length_append]
    have hpos := List.length_pos_iff.mpr hne
    omega
  simp only [afterKeyword?, after?_append, trimLeft_append hblanks hrest, if_pos hlength]

theorem exists_blanks_of_afterKeyword? {word cs rest : List Char}
    (h : afterKeyword? word cs = some rest) :
    ∃ blanks, (∀ c ∈ blanks, isBlank c = true) ∧ blanks ≠ [] ∧ cs = word ++ (blanks ++ rest) := by
  rw [afterKeyword?] at h
  split at h
  next tail htail =>
      obtain ⟨blanks, hblanks, heq⟩ := exists_blanks_append_trimLeft tail
      dsimp only at h
      split at h
      next hlength =>
          obtain rfl := Option.some.inj h
          refine ⟨blanks, hblanks, ?_, by rw [← heq, eq_append_of_after? htail]⟩
          rintro rfl
          rw [← List.nil_append (trimLeft tail), ← heq] at hlength
          exact Nat.lt_irrefl _ hlength
      next => exact absurd h (by simp)
  next => exact absurd h (by simp)

theorem readKind_eq_error {span : Span} {cs : List Char} {e : DirectiveError}
    (h : readKind span cs = .error e) :
    ∃ rest, afterKeyword? "adt".toList cs = some rest ∧ readChoice span rest = .error e := by
  rw [readKind] at h
  split at h
  next => exact absurd h (by simp)
  next =>
      split at h
      next => exact absurd h (by simp)
      next =>
          split at h
          next rest hrest => exact ⟨rest, hrest, h⟩
          next => exact absurd h (by simp)

theorem readKind_adt {rest : List Char} (span : Span) (tail : List Char)
    (h : afterKeyword? "adt".toList ("adt".toList ++ tail) = some rest) :
    readKind span ("adt".toList ++ tail) = readChoice span rest := by
  have htype : afterKeyword? "type".toList ("adt".toList ++ tail) = none := rfl
  have hinstance : afterKeyword? "instance".toList ("adt".toList ++ tail) = none := rfl
  simp only [readKind, htype, hinstance, h]

/-- Reading a directive fails on a malformed choice, which the error tells about, and on no other
text. -/
theorem read_eq_error_iff {text : List Char} {span : Span} {e : DirectiveError} :
    read text span = .error e ↔
      ∃ name line, MalformedChoice text name line ∧
        e = .malformedField (String.ofList name) (String.ofList line) span := by
  constructor
  · intro h
    rw [read] at h
    split at h
    next => exact absurd h (by simp)
    next rest hrest =>
        split at h
        next e' hkind =>
            obtain rfl := Except.error.inj h
            obtain ⟨tail, htail, hchoice⟩ := readKind_eq_error hkind
            obtain ⟨name, blanks₄, body, line, rfl, ⟨hname, hblanks₄, hbreak⟩, hline, rfl⟩ :=
              readChoice_eq_error_iff.mp hchoice
            obtain ⟨blanks₁, hblanks₁, htext⟩ := exists_blanks_append_trimLeft text
            obtain ⟨blanks₂, hblanks₂, hbody⟩ := exists_blanks_append_trimLeft rest
            obtain ⟨blanks₃, hblanks₃, hne, heq⟩ := exists_blanks_of_afterKeyword? htail
            rw [eq_append_of_after? hrest, hbody, heq] at htext
            refine ⟨name, line, ⟨blanks₁, blanks₂, blanks₃, blanks₄, body, htext, ?_, hne, hbreak,
              hname, hline⟩, rfl⟩
            simp only [List.mem_append]
            rintro c (((hc | hc) | hc) | hc)
            · exact hblanks₁ c hc
            · exact hblanks₂ c hc
            · exact hblanks₃ c hc
            · exact hblanks₄ c hc
        next => exact absurd h (by simp)
  · rintro ⟨name, line, ⟨blanks₁, blanks₂, blanks₃, blanks₄, body, rfl, hblanks, hne, hbreak,
      hname, hline⟩, rfl⟩
    simp only [List.mem_append, or_imp, forall_and] at hblanks
    obtain ⟨⟨⟨hblanks₁, hblanks₂⟩, hblanks₃⟩, hblanks₄⟩ := hblanks
    have hstart : ∀ c ∈ (name ++ (blanks₄ ++ '\n' :: body)).head?, isBlank c = false := by
      obtain ⟨c, cs, heq, hc, -⟩ := hname
      obtain rfl := String.ofList_injective heq
      intro d hd
      obtain rfl := Option.some.inj hd
      exact isBlank_of_isNamePart (isNamePart_of_isNameStart hc)
    have hkeyword := afterKeyword?_append "adt".toList hblanks₃ hne hstart
    have hmarker : ∀ tail : List Char, trimLeft (blanks₁ ++ (marker ++ tail)) = marker ++ tail :=
      fun tail => trimLeft_append hblanks₁ fun c hc => Option.some.inj hc ▸ rfl
    have hadt : ∀ tail : List Char, trimLeft (blanks₂ ++ ("adt".toList ++ tail)) =
        "adt".toList ++ tail :=
      fun tail => trimLeft_append hblanks₂ fun c hc => Option.some.inj hc ▸ rfl
    have hchoice : readChoice span (name ++ (blanks₄ ++ '\n' :: body)) = .error
        (.malformedField (String.ofList name) (String.ofList line) span) :=
      readChoice_eq_error_iff.mpr
        ⟨name, blanks₄, body, line, rfl, ⟨hname, hblanks₄, hbreak⟩, hline, rfl⟩
    rw [read, hmarker, after?_append]
    dsimp only
    rw [hadt, readKind_adt span _ hkeyword, hchoice]

end Directive

end Contracts
