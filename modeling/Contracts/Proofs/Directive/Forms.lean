import Contracts.Proofs.Directive.Malformed

/-!
# The forms of directives

All directives open in the same way: the marker, a word that names the form, and at
least one blank. An `Opening` holds the blanks of this part, and what follows is a
form of its own for each word: the equation of a synonym (`Equation`), the name of a
constructor function that stands alone (`LoneName`), or a name with fields below it
(`Listing`).

The parts carry what makes them well formed, so that a form is read just if its
parts can be told apart in the text. They can be told apart in one way only, because
each part ends where a character comes that it cannot have
(`Text.eq_of_append_eq_append`).
-/

namespace Contracts

namespace Directive

open Text

/-- How a directive opens: the blanks in front of the marker, behind it, and behind the word that
names the form. -/
@[ext]
structure Opening where
  outer : List Char
  inner : List Char
  behind : List Char
  outer_blank : ∀ c ∈ outer, isBlank c = true
  inner_blank : ∀ c ∈ inner, isBlank c = true
  behind_blank : ∀ c ∈ behind, isBlank c = true
  behind_ne_nil : behind ≠ []

/-- The text that opens with the marker and `word` and goes on with `rest`. -/
def Opening.text (o : Opening) (word rest : List Char) : List Char :=
  o.outer ++ (marker ++ (o.inner ++ (word ++ (o.behind ++ rest))))

/-- The words that name the forms. -/
def formWords : List (List Char) :=
  ["type".toList, "instance".toList, "adt".toList]

/-- The text does not start with a blank. -/
def IsPastBlanks (rest : List Char) : Prop :=
  ∀ c ∈ rest.head?, isBlank c = false

theorem isPastBlanks_word {word : List Char} (hword : word ∈ formWords) (rest : List Char) :
    IsPastBlanks (word ++ rest) := by
  intro c hc
  simp only [formWords, List.mem_cons, List.not_mem_nil, or_false] at hword
  rcases hword with rfl | rfl | rfl <;> exact Option.some.inj hc ▸ rfl

theorem isPastBlanks_marker (rest : List Char) : IsPastBlanks (marker ++ rest) :=
  fun _ hc => Option.some.inj hc ▸ rfl

theorem isPastBlanks_name {name : List Char} (hname : IsName (String.ofList name))
    (rest : List Char) : IsPastBlanks (name ++ rest) := by
  obtain ⟨c, cs, heq, hc, -⟩ := hname
  obtain rfl := String.ofList_injective heq
  intro d hd
  obtain rfl := Option.some.inj hd
  exact isBlank_of_isNamePart (isNamePart_of_isNameStart hc)

/-- A name ends in one place only. -/
theorem eq_of_name_append_eq {name name' rest rest' : List Char}
    (hname : IsName (String.ofList name)) (hname' : IsName (String.ofList name'))
    (hrest : ∀ c ∈ rest.head?, isNamePart c = false)
    (hrest' : ∀ c ∈ rest'.head?, isNamePart c = false) (h : name ++ rest = name' ++ rest') :
    name = name' ∧ rest = rest' := by
  have hsplit := splitName?_append hname hrest
  rw [h, splitName?_append hname' hrest', Option.some.injEq, Prod.mk.injEq] at hsplit
  exact ⟨hsplit.1.symm, hsplit.2.symm⟩

namespace Opening

variable {o o' : Opening} {word word' rest rest' : List Char}

/-- The same text has the same blanks up to the word. -/
theorem word_append_eq (hword : word ∈ formWords) (hword' : word' ∈ formWords)
    (h : o.text word rest = o'.text word' rest') :
    o.outer = o'.outer ∧ o.inner = o'.inner ∧
      word ++ (o.behind ++ rest) = word' ++ (o'.behind ++ rest') := by
  obtain ⟨houter, hmarker⟩ := eq_of_append_eq_append o.outer_blank (isPastBlanks_marker _)
    o'.outer_blank (isPastBlanks_marker _) h
  obtain ⟨hinner, hopen⟩ := eq_of_append_eq_append o.inner_blank (isPastBlanks_word hword _)
    o'.inner_blank (isPastBlanks_word hword' _) (List.append_cancel_left hmarker)
  exact ⟨houter, hinner, hopen⟩

/-- Different words do not open the same text. -/
theorem word_eq (hword : word ∈ formWords) (hword' : word' ∈ formWords)
    (h : o.text word rest = o'.text word' rest') : word = word' := by
  obtain ⟨-, -, hopen⟩ := word_append_eq hword hword' h
  have hfirst := congrArg List.head? hopen
  simp only [formWords, List.mem_cons, List.not_mem_nil, or_false] at hword hword'
  -- The words start with different letters.
  rcases hword with rfl | rfl | rfl <;> rcases hword' with rfl | rfl | rfl <;>
    first
    | rfl
    | exact absurd (Option.some.inj hfirst) (by decide)

/-- A text opens in one way only. -/
theorem text_injective (hword : word ∈ formWords) (hrest : IsPastBlanks rest)
    (hrest' : IsPastBlanks rest') (h : o.text word rest = o'.text word rest') :
    o = o' ∧ rest = rest' := by
  obtain ⟨houter, hinner, hopen⟩ := word_append_eq hword hword h
  obtain ⟨hbehind, hsame⟩ := eq_of_append_eq_append o.behind_blank hrest o'.behind_blank hrest'
    (List.append_cancel_left hopen)
  exact ⟨Opening.ext houter hinner hbehind, hsame⟩

end Opening

section Reading

variable {text : List Char} {span : Span}

theorem read_text (o : Opening) {word : List Char} (hword : word ∈ formWords) (rest : List Char)
    (span : Span) :
    read (o.text word rest) span =
      (readKind span (word ++ (o.behind ++ rest))).map (Option.map (⟨·, span⟩)) := by
  rw [read, Opening.text, trimLeft_append o.outer_blank (isPastBlanks_marker _), after?_append]
  dsimp only
  rw [trimLeft_append o.inner_blank (isPastBlanks_word hword _)]
  cases readKind span (word ++ (o.behind ++ rest)) <;> rfl

theorem afterKeyword?_text (o : Opening) (word : List Char) {rest : List Char}
    (hrest : IsPastBlanks rest) : afterKeyword? word (word ++ (o.behind ++ rest)) = some rest :=
  afterKeyword?_append word o.behind_blank o.behind_ne_nil hrest

theorem read_type (o : Opening) {rest : List Char} (hrest : IsPastBlanks rest) (span : Span) :
    read (o.text "type".toList rest) span = .ok ((readSynonym? rest).map (⟨·, span⟩)) := by
  rw [read_text o (by decide), readKind, afterKeyword?_text o _ hrest]
  rfl

theorem read_instance (o : Opening) {rest : List Char} (hrest : IsPastBlanks rest) (span : Span) :
    read (o.text "instance".toList rest) span = .ok ((readInstances? rest).map (⟨·, span⟩)) := by
  have htype : afterKeyword? "type".toList ("instance".toList ++ (o.behind ++ rest)) = none := rfl
  rw [read_text o (by decide), readKind, htype, afterKeyword?_text o _ hrest]
  rfl

theorem read_adt (o : Opening) {rest : List Char} (hrest : IsPastBlanks rest) (span : Span) :
    read (o.text "adt".toList rest) span =
      (readChoice span rest).map (Option.map (⟨·, span⟩)) := by
  rw [read_text o (by decide), readKind_adt span _ (afterKeyword?_text o _ hrest)]

theorem isPastBlanks_of_afterKeyword? {word cs rest : List Char}
    (h : afterKeyword? word cs = some rest) : IsPastBlanks rest := by
  rw [afterKeyword?] at h
  split at h
  next tail _ =>
      dsimp only at h
      split at h
      next =>
          obtain rfl := Option.some.inj h
          exact fun _ => eq_false_of_mem_head?_dropWhile
      next => exact absurd h (by simp)
  next => exact absurd h (by simp)

/-- A text opens a directive, or nothing is read from it. -/
theorem exists_opening_or_read_eq (text : List Char) (span : Span) :
    (∃ (o : Opening) (word rest : List Char),
        word ∈ formWords ∧ IsPastBlanks rest ∧ text = o.text word rest) ∨
      read text span = .ok none := by
  rw [read]
  split
  next => exact .inr rfl
  next tail htail =>
      obtain ⟨outer, houter, htext⟩ := exists_blanks_append_trimLeft text
      obtain ⟨inner, hinner, hopen⟩ := exists_blanks_append_trimLeft tail
      by_cases hword : ∃ word ∈ formWords, (afterKeyword? word (trimLeft tail)).isSome
      · obtain ⟨word, hword, hsome⟩ := hword
        obtain ⟨rest, hrest⟩ := Option.isSome_iff_exists.mp hsome
        obtain ⟨behind, hbehind, hne, heq⟩ := exists_blanks_of_afterKeyword? hrest
        refine .inl ⟨⟨outer, inner, behind, houter, hinner, hbehind, hne⟩, word, rest, hword, ?_,
          ?_⟩
        · exact isPastBlanks_of_afterKeyword? hrest
        · rw [htext, eq_append_of_after? htail, hopen, heq]
          rfl
      · simp only [formWords, List.mem_cons, List.not_mem_nil, or_false, exists_eq_or_imp,
          exists_eq_left, not_or, Option.not_isSome_iff_eq_none] at hword
        obtain ⟨htype, hinstance, hadt⟩ := hword
        right
        rw [readKind, htype, hinstance, hadt]
        rfl

end Reading

section Synonyms

/-- A name, an equals sign and a definition, with the blanks in between. -/
@[ext]
structure Equation where
  name : List Char
  beforeSign : List Char
  afterSign : List Char
  definition : List Char
  isName : IsName (String.ofList name)
  beforeSign_blank : ∀ c ∈ beforeSign, isBlank c = true
  beforeSign_ne_nil : beforeSign ≠ []
  afterSign_blank : ∀ c ∈ afterSign, (isBlank c && !isLineBreak c) = true
  definition_line : ∀ c ∈ definition, isLineBreak c = false
  definition_start : IsPastBlanks definition

def Equation.text (e : Equation) : List Char :=
  e.name ++ (e.beforeSign ++ '=' :: (e.afterSign ++ e.definition))

namespace Equation

theorem isPastBlanks_sign (rest : List Char) : IsPastBlanks ('=' :: rest) := by
  intro c hc
  obtain rfl := Option.some.inj hc
  decide

variable (e : Equation)

theorem isPastBlanks_text : IsPastBlanks e.text :=
  isPastBlanks_name e.isName _

theorem isNamePart_head? :
    ∀ c ∈ (e.beforeSign ++ '=' :: (e.afterSign ++ e.definition)).head?, isNamePart c = false :=
  isNamePart_head?_blanks e.beforeSign_blank (by decide) _

theorem definition_head? :
    ∀ c ∈ e.definition.head?, (isBlank c && !isLineBreak c) = false := by
  intro c hc
  rw [e.definition_start c hc]
  rfl

variable {e}

theorem text_injective {e' : Equation} (h : e.text = e'.text) : e = e' := by
  obtain ⟨hname, hrest⟩ := eq_of_name_append_eq e.isName e'.isName e.isNamePart_head?
    e'.isNamePart_head? h
  obtain ⟨hbefore, hsign⟩ := eq_of_append_eq_append e.beforeSign_blank (isPastBlanks_sign _)
    e'.beforeSign_blank (isPastBlanks_sign _) hrest
  obtain ⟨hafter, hdefinition⟩ := eq_of_append_eq_append e.afterSign_blank e.definition_head?
    e'.afterSign_blank e'.definition_head? (List.cons.inj hsign).2
  exact Equation.ext hname hbefore hafter hdefinition

end Equation

/-- A synonym is read from an equation, and from nothing else. -/
theorem readSynonym?_eq_some_iff {cs : List Char} {kind : DirectiveKind} :
    readSynonym? cs = some kind ↔
      ∃ e : Equation, e.text = cs ∧
        kind = .synonym (String.ofList e.name) (String.ofList e.definition) := by
  constructor
  · intro h
    rw [readSynonym?, Option.bind_eq_bind, Option.bind_eq_some_iff] at h
    obtain ⟨⟨name, rest⟩, hsplit, h⟩ := h
    obtain ⟨before, hbefore, hrest⟩ := exists_blanks_append_trimLeft rest
    dsimp only at h
    split at h
    next => exact absurd h (by simp)
    next hlength =>
        rw [Option.bind_eq_bind, Option.bind_eq_some_iff] at h
        obtain ⟨tail, htail, h⟩ := h
        split at h
        next => exact absurd h (by simp)
        next hline =>
            have hlines : ∀ c ∈ tail.dropWhile fun c => isBlank c && !isLineBreak c,
                isLineBreak c = false := by
              simpa using hline
            have hblanks : ∀ c ∈ tail.takeWhile fun c => isBlank c && !isLineBreak c,
                (isBlank c && !isLineBreak c) = true := by
              intro c hc
              have hclass := List.mem_takeWhile_imp hc
              exact hclass
            have htext : cs = name ++ (before ++ '=' :: tail) := by
              rw [eq_append_of_splitName? hsplit, hrest, eq_append_of_after? htail]
              rfl
            have hne : before ≠ [] := by
              rintro rfl
              rw [List.nil_append] at hrest
              exact hlength (congrArg List.length hrest.symm)
            refine ⟨⟨name, before, _, _, (splitName?_eq_some hsplit).1, hbefore, hne, hblanks,
              hlines, fun c hc => ?_⟩, ?_, (Option.some.inj h).symm⟩
            · -- What stopped the blanks is no line break, so it is no blank.
              have hstop := eq_false_of_mem_head?_dropWhile hc
              rwa [hlines c (List.mem_of_mem_head? hc), Bool.not_false, Bool.and_true] at hstop
            · rw [Equation.text, List.takeWhile_append_dropWhile]
              exact htext.symm
  · rintro ⟨e, rfl, rfl⟩
    have hsplit : splitName? e.text = _ := splitName?_append e.isName e.isNamePart_head?
    have htrim := trimLeft_append e.beforeSign_blank
      (Equation.isPastBlanks_sign (e.afterSign ++ e.definition))
    have hlength : ('=' :: (e.afterSign ++ e.definition)).length ≠
        (e.beforeSign ++ '=' :: (e.afterSign ++ e.definition)).length := by
      rw [List.length_append]
      have hpos := List.length_pos_iff.mpr e.beforeSign_ne_nil
      omega
    have hdrop := dropWhile_append_of_head? e.afterSign_blank e.definition_head?
    have hline : ¬ e.definition.any isLineBreak = true := by
      simpa using e.definition_line
    have hsign : after? ['='] ('=' :: (e.afterSign ++ e.definition)) =
        some (e.afterSign ++ e.definition) := after?_append ['='] _
    simp only [readSynonym?, hsplit, Option.bind_eq_bind, Option.bind_some, htrim, if_neg hlength,
      hsign, hdrop, if_neg hline]

end Synonyms

section Instances

/-- A name with blanks behind it. -/
@[ext]
structure LoneName where
  name : List Char
  behind : List Char
  isName : IsName (String.ofList name)
  behind_blank : ∀ c ∈ behind, isBlank c = true

def LoneName.text (n : LoneName) : List Char :=
  n.name ++ n.behind

namespace LoneName

variable (n : LoneName)

theorem isPastBlanks_text : IsPastBlanks n.text :=
  isPastBlanks_name n.isName _

theorem isNamePart_head? : ∀ c ∈ n.behind.head?, isNamePart c = false :=
  fun c hc => isNamePart_of_isBlank (n.behind_blank c (List.mem_of_mem_head? hc))

variable {n}

theorem text_injective {n' : LoneName} (h : n.text = n'.text) : n = n' := by
  obtain ⟨hname, hbehind⟩ := eq_of_name_append_eq n.isName n'.isName n.isNamePart_head?
    n'.isNamePart_head? h
  exact LoneName.ext hname hbehind

end LoneName

/-- Instances are read from a name that stands alone, and from nothing else. -/
theorem readInstances?_eq_some_iff {cs : List Char} {kind : DirectiveKind} :
    readInstances? cs = some kind ↔
      ∃ n : LoneName, n.text = cs ∧ kind = .instances (String.ofList n.name) := by
  constructor
  · intro h
    rw [readInstances?, Option.bind_eq_bind, Option.bind_eq_some_iff] at h
    obtain ⟨⟨name, rest⟩, hsplit, h⟩ := h
    dsimp only at h
    split at h
    next hblank =>
        refine ⟨⟨name, rest, (splitName?_eq_some hsplit).1, List.all_eq_true.mp hblank⟩, ?_,
          (Option.some.inj h).symm⟩
        exact (eq_append_of_splitName? hsplit).symm
    next => exact absurd h (by simp)
  · rintro ⟨n, rfl, rfl⟩
    have hsplit : splitName? n.text = _ := splitName?_append n.isName n.isNamePart_head?
    have hblank : n.behind.all isBlank = true := List.all_eq_true.mpr n.behind_blank
    simp only [readInstances?, hsplit, Option.bind_eq_bind, Option.bind_some, if_pos hblank]

end Instances

section Choices

/-- A name, and what comes after its end. -/
structure Listing where
  name : List Char
  rest : List Char
  isName : IsName (String.ofList name)
  rest_start : ∀ c ∈ rest.head?, isNamePart c = false

def Listing.text (l : Listing) : List Char :=
  l.name ++ l.rest

namespace Listing

theorem isPastBlanks_text (l : Listing) : IsPastBlanks l.text :=
  isPastBlanks_name l.isName _

theorem exists_of_splitName? {cs name rest : List Char} (h : splitName? cs = some (name, rest)) :
    ∃ l : Listing, l.text = cs := by
  have hname := (splitName?_eq_some h).1
  have htext := eq_append_of_splitName? h
  cases cs with
  | nil => exact absurd h (by simp [splitName?])
  | cons c cs =>
      rw [splitName?] at h
      split at h
      next =>
          obtain ⟨rfl, rfl⟩ := Prod.mk.inj (Option.some.inj h)
          exact ⟨⟨_, _, hname, fun _ => eq_false_of_mem_head?_dropWhile⟩, htext.symm⟩
      next => exact absurd h (by simp)

end Listing

/-- A choice is read from a listing only. -/
theorem exists_of_readChoice {span : Span} {cs : List Char} {kind : DirectiveKind}
    (h : readChoice span cs = .ok (some kind)) :
    (∃ l : Listing, l.text = cs) ∧ ∃ name fields, kind = .choice name fields := by
  rw [readChoice] at h
  split at h
  next => exact absurd h (by simp)
  next hsplit =>
      refine ⟨Listing.exists_of_splitName? hsplit, ?_⟩
      dsimp only at h
      split at h
      next =>
          split at h
          next => exact absurd h (by simp)
          next => exact absurd h (by simp)
          next fields _ _ => exact ⟨_, fields, (Option.some.inj (Except.ok.inj h)).symm⟩
      next => exact absurd h (by simp)

end Choices

section Exactness

variable {text : List Char} {span : Span}

/-- A directive has its kind from the form that its word names. -/
theorem read_eq_some_cases {d : Directive} (h : read text span = .ok (some d)) :
    d.span = span ∧
      ((∃ (o : Opening) (e : Equation), text = o.text "type".toList e.text ∧
          d.kind = .synonym (String.ofList e.name) (String.ofList e.definition)) ∨
        (∃ (o : Opening) (n : LoneName), text = o.text "instance".toList n.text ∧
          d.kind = .instances (String.ofList n.name)) ∨
        ∃ (o : Opening) (l : Listing), text = o.text "adt".toList l.text ∧
          ∃ name fields, d.kind = .choice name fields) := by
  obtain ⟨o, word, rest, hword, hrest, rfl⟩ | hnone := exists_opening_or_read_eq text span
  · simp only [formWords, List.mem_cons, List.not_mem_nil, or_false] at hword
    rcases hword with rfl | rfl | rfl
    · rw [read_type o hrest, Except.ok.injEq, Option.map_eq_some_iff] at h
      obtain ⟨kind, hkind, rfl⟩ := h
      obtain ⟨e, rfl, rfl⟩ := readSynonym?_eq_some_iff.mp hkind
      exact ⟨rfl, .inl ⟨o, e, rfl, rfl⟩⟩
    · rw [read_instance o hrest, Except.ok.injEq, Option.map_eq_some_iff] at h
      obtain ⟨kind, hkind, rfl⟩ := h
      obtain ⟨n, rfl, rfl⟩ := readInstances?_eq_some_iff.mp hkind
      exact ⟨rfl, .inr (.inl ⟨o, n, rfl, rfl⟩)⟩
    · rw [read_adt o hrest] at h
      cases hchoice : readChoice span rest with
      | error e =>
          rw [hchoice] at h
          exact absurd h (by simp [Except.map])
      | ok found =>
          rw [hchoice] at h
          obtain ⟨kind, rfl, rfl⟩ := Option.map_eq_some_iff.mp (Except.ok.inj h)
          obtain ⟨⟨l, rfl⟩, hkind⟩ := exists_of_readChoice hchoice
          exact ⟨rfl, .inr (.inr ⟨o, l, rfl, hkind⟩)⟩
  · rw [hnone] at h
    exact absurd h (by simp)

theorem read_eq_synonym_iff {name definition : String} {place : Span} :
    read text span = .ok (some ⟨.synonym name definition, place⟩) ↔
      place = span ∧ ∃ (o : Opening) (e : Equation), text = o.text "type".toList e.text ∧
        name = String.ofList e.name ∧ definition = String.ofList e.definition := by
  constructor
  · intro h
    obtain ⟨hplace, ⟨o, e, rfl, hkind⟩ | ⟨o, n, rfl, hkind⟩ | ⟨_, _, -, _, _, hkind⟩⟩ :=
      read_eq_some_cases h
    · exact ⟨hplace, o, e, rfl, DirectiveKind.synonym.inj hkind⟩
    · exact absurd hkind (by simp)
    · exact absurd hkind (by simp)
  · rintro ⟨rfl, o, e, rfl, rfl, rfl⟩
    rw [read_type o e.isPastBlanks_text, readSynonym?_eq_some_iff.mpr ⟨e, rfl, rfl⟩]
    rfl

theorem read_eq_instances_iff {name : String} {place : Span} :
    read text span = .ok (some ⟨.instances name, place⟩) ↔
      place = span ∧ ∃ (o : Opening) (n : LoneName), text = o.text "instance".toList n.text ∧
        name = String.ofList n.name := by
  constructor
  · intro h
    obtain ⟨hplace, ⟨o, e, rfl, hkind⟩ | ⟨o, n, rfl, hkind⟩ | ⟨_, _, -, _, _, hkind⟩⟩ :=
      read_eq_some_cases h
    · exact absurd hkind (by simp)
    · exact ⟨hplace, o, n, rfl, DirectiveKind.instances.inj hkind⟩
    · exact absurd hkind (by simp)
  · rintro ⟨rfl, o, n, rfl, rfl⟩
    rw [read_instance o n.isPastBlanks_text, readInstances?_eq_some_iff.mpr ⟨n, rfl, rfl⟩]
    rfl

/-- Only a listing can fail. -/
theorem exists_listing_of_read_error {e : DirectiveError} (h : read text span = .error e) :
    ∃ (o : Opening) (l : Listing), text = o.text "adt".toList l.text := by
  obtain ⟨name, line, ⟨outer, inner, behind, blanks, body, rfl, hblanks, hne, -, hname, -⟩, -⟩ :=
    read_eq_error_iff.mp h
  simp only [List.mem_append, or_imp, forall_and] at hblanks
  obtain ⟨⟨⟨houter, hinner⟩, hbehind⟩, hheader⟩ := hblanks
  exact ⟨⟨outer, inner, behind, houter, hinner, hbehind, hne⟩,
    ⟨name, blanks ++ '\n' :: body, hname, isNamePart_head?_blanks hheader (by decide) body⟩, rfl⟩

theorem exists_read_eq_ok {o : Opening} {word rest : List Char} (hword : word ∈ formWords)
    (hne : word ≠ "adt".toList) : ∃ found, read (o.text word rest) span = .ok found := by
  cases hread : read (o.text word rest) span with
  | ok found => exact ⟨found, rfl⟩
  | error e =>
      obtain ⟨o', l, htext⟩ := exists_listing_of_read_error hread
      exact absurd (Opening.word_eq hword (by decide) htext) hne

/-- A comment declares a synonym just if it is the marker and the word `type` with an equation, and
instances just if it is the marker and the word `instance` with a name. The parts of such a comment
can be told apart in one way only, the directive stands where the comment stands, and after these
two words reading never fails. -/
theorem read_iff_equation_or_loneName (text : List Char) (span : Span) :
    (∀ name definition place,
      read text span = .ok (some ⟨.synonym name definition, place⟩) ↔
        place = span ∧ ∃ (o : Opening) (e : Equation), text = o.text "type".toList e.text ∧
          name = String.ofList e.name ∧ definition = String.ofList e.definition) ∧
      (∀ name place,
        read text span = .ok (some ⟨.instances name, place⟩) ↔
          place = span ∧ ∃ (o : Opening) (n : LoneName), text = o.text "instance".toList n.text ∧
            name = String.ofList n.name) ∧
      (∀ (o o' : Opening) (e e' : Equation), text = o.text "type".toList e.text →
        text = o'.text "type".toList e'.text → o = o' ∧ e = e') ∧
      (∀ (o o' : Opening) (n n' : LoneName), text = o.text "instance".toList n.text →
        text = o'.text "instance".toList n'.text → o = o' ∧ n = n') ∧
      ∀ (o : Opening) (rest : List Char),
        text = o.text "type".toList rest ∨ text = o.text "instance".toList rest →
          ∃ found, read text span = .ok found := by
  refine ⟨fun _ _ _ => read_eq_synonym_iff, fun _ _ => read_eq_instances_iff, ?_, ?_, ?_⟩
  · rintro o o' e e' rfl h
    obtain ⟨hopening, hrest⟩ := Opening.text_injective (by decide) e.isPastBlanks_text
      e'.isPastBlanks_text h
    exact ⟨hopening, Equation.text_injective hrest⟩
  · rintro o o' n n' rfl h
    obtain ⟨hopening, hrest⟩ := Opening.text_injective (by decide) n.isPastBlanks_text
      n'.isPastBlanks_text h
    exact ⟨hopening, LoneName.text_injective hrest⟩
  · rintro o rest (rfl | rfl)
    · exact exists_read_eq_ok (by decide) (by decide)
    · exact exists_read_eq_ok (by decide) (by decide)

-- The definition may be empty, but it may not start on the next line.
example : read "typify: type A\n= ".toList ⟨1, 5⟩ = .ok (some ⟨.synonym "A" "", ⟨1, 5⟩⟩) := by
  decide

example : read "typify: type A =\nB".toList ⟨1, 5⟩ = .ok none := by
  decide

end Exactness

end Directive

end Contracts
