import Contracts.Proofs.Json.Reading

/-!
# Stepping over values

A value of which nothing is kept is stepped over up to its end and no further
(`JsonReader.reads_skipValue`). The proof goes along the rules of the grammar. What is
left behind a value is given with it, because a number ends only where no other digit,
point or exponent follows; within a list or an object it is a blank, a comma or a closing
bracket that does.

The reader makes one step for each value and one for each element or member, so that twice
as many steps as there are characters are enough for any nesting.
-/

namespace Contracts

namespace JsonReader

open Json

variable {rest : List Char}

section Strings

theorem reads_skipEscape {text : List Char} (h : IsPiece ('\\' :: text)) :
    Reads skipEscape (text ++ rest) () rest := by
  generalize htext : '\\' :: text = piece at h
  cases h with
  | plain hplain => exact absurd (List.cons.inj htext).1.symm hplain.ne_backslash
  | @short letter c hshort =>
      obtain ⟨hu, hsimple⟩ := simpleEscape?_eq hshort
      obtain rfl : text = [letter] := by simpa using htext
      refine reads_next.bind ?_
      split
      next heq => exact absurd heq (by simp)
      next heq => exact absurd (Option.some.inj heq) hu
      next letter' _ heq =>
          obtain rfl := Option.some.inj heq
          rw [hsimple]
          exact reads_pure ()
  | digits hquad =>
      obtain rfl := (List.cons.inj htext).2
      exact reads_next.bind ((reads_fourDigits hquad).bind (reads_pure ()))

/-- A piece of a string is a character that stands for itself, or it starts with a backslash. -/
theorem isPiece_cases {piece : List Char} (h : IsPiece piece) :
    (∃ c, piece = [c] ∧ IsPlain c) ∨ ∃ text, piece = '\\' :: text := by
  cases h with
  | plain hplain => exact .inl ⟨_, rfl, hplain⟩
  | short => exact .inr ⟨_, rfl⟩
  | digits => exact .inr ⟨_, rfl⟩

theorem reads_skipStringWithin {pieces : List (List Char)} {n : Nat}
    (h : ∀ p ∈ pieces, IsPiece p) (hn : pieces.length < n) :
    Reads (skipStringWithin n) (pieces.flatten ++ '"' :: rest) () rest := by
  induction pieces generalizing n with
  | nil =>
      obtain ⟨n, rfl⟩ := Nat.exists_eq_add_one_of_ne_zero (Nat.ne_of_gt hn)
      exact reads_peek.bind reads_take
  | cons piece pieces ih =>
      obtain ⟨n, rfl⟩ := Nat.exists_eq_add_one_of_ne_zero (Nat.ne_of_gt (Nat.zero_lt_of_lt hn))
      rw [List.forall_mem_cons] at h
      have hrest := ih (n := n) h.2 (by simpa using hn)
      rw [List.flatten_cons, List.append_assoc]
      obtain ⟨c, rfl, hplain⟩ | ⟨text, rfl⟩ := isPiece_cases h.1
      · refine reads_peek.bind ?_
        dsimp only [List.singleton_append, List.head?_cons]
        rw [if_neg hplain.ne_quote, if_neg hplain.ne_backslash,
          if_neg (Nat.not_lt.mpr hplain.not_control)]
        exact reads_take.bind hrest
      · exact reads_peek.bind (reads_take.bind ((reads_skipEscape h.1).bind hrest))

theorem reads_skipString {text : List Char} (h : IsString ('"' :: text)) :
    Reads skipString (text ++ rest) () rest := by
  obtain ⟨pieces, hpieces, htext⟩ := h
  obtain rfl : text = pieces.flatten ++ ['"'] := (List.cons.inj htext).2
  have hlength : pieces.length ≤ pieces.flatten.length := by
    refine length_le_length_flatten fun piece hpiece => ?_
    obtain ⟨c, rfl, -⟩ | ⟨text, rfl⟩ := isPiece_cases (hpieces piece hpiece) <;> simp
  refine reads_get fun c hc => ?_
  have hn : pieces.length < c.rest.length + 1 := by
    rw [hc, List.length_append, List.length_append]
    omega
  rw [List.append_assoc]
  exact reads_skipStringWithin hpieces hn

end Strings

section Numbers

/-- No number goes on in this text. -/
def EndsNumber (rest : List Char) : Prop :=
  ∀ c ∈ rest.head?, c.isDigit = false ∧ c ≠ '.' ∧ isExponentMark c = false

theorem EndsNumber.not_isDigit (h : EndsNumber rest) : ∀ c ∈ rest.head?, c.isDigit = false :=
  fun c hc => (h c hc).1

theorem not_isDigit_exponent {exponent : List Char} (h : IsExponent exponent)
    (hrest : EndsNumber rest) : ∀ c ∈ (exponent ++ rest).head?, c.isDigit = false := by
  cases h with
  | none => exact hrest.not_isDigit
  | digits hmark =>
      intro c hc
      obtain rfl := Option.some.inj hc
      rcases hmark with rfl | rfl <;> rfl

theorem not_isDigit_fraction {fraction : List Char} (h : IsFraction fraction) {text : List Char}
    (htext : ∀ c ∈ text.head?, c.isDigit = false) :
    ∀ c ∈ (fraction ++ text).head?, c.isDigit = false := by
  cases h with
  | none => exact htext
  | digits =>
      intro c hc
      obtain rfl := Option.some.inj hc
      rfl

theorem reads_skipExponent {mark : Char} {sign ds : List Char}
    (hsign : sign = [] ∨ sign = ['+'] ∨ sign = ['-']) (hne : ds ≠ []) (hds : IsDigits ds)
    (hrest : EndsNumber rest) :
    Reads skipExponent (mark :: (sign ++ ds) ++ rest) () rest := by
  obtain ⟨d, ds, rfl⟩ := List.exists_cons_of_ne_nil hne
  have hd : d.isDigit = true := hds d List.mem_cons_self
  have hdigits (k : Option Char → JsonReader Unit) (hk : k (some d) = takeWhile Char.isDigit) :
      Reads (next >>= k) (d :: ds ++ rest) () rest := by
    refine reads_next.bind ?_
    rw [hk]
    exact reads_takeWhile (fun c hc => hds c (List.mem_cons_of_mem _ hc)) hrest.not_isDigit
  rw [List.cons_append, List.append_assoc]
  refine reads_take.bind (reads_peek.bind ?_)
  rcases hsign with rfl | rfl | rfl
  · have hsign : Option.any (fun c => c == '+' || c == '-') (some d) = false := by
      rw [Option.any_some, Bool.or_eq_false_iff, beq_eq_false_iff_ne, beq_eq_false_iff_ne]
      constructor
      · rintro rfl
        exact absurd hd (by decide)
      · rintro rfl
        exact absurd hd (by decide)
    rw [List.nil_append, List.cons_append, List.head?_cons, hsign]
    exact hdigits _ (if_pos hd)
  · exact reads_take.bind (hdigits _ (if_pos hd))
  · exact reads_take.bind (hdigits _ (if_pos hd))

theorem reads_isAtDigit {cs : List Char} : Reads isAtDigit cs (cs.head?.any Char.isDigit) cs :=
  reads_peek.bind (reads_pure _)

/-- The exponent of a number is stepped over if there is one. -/
theorem reads_exponent {exponent : List Char} (h : IsExponent exponent) (hrest : EndsNumber rest) :
    Reads (if (exponent ++ rest).head?.any isExponentMark then skipExponent else pure ())
      (exponent ++ rest) () rest := by
  cases h with
  | none =>
      have hmark : Option.any isExponentMark rest.head? = false := by
        cases hhead : rest.head? with
        | none => rfl
        | some c => exact (hrest c hhead).2.2
      rw [List.nil_append, hmark]
      exact reads_pure ()
  | @digits mark sign ds hmark hsign hne hds =>
      have hexponent : isExponentMark mark = true := by
        rcases hmark with rfl | rfl <;> rfl
      rw [List.cons_append, List.head?_cons, Option.any_some, if_pos hexponent]
      exact reads_skipExponent hsign hne hds hrest

theorem reads_skipFraction {ds exponent : List Char} (hne : ds ≠ []) (hds : IsDigits ds)
    (hexponent : IsExponent exponent) (hrest : EndsNumber rest) :
    Reads skipFraction ('.' :: (ds ++ (exponent ++ rest))) () rest := by
  obtain ⟨d, ds, rfl⟩ := List.exists_cons_of_ne_nil hne
  refine reads_take.bind (reads_isAtDigit.bind ?_)
  rw [List.cons_append, List.head?_cons, Option.any_some, if_pos (hds d List.mem_cons_self)]
  refine (reads_takeWhile hds (not_isDigit_exponent hexponent hrest)).bind ?_
  exact reads_peek.bind (reads_exponent hexponent hrest)

/-- What follows the whole digits of a number. -/
theorem reads_fraction {fraction exponent : List Char} (hfraction : IsFraction fraction)
    (hexponent : IsExponent exponent) (hrest : EndsNumber rest) :
    Reads (do
      match ← peek with
      | some '.' => skipFraction
      | some d => if isExponentMark d then skipExponent
      | none => return ()) (fraction ++ (exponent ++ rest)) () rest := by
  cases hfraction with
  | digits hne hds => exact reads_peek.bind (reads_skipFraction hne hds hexponent hrest)
  | none =>
      have hexp := reads_exponent hexponent hrest
      have hpoint : (exponent ++ rest).head? ≠ some '.' := by
        cases hexponent with
        | none => exact fun hhead => (hrest '.' hhead).2.1 rfl
        | digits hmark =>
            intro hhead
            obtain rfl := Option.some.inj hhead
            rcases hmark with hmark | hmark <;> exact absurd hmark (by decide)
      rw [List.nil_append]
      refine reads_peek.bind ?_
      generalize (exponent ++ rest).head? = head at hexp hpoint ⊢
      split
      next => exact absurd rfl hpoint
      next => exact hexp
      next => exact hexp

theorem reads_skipNumber {whole fraction exponent : List Char} (hwhole : IsWhole whole)
    (hfraction : IsFraction fraction) (hexponent : IsExponent exponent) (hrest : EndsNumber rest) :
    Reads skipNumber (whole ++ (fraction ++ (exponent ++ rest))) () rest := by
  have hbehind := not_isDigit_fraction hfraction (not_isDigit_exponent hexponent hrest)
  have htail := reads_fraction hfraction hexponent hrest
  cases hwhole with
  | zero =>
      have hdigit : Option.any Char.isDigit (fraction ++ (exponent ++ rest)).head? = false := by
        cases hhead : (fraction ++ (exponent ++ rest)).head? with
        | none => rfl
        | some c => exact hbehind c hhead
      refine reads_next.bind (reads_isAtDigit.bind ?_)
      change Reads (if Option.any Char.isDigit (fraction ++ (exponent ++ rest)).head? = true then _
        else _) _ _ _
      rw [hdigit]
      exact htail
  | @digits d ds hzero hds =>
      refine reads_next.bind ?_
      dsimp only
      rw [if_neg hzero, if_pos (hds d List.mem_cons_self)]
      exact (reads_takeWhile (fun c hc => hds c (List.mem_cons_of_mem _ hc)) hbehind).bind htail

end Numbers

section Values

theorem endsNumber_blanks {blanks : List Char} (hblanks : IsBlanks blanks) {mark : Char}
    (hmark : mark = ',' ∨ mark = ']' ∨ mark = '\x7d') : EndsNumber (blanks ++ mark :: rest) := by
  intro c hc
  cases blanks with
  | nil =>
      obtain rfl := Option.some.inj hc
      rcases hmark with rfl | rfl | rfl <;> decide
  | cons blank blanks =>
      obtain rfl := Option.some.inj hc
      rcases hblanks _ List.mem_cons_self with rfl | rfl | rfl | rfl <;> decide

theorem isBlank_of_isDigit {d : Char} (h : d.isDigit = true) : isBlank d = false := by
  by_contra hblank
  simp only [isBlank, Bool.not_eq_false, Bool.or_eq_true, beq_iff_eq] at hblank
  rcases hblank with ((rfl | rfl) | rfl) | rfl <;> exact absurd h (by decide)

theorem exists_digit_of_whole {whole : List Char} (h : IsWhole whole) :
    ∃ d ds, whole = d :: ds ∧ d.isDigit = true := by
  cases h with
  | zero => exact ⟨_, _, rfl, rfl⟩
  | digits _ hds => exact ⟨_, _, rfl, hds _ List.mem_cons_self⟩

/-- A value starts with a character that is neither a blank nor a closing bracket. -/
theorem exists_head_of_value {cs : List Char} (h : Derives .value cs) :
    ∃ c cs', cs = c :: cs' ∧ isBlank c = false ∧ c ≠ ']' := by
  generalize hpart : Part.value = part at h
  cases h with
  | null => exact ⟨_, _, rfl, by decide⟩
  | true => exact ⟨_, _, rfl, by decide⟩
  | false => exact ⟨_, _, rfl, by decide⟩
  | string h =>
      obtain ⟨pieces, -, rfl⟩ := h
      exact ⟨_, _, rfl, by decide⟩
  | emptyList => exact ⟨_, _, rfl, by decide⟩
  | list => exact ⟨_, _, rfl, by decide⟩
  | emptyObject => exact ⟨_, _, rfl, by decide⟩
  | object => exact ⟨_, _, rfl, by decide⟩
  | number h =>
      obtain ⟨sign, whole, fraction, exponent, hsign, hwhole, -, -, rfl⟩ := h
      obtain ⟨d, ds, rfl, hd⟩ := exists_digit_of_whole hwhole
      rcases hsign with rfl | rfl
      · refine ⟨_, _, rfl, isBlank_of_isDigit hd, ?_⟩
        rintro rfl
        exact absurd hd (by decide)
      · exact ⟨_, _, rfl, by decide⟩
  | _ => cases hpart

theorem reads_skipKey {blanks key before : List Char} (hblanks : IsBlanks blanks)
    (hkey : IsString key) (hbefore : IsBlanks before) :
    Reads skipKey (blanks ++ (key ++ (before ++ ':' :: rest))) () rest := by
  obtain ⟨pieces, hpieces, rfl⟩ := hkey
  refine (reads_peekAfterBlanks_cons hblanks rfl).bind ?_
  refine reads_take.bind ((reads_skipString ⟨pieces, hpieces, rfl⟩).bind ?_)
  exact (reads_peekAfterBlanks_cons hbefore rfl).bind reads_take

/-- What is derived is stepped over, whatever blanks stand in front of it. The elements of a list
are stepped over together with its closing bracket, and so are the members of an object. -/
def Stepped : Part → List Char → Prop
  | .value, cs => ∀ (n : Nat) (blanks rest : List Char), 2 * cs.length ≤ n → IsBlanks blanks →
      EndsNumber rest → Reads (skipWithin n .value) (blanks ++ (cs ++ rest)) () rest
  | .elements, cs => ∀ (n : Nat) (blanks rest : List Char), 2 * cs.length + 2 ≤ n →
      IsBlanks blanks →
        Reads (do skipWithin n .value; skipWithin n (.elements false))
          (blanks ++ (cs ++ ']' :: rest)) () rest
  | .members, cs => ∀ (n : Nat) (blanks rest : List Char), 2 * cs.length + 2 ≤ n →
      IsBlanks blanks →
        Reads (do skipKey; skipWithin n .value; skipWithin n (.members false))
          (blanks ++ (cs ++ '\x7d' :: rest)) () rest

/-- A value that starts with a digit is a number, as no other value starts with one. -/
theorem reads_skipWithin_digit {blanks cs : List Char} {d : Char} (hd : d.isDigit = true)
    (hblanks : IsBlanks blanks) (h : Reads skipNumber (d :: cs) () rest) (n : Nat) :
    Reads (skipWithin (n + 1) .value) (blanks ++ d :: cs) () rest := by
  refine (reads_peekAfterBlanks_cons hblanks (isBlank_of_isDigit hd)).bind ?_
  split
  next heq => exact absurd heq (by simp)
  next heq => exact absurd hd (by rw [Option.some.inj heq]; decide)
  next heq => exact absurd hd (by rw [Option.some.inj heq]; decide)
  next heq => exact absurd hd (by rw [Option.some.inj heq]; decide)
  next heq => exact absurd hd (by rw [Option.some.inj heq]; decide)
  next heq => exact absurd hd (by rw [Option.some.inj heq]; decide)
  next heq => exact absurd hd (by rw [Option.some.inj heq]; decide)
  next heq => exact absurd hd (by rw [Option.some.inj heq]; decide)
  next heq =>
      obtain rfl := Option.some.inj heq
      rw [if_pos hd]
      exact h

theorem stepped_number {cs : List Char} (h : IsNumber cs) : Stepped .value cs := by
  intro n blanks rest hn hblanks hrest
  obtain ⟨sign, whole, fraction, exponent, hsign, hwhole, hfraction, hexponent, rfl⟩ := h
  have hnumber := reads_skipNumber hwhole hfraction hexponent hrest
  obtain ⟨d, ds, rfl, hd⟩ := exists_digit_of_whole hwhole
  simp only [List.length_cons, List.length_append] at hn
  obtain ⟨n, rfl⟩ : ∃ m, n = m + 1 := Nat.exists_eq_add_one_of_ne_zero (by omega)
  simp only [List.cons_append, List.append_assoc] at hnumber ⊢
  rcases hsign with rfl | rfl
  · exact reads_skipWithin_digit hd hblanks hnumber n
  · exact (reads_peekAfterBlanks_cons hblanks rfl).bind (reads_take.bind hnumber)

theorem stepped_string {cs : List Char} (h : IsString cs) : Stepped .value cs := by
  intro n blanks rest hn hblanks _
  obtain ⟨pieces, hpieces, rfl⟩ := h
  simp only [List.length_cons, List.length_append] at hn
  obtain ⟨n, rfl⟩ : ∃ m, n = m + 1 := Nat.exists_eq_add_one_of_ne_zero (by omega)
  refine (reads_peekAfterBlanks_cons hblanks rfl).bind (reads_take.bind ?_)
  exact reads_skipString ⟨pieces, hpieces, rfl⟩

/-- Behind an element there is the end of the list. -/
theorem reads_endElements {behind : List Char} (hbehind : IsBlanks behind) (n : Nat)
    (isFirst : Bool) :
    Reads (skipWithin (n + 1) (.elements isFirst)) (behind ++ ']' :: rest) () rest :=
  (reads_peekAfterBlanks_cons hbehind rfl).bind reads_take

theorem reads_endMembers {behind : List Char} (hbehind : IsBlanks behind) (n : Nat)
    (isFirst : Bool) :
    Reads (skipWithin (n + 1) (.members isFirst)) (behind ++ '\x7d' :: rest) () rest :=
  (reads_peekAfterBlanks_cons hbehind rfl).bind reads_take

/-- The elements of a list start like a value. -/
theorem exists_head_of_elements {cs : List Char} (h : Derives .elements cs) :
    ∃ c cs', cs = c :: cs' ∧ isBlank c = false ∧ c ≠ ']' := by
  generalize hpart : Part.elements = part at h
  cases h with
  | lastElement hvalue =>
      obtain ⟨c, value, rfl, hc⟩ := exists_head_of_value hvalue
      exact ⟨c, _, rfl, hc⟩
  | element hvalue =>
      obtain ⟨c, value, rfl, hc⟩ := exists_head_of_value hvalue
      exact ⟨c, _, rfl, hc⟩
  | _ => cases hpart

theorem exists_quote_of_members {cs : List Char} (h : Derives .members cs) :
    ∃ cs', cs = '"' :: cs' := by
  generalize hpart : Part.members = part at h
  cases h with
  | lastMember hkey =>
      obtain ⟨pieces, -, rfl⟩ := hkey
      exact ⟨_, rfl⟩
  | member hkey =>
      obtain ⟨pieces, -, rfl⟩ := hkey
      exact ⟨_, rfl⟩
  | _ => cases hpart

theorem stepped_list {blanks cs : List Char} (hblanks : IsBlanks blanks)
    (h : Derives .elements cs) (ih : Stepped .elements cs) :
    Stepped .value ('[' :: (blanks ++ (cs ++ [']']))) := by
  intro n before rest hn hbefore _
  simp only [List.length_cons, List.length_append] at hn
  obtain ⟨n, rfl⟩ : ∃ m, n = m + 2 := Nat.exists_eq_add_of_le' (by omega)
  have hcs := ih n [] rest (by omega) isBlanks_nil
  obtain ⟨c, cs, rfl, hblank, hend⟩ := exists_head_of_elements h
  simp only [List.cons_append, List.append_assoc, List.nil_append] at hcs ⊢
  refine (reads_peekAfterBlanks_cons hbefore rfl).bind (reads_take.bind ?_)
  refine (reads_peekAfterBlanks_cons hblanks hblank).bind ?_
  split
  next heq => exact absurd heq (by simp)
  next heq => exact absurd (Option.some.inj heq) hend
  next => exact hcs

theorem stepped_object {blanks cs : List Char} (hblanks : IsBlanks blanks)
    (h : Derives .members cs) (ih : Stepped .members cs) :
    Stepped .value ('\x7b' :: (blanks ++ (cs ++ ['\x7d']))) := by
  intro n before rest hn hbefore _
  simp only [List.length_cons, List.length_append] at hn
  obtain ⟨n, rfl⟩ : ∃ m, n = m + 2 := Nat.exists_eq_add_of_le' (by omega)
  have hcs := ih n [] rest (by omega) isBlanks_nil
  obtain ⟨cs, rfl⟩ := exists_quote_of_members h
  simp only [List.cons_append, List.append_assoc, List.nil_append] at hcs ⊢
  refine (reads_peekAfterBlanks_cons hbefore rfl).bind (reads_take.bind ?_)
  exact (reads_peekAfterBlanks_cons hblanks rfl).bind hcs

/-- Everything that is derived is stepped over. -/
theorem stepped_of_derives {part : Part} {cs : List Char} (h : Derives part cs) :
    Stepped part cs := by
  induction h with
  | null =>
      intro n blanks rest hn hblanks _
      obtain ⟨n, rfl⟩ := Nat.exists_eq_add_of_le' hn
      exact (reads_peekAfterBlanks_cons hblanks rfl).bind (reads_take.bind (reads_word _))
  | true =>
      intro n blanks rest hn hblanks _
      obtain ⟨n, rfl⟩ := Nat.exists_eq_add_of_le' hn
      exact (reads_peekAfterBlanks_cons hblanks rfl).bind (reads_take.bind (reads_word _))
  | false =>
      intro n blanks rest hn hblanks _
      obtain ⟨n, rfl⟩ := Nat.exists_eq_add_of_le' hn
      exact (reads_peekAfterBlanks_cons hblanks rfl).bind (reads_take.bind (reads_word _))
  | number h => exact stepped_number h
  | string h => exact stepped_string h
  | emptyList hblanks =>
      intro n before rest hn hbefore _
      simp only [List.length_cons, List.length_append] at hn
      obtain ⟨n, rfl⟩ : ∃ m, n = m + 2 := Nat.exists_eq_add_of_le' (by omega)
      rw [List.cons_append, List.append_assoc]
      refine (reads_peekAfterBlanks_cons hbefore rfl).bind (reads_take.bind ?_)
      exact reads_endElements hblanks n true
  | list hblanks h ih => exact stepped_list hblanks h ih
  | emptyObject hblanks =>
      intro n before rest hn hbefore _
      simp only [List.length_cons, List.length_append] at hn
      obtain ⟨n, rfl⟩ : ∃ m, n = m + 2 := Nat.exists_eq_add_of_le' (by omega)
      rw [List.cons_append, List.append_assoc]
      refine (reads_peekAfterBlanks_cons hbefore rfl).bind (reads_take.bind ?_)
      exact reads_endMembers hblanks n true
  | object hblanks h ih => exact stepped_object hblanks h ih
  -- Behind an element or member one step looks for a comma or for the closing bracket.
  | lastElement _ hbehind ih =>
      intro n blanks rest hn hblanks
      rw [List.length_append] at hn
      obtain ⟨n, rfl⟩ : ∃ m, n = m + 1 := Nat.exists_eq_add_one_of_ne_zero (by omega)
      rw [List.append_assoc]
      refine (ih _ _ _ (by omega) hblanks (endsNumber_blanks hbehind (by simp))).bind ?_
      exact reads_endElements hbehind n false
  | element _ hbehind hinner _ ihvalue ih =>
      intro n blanks rest hn hblanks
      simp only [List.length_cons, List.length_append] at hn
      obtain ⟨n, rfl⟩ : ∃ m, n = m + 1 := Nat.exists_eq_add_one_of_ne_zero (by omega)
      have hlater := ih n _ rest (by omega) hinner
      simp only [List.append_assoc, List.cons_append]
      refine (ihvalue _ _ _ (by omega) hblanks
        (endsNumber_blanks hbehind (by simp))).bind ?_
      exact (reads_peekAfterBlanks_cons hbehind rfl).bind (reads_take.bind hlater)
  | lastMember hkey hbefore hafter _ hbehind ih =>
      intro n blanks rest hn hblanks
      simp only [List.length_cons, List.length_append] at hn
      obtain ⟨n, rfl⟩ : ∃ m, n = m + 1 := Nat.exists_eq_add_one_of_ne_zero (by omega)
      simp only [List.append_assoc, List.cons_append]
      refine (reads_skipKey hblanks hkey hbefore).bind ?_
      refine (ih _ _ _ (by omega) hafter (endsNumber_blanks hbehind (by simp))).bind ?_
      exact reads_endMembers hbehind n false
  | member hkey hbefore hafter _ hbehind hinner _ ihvalue ih =>
      intro n blanks rest hn hblanks
      simp only [List.length_cons, List.length_append] at hn
      obtain ⟨n, rfl⟩ : ∃ m, n = m + 1 := Nat.exists_eq_add_one_of_ne_zero (by omega)
      have hlater := ih n _ rest (by omega) hinner
      simp only [List.append_assoc, List.cons_append]
      refine (reads_skipKey hblanks hkey hbefore).bind ?_
      refine (ihvalue _ _ _ (by omega) hafter
        (endsNumber_blanks hbehind (by simp))).bind ?_
      exact (reads_peekAfterBlanks_cons hbehind rfl).bind (reads_take.bind hlater)

/-- A value is stepped over up to its end. -/
theorem reads_skipValue {blanks cs : List Char} (h : Derives .value cs) (hblanks : IsBlanks blanks)
    (hrest : EndsNumber rest) : Reads skipValue (blanks ++ (cs ++ rest)) () rest := by
  refine reads_get fun c hc => stepped_of_derives h _ _ _ ?_ hblanks hrest
  rw [hc, List.length_append, List.length_append]
  omega

end Values

end JsonReader

end Contracts
