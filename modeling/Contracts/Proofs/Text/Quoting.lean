import Contracts.Text.Quoted
import Mathlib.Data.List.Basic

/-!
# What the string literal of a text denotes

Every character is written so that reading its escape gives its units back (`Quoted.Undone`), with
one exception: a backslash that already reads as the escape of half a surrogate pair is left alone,
and then something else is read. So the literal of a text denotes the text just if there is no such
backslash in it (`Quoted.decode?_encode_iff`).
-/

namespace Contracts.Text.Quoted

/-- Whether a backslash of the text starts the escape of half a surrogate pair. -/
def hasHalfEscape : List Char → Bool
  | [] => false
  | c :: cs => (c == '\\' && isHalfEscape cs) || hasHalfEscape cs

theorem hasHalfEscape_of_not_mem {cs : List Char} (h : '\\' ∉ cs) : hasHalfEscape cs = false := by
  induction cs with
  | nil => rfl
  | cons c cs ih =>
      rw [List.mem_cons, not_or] at h
      have hc : (c == '\\') = false := beq_eq_false_iff_ne.mpr (Ne.symm h.1)
      rw [hasHalfEscape, hc, Bool.false_and, Bool.false_or, ih h.2]

/-- What a character is written as is read as the character, in front of `tail`: it is the character
itself, or an escape for its units. -/
def Undone (quote c : Char) (tail written : List Char) : Prop :=
  (written = [c] ∧ c ≠ quote ∧ c ≠ '\\' ∧ c ≠ '\n' ∧ c ≠ '\r') ∨
    ∃ w, written = '\\' :: w ∧ unescape? (w ++ tail) = some (charUnits c, tail)

section Escapes

variable {quote c : Char} {rest tail : List Char}

/-- A control character is written with two digits. -/
theorem unescape?_hex {n : Nat} (h : n < 0x20) (tail : List Char) :
    unescape? ('x' :: hex 2 n ++ tail) = some ([n], tail) := by
  have hdigits : (hex 2 n).length = 2 ∧ (hex 2 n).all isHexDigit = true ∧
      hexNumber (hex 2 n) = n := by
    revert n
    decide
  generalize hex 2 n = digits at hdigits
  obtain ⟨hlength, hall, hnumber⟩ := hdigits
  obtain ⟨a, b, rfl⟩ := List.length_eq_two.mp hlength
  subst hnumber
  simp only [List.cons_append, List.nil_append, unescape?, hall, if_true]

theorem isDigit_of_isOctalDigit {d : Char} (h : isOctalDigit d = true) : d.isDigit = true := by
  simp only [isOctalDigit, Char.isDigit, Bool.and_eq_true, decide_eq_true_eq, Char.le_def,
    UInt32.le_iff_toNat_le] at h ⊢
  have hcodes : '0'.val.toNat = 48 ∧ '7'.val.toNat = 55 ∧ '9'.val.toNat = 57 := by
    decide
  omega

/-- A zero is read as a digit of its own where no other digit follows. -/
theorem unescape?_zero (h : tail.head?.any Char.isDigit = false) :
    unescape? ('0' :: tail) = some ([0], tail) := by
  have hlength : octalLength ('0' :: tail) = 1 := by
    cases tail with
    | nil => rfl
    | cons d tail =>
        have hoctal : isOctalDigit d = false := by
          rw [Bool.eq_false_iff]
          intro hd
          refine absurd (isDigit_of_isOctalDigit hd) ?_
          simpa using h
        have hzero : isOctalDigit '0' = true := by
          decide
        simp [octalLength, hzero, hoctal]
  have hunescape : unescape? ('0' :: tail) =
      some ([(('0' :: tail).take (octalLength ('0' :: tail))).foldl
        (fun n d => n * 8 + hexValue d) 0], ('0' :: tail).drop (octalLength ('0' :: tail))) := rfl
  rw [hunescape, hlength]
  rfl

theorem undone_escape (hquote : quote = '"' ∨ quote = '\'')
    (hslash : c = '\\' → isHalfEscape rest = false)
    (htail : tail.head?.any Char.isDigit = true → rest.head?.any Char.isDigit = true) :
    Undone quote c tail (escape quote c rest) := by
  have hpair : ∀ {d : Char}, unescape? ([d] ++ tail) = some (charUnits c, tail) →
      Undone quote c tail ['\\', d] := fun h => .inr ⟨_, rfl, h⟩
  rw [escape]
  refine iteInduction (fun hself => hpair ?_) fun hself => ?_
  · subst hself
    rcases hquote with rfl | rfl
    all_goals rfl
  refine iteInduction (fun hbackslash => ?_) fun hbackslash => ?_
  · subst hbackslash
    rw [if_neg (by simp [hslash rfl])]
    exact hpair rfl
  refine iteInduction (fun h => hpair (by subst h; rfl)) fun _ => ?_
  refine iteInduction (fun h => hpair (by subst h; rfl)) fun _ => ?_
  refine iteInduction (fun h => hpair (by subst h; rfl)) fun hfeed => ?_
  refine iteInduction (fun h => hpair (by subst h; rfl)) fun hreturn => ?_
  refine iteInduction (fun h => hpair (by subst h; rfl)) fun _ => ?_
  have hraw : Undone quote c tail [c] := .inl ⟨rfl, hself, hbackslash, hfeed, hreturn⟩
  refine iteInduction (fun htab => htab ▸ hraw) fun _ => ?_
  refine iteInduction (fun hzero => ?_) fun _ => ?_
  · subst hzero
    refine iteInduction (fun _ => .inr ⟨_, rfl, rfl⟩) fun hdigit => hpair ?_
    exact unescape?_zero (by simpa using fun h => hdigit (htail h))
  refine iteInduction (fun hcontrol => .inr ⟨_, rfl, ?_⟩) fun _ => ?_
  · have hunits : charUnits c = [c.toNat] := by
      rw [charUnits, if_pos (by omega)]
    rw [hunits]
    exact unescape?_hex hcontrol tail
  refine iteInduction (fun h => .inr ⟨_, rfl, by subst h; rfl⟩) fun _ => ?_
  refine iteInduction (fun h => .inr ⟨_, rfl, by subst h; rfl⟩) fun _ => ?_
  exact iteInduction (fun h => .inr ⟨_, rfl, by subst h; rfl⟩) fun _ => hraw

theorem escape_cases (hquote : quote = '"' ∨ quote = '\'') (c : Char) (rest : List Char) :
    escape quote c rest = [c] ∨ ∃ w, escape quote c rest = '\\' :: w := by
  by_cases hhalf : c = '\\' ∧ isHalfEscape rest = true
  · have hself : c ≠ quote := by
      rw [hhalf.1]
      rcases hquote with rfl | rfl
      all_goals decide
    rw [escape, if_neg hself, if_pos hhalf.1, if_pos hhalf.2]
    exact .inr ⟨[], rfl⟩
  · have hslash : c = '\\' → isHalfEscape rest = false := by simpa using hhalf
    obtain ⟨hraw, -⟩ | ⟨w, hw, -⟩ := @undone_escape quote c rest [] hquote hslash (by simp)
    · exact .inl hraw
    · exact .inr ⟨w, hw⟩

/-- A literal goes on with a digit only if the text does. -/
theorem isDigit_of_encodeFrom (hquote : quote = '"' ∨ quote = '\'') {cs : List Char}
    (h : (encodeFrom quote cs ++ [quote]).head?.any Char.isDigit = true) :
    cs.head?.any Char.isDigit = true := by
  cases cs with
  | nil =>
      rcases hquote with rfl | rfl
      all_goals exact absurd h (by decide)
  | cons c cs =>
      rw [encodeFrom] at h
      obtain hw | ⟨w, hw⟩ := escape_cases hquote c cs
      · rw [hw] at h
        exact h
      · have hslash : Char.isDigit '\\' = false := by
          decide
        rw [hw] at h
        exact absurd h (by simp [hslash])

/-- Reading a literal takes one character of the text at a time. -/
theorem decodeWithin_undone {written : List Char} (hquote : quote = '"' ∨ quote = '\'')
    (h : Undone quote c tail written) (n : Nat) :
    decodeWithin quote (n + 1) (written ++ tail) =
      (decodeWithin quote n tail).map (charUnits c ++ ·) := by
  obtain ⟨rfl, hself, hslash, hfeed, hreturn⟩ | ⟨w, rfl, hw⟩ := h
  · simp [decodeWithin, hself, hslash, hfeed, hreturn]
  · have hslash : '\\' ≠ quote := by
      rcases hquote with rfl | rfl
      all_goals decide
    rw [List.cons_append, decodeWithin, if_neg hslash, if_pos rfl, hw]

end Escapes

section Halves

variable {quote : Char} {cs rest : List Char}

theorem toNat_of_isHexDigit {c : Char} (h : isHexDigit c = true) :
    0x20 ≤ c.toNat ∧ c.toNat < 0x80 := by
  simp only [isHexDigit, Char.isDigit, Bool.or_eq_true, Bool.and_eq_true, decide_eq_true_eq,
    Char.le_def, UInt32.le_iff_toNat_le, ge_iff_le] at h
  have hcodes : '0'.val.toNat = 48 ∧ '9'.val.toNat = 57 ∧ 'a'.val.toNat = 97 ∧
      'f'.val.toNat = 102 ∧ 'A'.val.toNat = 65 ∧ 'F'.val.toNat = 70 := by
    decide
  have hval : c.toNat = c.val.toNat := rfl
  omega

/-- Characters of ASCII that can be seen are written as they are, the quote and the backslash
apart. -/
theorem escape_visible {c : Char} (hself : c ≠ quote) (hslash : c ≠ '\\')
    (hvisible : 0x20 ≤ c.toNat ∧ c.toNat < 0x80) (rest : List Char) :
    escape quote c rest = [c] := by
  have hne : ∀ {d : Char}, d.toNat < 0x20 ∨ 0x80 ≤ d.toNat → c ≠ d := by
    rintro d hd rfl
    omega
  rw [escape, if_neg hself, if_neg hslash, if_neg (hne (by decide)), if_neg (hne (by decide)),
    if_neg (hne (by decide)), if_neg (hne (by decide)), if_neg (hne (by decide)),
    if_neg (hne (by decide)), if_neg (hne (by decide)), if_neg (Nat.not_lt.mpr hvisible.1),
    if_neg (hne (by decide)), if_neg (hne (by decide)), if_neg (hne (by decide))]

theorem escape_isHexDigit (hquote : quote = '"' ∨ quote = '\'') {c : Char}
    (hc : isHexDigit c = true) (rest : List Char) : escape quote c rest = [c] := by
  refine escape_visible ?_ ?_ (toNat_of_isHexDigit hc) rest
  · rintro rfl
    rcases hquote with rfl | rfl
    all_goals exact absurd hc (by decide)
  · rintro rfl
    exact absurd hc (by decide)

theorem le_hexNumber_append (ds es : List Char) : hexNumber ds ≤ hexNumber (ds ++ es) := by
  have hfrom : ∀ (es : List Char) (n : Nat),
      n ≤ es.foldl (fun n c => n * 16 + hexValue c) n := by
    intro es
    induction es with
    | nil => exact fun n => Nat.le_refl n
    | cons e es ih =>
        intro n
        have hstep : n ≤ n * 16 + hexValue e := by omega
        exact Nat.le_trans hstep (ih _)
  rw [hexNumber, hexNumber, List.foldl_append]
  exact hfrom es _

/-- Four digits of half a surrogate pair are written as they are. -/
theorem exists_of_startsWithHalf (hquote : quote = '"' ∨ quote = '\'')
    (h : startsWithHalf cs = true) (tail : List Char) :
    ∃ a b c d more, encodeFrom quote cs ++ tail = a :: b :: c :: d :: more ∧
      [a, b, c, d].all isHexDigit = true ∧ 0xD800 ≤ hexNumber [a, b, c, d] := by
  simp only [startsWithHalf, Bool.and_eq_true, decide_eq_true_eq] at h
  obtain ⟨⟨⟨hlength, hall⟩, hlow⟩, hhigh⟩ := h
  match cs, hlength with
  | a :: b :: c :: d :: cs, _ =>
      have hdigits : [a, b, c, d].all isHexDigit = true := hall
      refine ⟨a, b, c, d, encodeFrom quote cs ++ tail, ?_, hdigits, hlow⟩
      simp only [List.all_cons, List.all_nil, Bool.and_true, Bool.and_eq_true] at hdigits
      obtain ⟨ha, hb, hc, hd⟩ := hdigits
      simp only [encodeFrom, escape_isHexDigit hquote ha, escape_isHexDigit hquote hb,
        escape_isHexDigit hquote hc, escape_isHexDigit hquote hd, List.cons_append,
        List.nil_append]

/-- A character beyond the first plane starts with half a surrogate pair. -/
theorem exists_charUnits_ofNat {n : Nat} (hlow : 0xFFFF < n) (hhigh : n ≤ 0x10FFFF) :
    ∃ u us, charUnits (Char.ofNat n) = u :: us ∧ 0xD800 ≤ u := by
  have hvalid : n.isValidChar := .inr ⟨by omega, by omega⟩
  have hnat : (Char.ofNat n).toNat = n := by
    rw [Char.ofNat, dif_pos hvalid]
    rfl
  rw [charUnits, hnat, if_neg (by omega)]
  exact ⟨_, _, rfl, Nat.le_add_right _ _⟩

/-- If anything is read from the escape of half a surrogate pair, it starts with a half. -/
theorem unescape?_half (hquote : quote = '"' ∨ quote = '\'') (h : isHalfEscape rest = true)
    {tail : List Char} {us : List Nat} {after : List Char}
    (hus : unescape? (encodeFrom quote rest ++ tail) = some (us, after)) :
    ∃ u vs, us = u :: vs ∧ 0xD800 ≤ u := by
  have hu : escape quote 'u' = fun _ => ['u'] := by
    funext rest
    rcases hquote with rfl | rfl
    all_goals rfl
  have hbrace : escape quote '\x7b' = fun _ => ['\x7b'] := by
    funext rest
    rcases hquote with rfl | rfl
    all_goals rfl
  unfold isHalfEscape at h
  split at h
  next cs =>
      obtain ⟨a, b, c, d, more, hcs, hdigits, hhalf⟩ := exists_of_startsWithHalf hquote h tail
      rw [encodeFrom, encodeFrom, hu, hbrace, List.append_assoc, List.append_assoc, hcs,
        List.singleton_append, List.singleton_append, unescape?] at hus
      have htake : (a :: b :: c :: d :: more).takeWhile isHexDigit =
          [a, b, c, d] ++ more.takeWhile isHexDigit :=
        List.takeWhile_append_of_pos (List.all_eq_true.mp hdigits)
      have hnumber := le_hexNumber_append [a, b, c, d] (more.takeWhile isHexDigit)
      rw [htake] at hus
      dsimp only at hus
      split at hus
      next after =>
          split at hus
          next => exact absurd hus (by simp)
          next hmost =>
              split at hus
              next =>
                  obtain ⟨rfl, -⟩ := Prod.mk.inj (Option.some.inj hus)
                  exact ⟨_, [], rfl, Nat.le_trans hhalf hnumber⟩
              next hlarge =>
                  obtain ⟨rfl, -⟩ := Prod.mk.inj (Option.some.inj hus)
                  have hbound :
                      hexNumber ([a, b, c, d] ++ more.takeWhile isHexDigit) ≤ 0x10FFFF := by
                    simpa using hmost
                  exact exists_charUnits_ofNat (Nat.not_le.mp hlarge) hbound
      next => exact absurd hus (by simp)
  next cs =>
      obtain ⟨a, b, c, d, more, hcs, hdigits, hhalf⟩ := exists_of_startsWithHalf hquote h tail
      have ha : a ≠ '\x7b' := by
        rintro rfl
        have hnone : isHexDigit '\x7b' = false := by
          decide
        exact absurd hdigits (by simp [hnone])
      rw [encodeFrom, hu, List.append_assoc, hcs, List.singleton_append] at hus
      simp only [unescape?, hdigits, if_true] at hus
      obtain ⟨rfl, -⟩ := Prod.mk.inj (Option.some.inj hus)
      exact ⟨_, [], rfl, hhalf⟩
  next => exact absurd h (by simp)

end Halves

theorem length_lt_of_escape {quote : Char} (hquote : quote = '"' ∨ quote = '\'') (c : Char)
    (rest tail : List Char) : tail.length < (escape quote c rest ++ tail).length := by
  obtain h | ⟨w, h⟩ := escape_cases hquote c rest
  · simp [h]
  · rw [h, List.length_append, List.length_cons]
    omega

/-- The steps of reading are enough for every literal that is written, and give the units of the
text unless half a surrogate pair is read on the way. -/
theorem decodeWithin_encodeFrom_iff {quote : Char} (hquote : quote = '"' ∨ quote = '\'')
    (cs : List Char) {n : Nat} (hn : (encodeFrom quote cs ++ [quote]).length ≤ n) :
    decodeWithin quote n (encodeFrom quote cs ++ [quote]) = some (units cs) ↔
      hasHalfEscape cs = false := by
  induction cs generalizing n with
  | nil =>
      obtain ⟨n, rfl⟩ := Nat.exists_eq_add_of_le' (show 1 ≤ n from hn)
      simp [encodeFrom, decodeWithin, hasHalfEscape, units]
  | cons c cs ih =>
      rw [encodeFrom, List.append_assoc] at hn ⊢
      have hstep := length_lt_of_escape hquote c cs (encodeFrom quote cs ++ [quote])
      obtain ⟨n, rfl⟩ := Nat.exists_eq_add_of_le' (show 1 ≤ n by omega)
      have hunits : units (c :: cs) = charUnits c ++ units cs := List.flatMap_cons
      rw [hasHalfEscape, Bool.or_eq_false_iff, hunits]
      by_cases hhalf : c = '\\' ∧ isHalfEscape cs = true
      · obtain ⟨rfl, hhalf⟩ := hhalf
        have hself : '\\' ≠ quote := by
          rcases hquote with rfl | rfl
          all_goals decide
        rw [escape, if_neg hself, if_pos rfl, if_pos hhalf, List.singleton_append, decodeWithin,
          if_neg hself, if_pos rfl]
        refine iff_of_false (fun h => ?_) (by simp [hhalf])
        split at h
        next us after hus =>
            obtain ⟨u, vs, rfl, hu⟩ := unescape?_half hquote hhalf hus
            obtain ⟨ws, -, hws⟩ := Option.map_eq_some_iff.mp h
            obtain ⟨rfl, -⟩ := List.cons.inj hws
            exact absurd hu (by decide)
        next => exact absurd h (by simp)
      · have hslash : c = '\\' → isHalfEscape cs = false := by simpa using hhalf
        have hundone := undone_escape hquote hslash (isDigit_of_encodeFrom hquote)
        have hc : (c == '\\' && isHalfEscape cs) = false := by simpa using hhalf
        rw [decodeWithin_undone hquote hundone, Option.map_eq_some_iff]
        simp only [List.append_cancel_left_eq, exists_eq_right, hc, true_and]
        exact ih (by omega)

/-- The literal of a text denotes the text just if no backslash in it starts the escape of half a
surrogate pair. -/
theorem decode?_encode_iff (cs : List Char) :
    decode? (encode cs) = some (units cs) ↔ hasHalfEscape cs = false := by
  rw [encode, quoteFor]
  split
  next => exact decodeWithin_encodeFrom_iff (.inr rfl) cs (Nat.le_refl _)
  next => exact decodeWithin_encodeFrom_iff (.inl rfl) cs (Nat.le_refl _)

/-- Whether the literal of a text can be read, be it as the text or as something else. -/
def isReadable (text : String) : Bool :=
  (decode? (encode text.toList)).isSome

theorem isReadable_of_not_hasHalfEscape {text : String} (h : hasHalfEscape text.toList = false) :
    isReadable text = true := by
  rw [isReadable, (decode?_encode_iff text.toList).mpr h]
  rfl

end Contracts.Text.Quoted
