import Contracts.Proofs.Text.Quoting
import Contracts.Syntax.Token.Scan
import Mathlib.Data.List.TakeWhile

/-!
# What single tokens are read as

The texts that this library prints are put together from words, string literals
and marks. Each of them is read as one token, whatever stands behind it, as long as
this could not make the token longer.

The string literal of a text holds no escape that is wrong, unless a backslash of
the text starts the escape of half a surrogate pair that is not closed
(`Token.textFault?_encode`).
-/

namespace Contracts

namespace Token

/-- A character that starts a name is a letter, one of two marks, or beyond ASCII. -/
theorem isNameStart_cases {c : Char} (h : isNameStart c = true) :
    (65 ≤ c.toNat ∧ c.toNat ≤ 122) ∨ c = '$' ∨ (128 ≤ c.toNat ∧ isSpace c = false) := by
  have hcodes : 'A'.val.toNat = 65 ∧ 'Z'.val.toNat = 90 ∧ 'a'.val.toNat = 97 ∧
      'z'.val.toNat = 122 := by
    decide
  have hval : c.toNat = c.val.toNat := rfl
  have halpha : c.isAlpha = (decide (c.val ≥ 'A'.val ∧ c.val ≤ 'Z'.val) ||
      (decide (c.val ≥ 'a'.val) && decide (c.val ≤ 'z'.val))) := rfl
  simp only [isNameStart, halpha, Bool.or_eq_true, Bool.and_eq_true, decide_eq_true_eq,
    beq_iff_eq, ge_iff_le, UInt32.le_iff_toNat_le, Bool.not_eq_true'] at h
  rcases h with (((h | h) | rfl) | rfl) | h
  · omega
  · omega
  · exact .inl (by decide)
  · exact .inr (.inl rfl)
  · exact .inr (.inr ⟨h.1.1, h.1.2⟩)

/-- A text that is one word. -/
def IsWord (text : String) : Prop :=
  ∃ c cs, text = String.ofList (c :: cs) ∧ isNameStart c = true ∧ ∀ d ∈ cs, isNamePart d = true

theorem isWord_of_all {text : String} {c : Char} {cs : List Char}
    (htext : text = String.ofList (c :: cs)) (hc : isNameStart c = true)
    (hcs : cs.all isNamePart = true) : IsWord text :=
  ⟨c, cs, htext, hc, List.all_eq_true.mp hcs⟩

theorem IsWord.head?_append {text : String} (h : IsWord text) (rest : List Char) :
    ∀ c ∈ (text.toList ++ rest).head?, isNameStart c = true := by
  obtain ⟨c, cs, rfl, hc, -⟩ := h
  rw [String.toList_ofList]
  rintro d ⟨⟩
  exact hc

/-- The character after a word does not belong to it. -/
def EndsWord (rest : List Char) : Prop :=
  ∀ c ∈ rest.head?, isNamePart c = false ∧ c ≠ '\\'

theorem endsWord_cons {c : Char} (hc : isNamePart c = false ∧ c ≠ '\\') (cs : List Char) :
    EndsWord (c :: cs) := by
  rintro d ⟨⟩
  exact hc

theorem isDigit_of_isNameStart {c : Char} (h : isNameStart c = true) : c.isDigit = false := by
  have hcodes : '0'.val.toNat = 48 ∧ '9'.val.toNat = 57 := by
    decide
  have hval : c.toNat = c.val.toNat := rfl
  rw [Bool.eq_false_iff]
  intro hdigit
  simp only [Char.isDigit, Bool.and_eq_true, decide_eq_true_eq, UInt32.le_iff_toNat_le] at hdigit
  rcases isNameStart_cases h with h | rfl | h
  · omega
  · exact absurd hdigit (by decide)
  · omega

theorem isSpace_of_isNameStart {c : Char} (h : isNameStart c = true) : isSpace c = false := by
  rcases isNameStart_cases h with h | rfl | h
  · simp only [isSpace, Bool.or_eq_false_iff, Bool.and_eq_false_iff, decide_eq_false_iff_not,
      beq_eq_false_iff_ne]
    omega
  · decide
  · exact h.2

/-- A word ends where a character follows that is not part of a name. -/
theorem scanName_append {word rest : List Char} (hword : ∀ c ∈ word, isNamePart c = true)
    (hrest : EndsWord rest) (name : List Char) :
    scanName name false 0 (word ++ rest) = (name.reverse ++ word, false, rest) := by
  induction word generalizing name with
  | nil =>
      cases rest with
      | nil => simp [scanName]
      | cons c cs =>
          obtain ⟨hpart, hslash⟩ := hrest c rfl
          simp [scanName, hpart, hslash]
  | cons c cs ih =>
      rw [List.forall_mem_cons] at hword
      have hslash : c ≠ '\\' := by
        rintro rfl
        exact absurd hword.1 (by decide)
      simp [scanName, hslash, hword.1, ih hword.2]

theorem scan_word {c : Char} {cs rest : List Char} (hc : isNameStart c = true)
    (hcs : ∀ d ∈ cs, isNamePart d = true)
    (hrest : EndsWord rest) (position : Nat)
    (afterBreak : Bool) :
    scan position afterBreak (c :: cs ++ rest) =
      .ok ⟨⟨.word (String.ofList (c :: cs)) false, ⟨position, position + width (c :: cs)⟩,
        afterBreak⟩, rest, none⟩ := by
  have hdigit := isDigit_of_isNameStart hc
  have hpoint : c ≠ '.' := by
    rintro rfl
    exact absurd hc (by decide)
  have hpart : isNamePart c = true := by
    simp [isNamePart, hc]
  have hname := scanName_append (List.forall_mem_cons.mpr ⟨hpart, hcs⟩) hrest []
  rw [List.cons_append] at hname
  simp [scan, hdigit, hpoint, hc, hname]

/-- What may stand in a string literal as it is. -/
def isOrdinary (quote c : Char) : Bool :=
  c != quote && c != '\\' && c != '\n' && c != '\r'

/-- An ordinary character of a string literal is taken as it is. -/
theorem scanString_ordinary {quote c : Char} (hc : isOrdinary quote c = true)
    (text cs : List Char) :
    scanString quote text (c :: cs) = scanString quote (c :: text) cs := by
  simp only [isOrdinary, Bool.and_eq_true, bne_iff_ne] at hc
  obtain ⟨⟨⟨hquote, hslash⟩, hfeed⟩, hreturn⟩ := hc
  rw [scanString]
  · simp [hquote, hfeed, hreturn]
  · simp [hslash]
  · simp [hslash]

/-- A character with a backslash in front is taken with it. -/
theorem scanString_escaped {quote c : Char} (hc : c ≠ '\r') (text cs : List Char) :
    scanString quote text ('\\' :: c :: cs) = scanString quote (c :: '\\' :: text) cs := by
  rw [scanString]
  simp [hc]

theorem scanString_append {quote : Char} {taken : List Char}
    (h : ∀ c ∈ taken, isOrdinary quote c = true) (text cs : List Char) :
    scanString quote text (taken ++ cs) = scanString quote (taken.reverse ++ text) cs := by
  induction taken generalizing text with
  | nil => rfl
  | cons c taken ih =>
      rw [List.forall_mem_cons] at h
      rw [List.cons_append, scanString_ordinary h.1, ih h.2]
      simp

theorem scanString_quote {quote : Char} (hquote : quote ≠ '\\') (text cs : List Char) :
    scanString quote text (quote :: cs) = ⟨(quote :: text).reverse, true, cs⟩ := by
  rw [scanString]
  · simp
  · simp [hquote]
  · simp [hquote]

/-- What a character is written as in front of `tail`: itself, or a backslash with something behind it
that is no wrong escape. -/
def Writes (quote c : Char) (tail written : List Char) : Prop :=
  (written = [c] ∧ isOrdinary quote c = true) ∨
    ∃ d more, written = '\\' :: d :: more ∧ d ≠ '\r' ∧
      (∀ e ∈ more, isOrdinary quote e = true) ∧
      ∀ allowOctal, escapeFault? allowOctal (d :: more ++ tail) = none

section Literals

variable {quote c : Char} {cs rest tail : List Char}

theorem isOrdinary_of_isHexDigit (hquote : quote = '"' ∨ quote = '\'')
    (hc : Text.isHexDigit c = true ∨ c = '\x7b' ∨ c = '\x7d') : isOrdinary quote c = true := by
  have hother : ∀ d ∈ [quote, '\\', '\n', '\r'], c ≠ d := by
    rcases hquote with rfl | rfl
    all_goals
      rintro d hd rfl
      simp only [List.mem_cons, List.not_mem_nil, or_false] at hd
      rcases hd with rfl | rfl | rfl | rfl
      all_goals exact absurd hc (by decide)
  simp only [List.forall_mem_cons, List.not_mem_nil, false_implies, implies_true, and_true]
    at hother
  simp [isOrdinary, hother]

theorem writes_pair {d : Char} (hreturn : d ≠ '\r')
    (hd : ∀ allowOctal, escapeFault? allowOctal (d :: tail) = none) :
    Writes quote c tail ['\\', d] :=
  .inr ⟨d, [], rfl, hreturn, by simp, hd⟩

/-- A zero that no digit follows is no wrong escape. -/
theorem escapeFault?_zero (h : tail.head?.any Char.isDigit = false) (allowOctal : Bool) :
    escapeFault? allowOctal ('0' :: tail) = none := by
  have hoctal : tail.head?.any Text.Quoted.isOctalDigit = false := by
    cases tail with
    | nil => rfl
    | cons d tail =>
        rw [List.head?_cons, Option.any_some, Bool.eq_false_iff] at h ⊢
        exact fun hd => h (Text.Quoted.isDigit_of_isOctalDigit hd)
  simp [escapeFault?, hoctal]

open Text in
theorem escapeFault?_hex {n : Nat} (h : n < 0x20) (allowOctal : Bool) :
    escapeFault? allowOctal ('x' :: hex 2 n ++ tail) = none := by
  have hdigits : (hex 2 n).length = 2 ∧ (hex 2 n).takeWhile isHexDigit = hex 2 n := by
    revert n
    decide
  have htake : (hex 2 n ++ tail).take 2 = hex 2 n := List.take_left' hdigits.1
  simp [escapeFault?, htake, hdigits]

open Text in
theorem writes_escape (hquote : quote = '"' ∨ quote = '\'')
    (hslash : c = '\\' → Quoted.isHalfEscape rest = false)
    (htail : tail.head?.any Char.isDigit = true → rest.head?.any Char.isDigit = true) :
    Writes quote c tail (Quoted.escape quote c rest) := by
  have hhex : ∀ n < 0x20, (hex 2 n).all (isOrdinary quote) = true := by
    rcases hquote with rfl | rfl
    all_goals decide
  have hcode : ∀ {es : List Char}, es.all isHexDigit = true → ∀ e ∈ es, isOrdinary quote e = true :=
    fun hes e he => isOrdinary_of_isHexDigit hquote (.inl (List.all_eq_true.mp hes e he))
  rw [Quoted.escape]
  refine iteInduction (fun hself => ?_) fun hself => ?_
  · subst hself
    rcases hquote with rfl | rfl
    all_goals exact writes_pair (by decide) fun _ => rfl
  refine iteInduction (fun hc => ?_) fun hc => ?_
  · rw [if_neg (by simp [hslash hc])]
    exact writes_pair (by decide) fun _ => rfl
  refine iteInduction (fun _ => writes_pair (by decide) fun _ => rfl) fun _ => ?_
  refine iteInduction (fun _ => writes_pair (by decide) fun _ => rfl) fun _ => ?_
  refine iteInduction (fun _ => writes_pair (by decide) fun _ => rfl) fun hfeed => ?_
  refine iteInduction (fun _ => writes_pair (by decide) fun _ => rfl) fun hreturn => ?_
  refine iteInduction (fun _ => writes_pair (by decide) fun _ => rfl) fun _ => ?_
  have hordinary : isOrdinary quote c = true := by
    simp [isOrdinary, hself, hc, hfeed, hreturn]
  refine iteInduction (fun htab => .inl ⟨by rw [htab], hordinary⟩) fun _ => ?_
  refine iteInduction (fun _ => ?_) fun _ => ?_
  · refine iteInduction (fun _ => ?_) fun hdigit => writes_pair (by decide) ?_
    · exact .inr ⟨'x', ['0', '0'], rfl, by decide, hcode (by decide), fun _ => rfl⟩
    · exact escapeFault?_zero (by simpa using fun h => hdigit (htail h))
  refine iteInduction (fun hsmall => ?_) fun _ => ?_
  · exact .inr ⟨_, _, rfl, by decide, List.all_eq_true.mp (hhex _ hsmall),
      escapeFault?_hex hsmall⟩
  refine iteInduction (fun _ => ?_) fun _ => ?_
  · exact .inr ⟨'u', ['2', '0', '2', '8'], rfl, by decide, hcode (by decide), fun _ => rfl⟩
  refine iteInduction (fun _ => ?_) fun _ => ?_
  · exact .inr ⟨'u', ['2', '0', '2', '9'], rfl, by decide, hcode (by decide), fun _ => rfl⟩
  refine iteInduction (fun _ => ?_) fun _ => .inl ⟨rfl, hordinary⟩
  exact .inr ⟨'u', ['F', 'E', 'F', 'F'], rfl, by decide, hcode (by decide), fun _ => rfl⟩

/-- What a character is written as is taken as a whole. -/
theorem Writes.scanString_eq {written : List Char} (h : Writes quote c tail written)
    (text cs : List Char) :
    scanString quote text (written ++ cs) = scanString quote (written.reverse ++ text) cs := by
  rcases h with ⟨rfl, hc⟩ | ⟨d, more, rfl, hd, hmore, -⟩
  · exact scanString_ordinary hc text cs
  · rw [List.cons_append, List.cons_append, scanString_escaped hd, scanString_append hmore]
    simp

/-- A backslash that is left alone has the letter of its escape behind it. -/
theorem exists_of_isHalfEscape (h : Text.Quoted.isHalfEscape cs = true) : ∃ ds, cs = 'u' :: ds := by
  unfold Text.Quoted.isHalfEscape at h
  split at h
  next => exact ⟨_, rfl⟩
  next => exact ⟨_, rfl⟩
  next => exact absurd h (by simp)

theorem encodeFrom_half (hquote : quote = '"' ∨ quote = '\'')
    (h : Text.Quoted.isHalfEscape ('u' :: cs) = true) :
    Text.Quoted.encodeFrom quote ('\\' :: 'u' :: cs) =
      '\\' :: 'u' :: Text.Quoted.encodeFrom quote cs := by
  have hslash : '\\' ≠ quote := by
    rcases hquote with rfl | rfl
    all_goals decide
  have hletter : Text.Quoted.escape quote 'u' cs = ['u'] := by
    rcases hquote with rfl | rfl
    all_goals rfl
  rw [Text.Quoted.encodeFrom, Text.Quoted.encodeFrom, Text.Quoted.escape, if_neg hslash,
    if_pos rfl, if_pos h, hletter]
  rfl

/-- The characters of a literal are taken with the letters of their escapes, so that a backslash that
is left alone is taken with the character behind it. -/
theorem scanString_encodeFrom (hquote : quote = '"' ∨ quote = '\'') (rest : List Char) :
    ∀ cs text : List Char, scanString quote text (Text.Quoted.encodeFrom quote cs ++ rest) =
      scanString quote ((Text.Quoted.encodeFrom quote cs).reverse ++ text) rest
  | [], _ => rfl
  | c :: cs, text => by
      by_cases hhalf : c = '\\' ∧ Text.Quoted.isHalfEscape cs = true
      · obtain ⟨rfl, hhalf⟩ := hhalf
        obtain ⟨cs, rfl⟩ := exists_of_isHalfEscape hhalf
        rw [encodeFrom_half hquote hhalf, List.cons_append, List.cons_append,
          scanString_escaped (by decide), scanString_encodeFrom hquote rest cs]
        simp
      · have hwrites : Writes quote c [] (Text.Quoted.escape quote c cs) :=
          writes_escape hquote (by simpa using hhalf) (by simp)
        rw [Text.Quoted.encodeFrom, List.append_assoc, hwrites.scanString_eq,
          scanString_encodeFrom hquote rest cs]
        simp
termination_by cs => cs.length

theorem quoteFor_cases (cs : List Char) :
    Text.Quoted.quoteFor cs = '"' ∨ Text.Quoted.quoteFor cs = '\'' := by
  unfold Text.Quoted.quoteFor
  split
  · exact .inr rfl
  · exact .inl rfl

theorem textFault?_skip {ds : List Char} (h : '\\' ∉ ds) (allowOctal : Bool) (position : Nat)
    (cs : List Char) :
    textFault? allowOctal position (ds ++ cs) =
      textFault? allowOctal (position + Text.byteLength ds) cs := by
  induction ds generalizing position with
  | nil => rfl
  | cons d ds ih =>
      rw [List.mem_cons, not_or] at h
      rw [List.cons_append, textFault?, ih h.2, Text.byteLength_cons, Nat.add_assoc]
      simp [Ne.symm h.1]

theorem not_mem_of_isOrdinary {ds : List Char} (h : ∀ e ∈ ds, isOrdinary quote e = true) :
    '\\' ∉ ds := by
  intro hmem
  have hslash := h _ hmem
  simp [isOrdinary] at hslash

/-- An escape that is not wrong is passed over. -/
theorem textFault?_escape {d : Char} {more : List Char} {allowOctal : Bool}
    (h : escapeFault? allowOctal (d :: more ++ tail) = none) (hmore : '\\' ∉ more)
    (position : Nat) :
    textFault? allowOctal position ('\\' :: d :: more ++ tail) =
      textFault? allowOctal (position + 1 + d.utf8Size + Text.byteLength more) tail := by
  rw [List.cons_append] at h
  rw [List.cons_append, List.cons_append, textFault?, h]
  exact textFault?_skip hmore _ _ _

theorem Writes.exists_textFault?_eq {written : List Char} (h : Writes quote c tail written)
    (allowOctal : Bool) (position : Nat) :
    ∃ position', textFault? allowOctal position (written ++ tail) =
      textFault? allowOctal position' tail := by
  rcases h with ⟨rfl, hc⟩ | ⟨d, more, rfl, -, hmore, hfault⟩
  · exact ⟨_, textFault?_skip (not_mem_of_isOrdinary (by simpa using hc)) _ _ _⟩
  · exact ⟨_, textFault?_escape (hfault allowOctal) (not_mem_of_isOrdinary hmore) position⟩

open Text in
/-- An escape of half a surrogate pair that is read is not wrong, and it consists of digits and
braces. -/
theorem escapeFault?_of_unescape? {us : List Nat} {after : List Char}
    (h : Quoted.unescape? ('u' :: cs) = some (us, after)) :
    (∀ allowOctal, escapeFault? allowOctal ('u' :: cs) = none) ∧
      ∃ read, cs = read ++ after ∧
        ∀ e ∈ read, isHexDigit e = true ∨ e = '\x7b' ∨ e = '\x7d' := by
  unfold Quoted.unescape? at h
  split at h
  next => exact absurd ‹_› (by simp)
  next ds heq =>
      obtain rfl : cs = '\x7b' :: ds := by simpa using heq
      dsimp only at h
      split at h
      next rest hrest =>
          split at h
          next => exact absurd h (by simp)
          next hdigits =>
              obtain rfl : rest = after := by
                split at h
                all_goals exact (Prod.mk.inj (Option.some.inj h)).2
              refine ⟨fun _ => ?_, '\x7b' :: ds.takeWhile isHexDigit ++ ['\x7d'], ?_, ?_⟩
              · simp only [escapeFault?, hdigits, hrest, List.head?_cons]
                rfl
              · rw [List.append_assoc, List.cons_append, List.singleton_append, ← hrest,
                  List.takeWhile_append_dropWhile]
              · intro e he
                simp only [List.cons_append, List.mem_cons, List.mem_append, List.not_mem_nil,
                  or_false] at he
                rcases he with rfl | he | rfl
                · exact .inr (.inl rfl)
                · exact .inl (List.mem_takeWhile_imp he)
                · exact .inr (.inr rfl)
      next => exact absurd h (by simp)
  next a b c d rest hbrace heq =>
      obtain rfl : cs = a :: b :: c :: d :: rest := by simpa using heq
      split at h
      next hdigits =>
          obtain rfl : rest = after := (Prod.mk.inj (Option.some.inj h)).2
          have ha : a ≠ '\x7b' := hbrace
          refine ⟨fun _ => ?_, [a, b, c, d], rfl, ?_⟩
          · simp_all [escapeFault?]
          · exact fun e he => .inl (List.all_eq_true.mp hdigits e he)
      next => exact absurd h (by simp)
  next heq => exact absurd (List.cons.inj heq).1 (by decide)
  next heq => exact absurd (List.cons.inj heq).1 (by decide)
  next heq =>
      obtain rfl := (List.cons.inj heq).1
      exact absurd h (by simp [isLineBreak, Quoted.isOctalDigit])

/-- Ordinary characters of a literal are read as they are. -/
theorem isSome_decodeWithin_append {ds : List Char} (h : ∀ e ∈ ds, isOrdinary quote e = true)
    {n : Nat} (hcs : (Text.Quoted.decodeWithin quote n cs).isSome) :
    (Text.Quoted.decodeWithin quote (n + ds.length) (ds ++ cs)).isSome := by
  induction ds with
  | nil => exact hcs
  | cons d ds ih =>
      rw [List.forall_mem_cons] at h
      have hd : d ≠ quote ∧ d ≠ '\\' ∧ d ≠ '\n' ∧ d ≠ '\r' := by
        simpa [isOrdinary, and_assoc] using h.1
      rw [List.cons_append, List.length_cons, ← Nat.add_assoc]
      simp [Text.Quoted.decodeWithin, hd, ih h.2]

/-- Where a literal can be read, none of its escapes is wrong. -/
theorem textFault?_encodeFrom (hquote : quote = '"' ∨ quote = '\'') (allowOctal : Bool) :
    ∀ (cs : List Char) (n position : Nat),
      (Text.Quoted.decodeWithin quote n (Text.Quoted.encodeFrom quote cs ++ [quote])).isSome →
      textFault? allowOctal position (Text.Quoted.encodeFrom quote cs ++ [quote]) = none
  | [], _, _, _ => by
      rcases hquote with rfl | rfl
      all_goals rfl
  | c :: cs, n, position, h => by
      obtain ⟨n, rfl⟩ : ∃ m, n = m + 1 := by
        cases n with
        | zero => exact absurd h (by simp [Text.Quoted.decodeWithin])
        | succ m => exact ⟨m, rfl⟩
      by_cases hhalf : c = '\\' ∧ Text.Quoted.isHalfEscape cs = true
      · obtain ⟨rfl, hhalf⟩ := hhalf
        obtain ⟨cs, rfl⟩ := exists_of_isHalfEscape hhalf
        have hslash : '\\' ≠ quote := by
          rcases hquote with rfl | rfl
          all_goals decide
        rw [encodeFrom_half hquote hhalf, List.cons_append, List.cons_append] at h ⊢
        rw [Text.Quoted.decodeWithin, if_neg hslash, if_pos rfl] at h
        split at h
        next us after hus =>
            obtain ⟨hfault, read, hread, hordinary⟩ := escapeFault?_of_unescape? hus
            have hrest := isSome_decodeWithin_append
              (fun e he => isOrdinary_of_isHexDigit hquote (hordinary e he))
              (by simpa using h)
            rw [← hread] at hrest
            rw [textFault?, hfault]
            exact textFault?_encodeFrom hquote allowOctal cs _ _ hrest
        next => exact absurd h (by simp)
      · have hslash : c = '\\' → Text.Quoted.isHalfEscape cs = false := by simpa using hhalf
        have hdigit : (Text.Quoted.encodeFrom quote cs ++ [quote]).head?.any Char.isDigit = true →
            cs.head?.any Char.isDigit = true := Text.Quoted.isDigit_of_encodeFrom hquote
        obtain ⟨position', heq⟩ :=
          (writes_escape hquote hslash hdigit).exists_textFault?_eq allowOctal position
        rw [Text.Quoted.encodeFrom, List.append_assoc] at h ⊢
        rw [Text.Quoted.decodeWithin_undone hquote
          (Text.Quoted.undone_escape hquote hslash hdigit), Option.isSome_map] at h
        rw [heq]
        exact textFault?_encodeFrom hquote allowOctal cs n _ h
termination_by cs => cs.length

end Literals

theorem scan_quote {quote : Char} (hquote : quote = '"' ∨ quote = '\'') {cs text rest : List Char}
    (h : scanString quote [quote] cs = ⟨text, true, rest⟩)
    (hfault : ∀ position, textFault? true position text = none) (position : Nat)
    (afterBreak : Bool) :
    scan position afterBreak (quote :: cs) =
      .ok ⟨⟨.string (String.ofList text), ⟨position, position + width text⟩, afterBreak⟩, rest,
        none⟩ := by
  rcases hquote with rfl | rfl
  all_goals
    simp only [scan, h, hfault]
    rfl

/-- In a literal that can be read no escape is wrong, not even in strict mode. -/
theorem textFault?_encode {text : String} (h : Text.Quoted.isReadable text = true) (allowOctal : Bool)
    (position : Nat) :
    textFault? allowOctal position (Text.Quoted.encode text.toList) = none := by
  have hquote := quoteFor_cases text.toList
  rw [Text.Quoted.isReadable] at h
  rw [Text.Quoted.encode] at h ⊢
  generalize Text.Quoted.quoteFor text.toList = quote at h hquote ⊢
  have hslash : quote ≠ '\\' := by
    rcases hquote with rfl | rfl
    all_goals decide
  have hwithin : (Text.Quoted.decodeWithin quote
      (Text.Quoted.encodeFrom quote text.toList ++ [quote]).length
      (Text.Quoted.encodeFrom quote text.toList ++ [quote])).isSome := by
    rcases hquote with rfl | rfl
    all_goals exact h
  have hquoted : '\\' ∉ [quote] := by simpa using hslash.symm
  have hskip := textFault?_skip hquoted allowOctal position
    (Text.Quoted.encodeFrom quote text.toList ++ [quote])
  have hrest := textFault?_encodeFrom hquote allowOctal text.toList _
    (position + Text.byteLength [quote]) hwithin
  exact hskip.trans hrest

/-- The string literal of a text is one token. -/
theorem scan_encode {text : String} (h : Text.Quoted.isReadable text = true) (rest : List Char) (position : Nat)
    (afterBreak : Bool) :
    scan position afterBreak (Text.Quoted.encode text.toList ++ rest) =
      .ok ⟨⟨.string (String.ofList (Text.Quoted.encode text.toList)),
        ⟨position, position + width (Text.Quoted.encode text.toList)⟩, afterBreak⟩, rest, none⟩ := by
  have hquote := quoteFor_cases text.toList
  have hslash : Text.Quoted.quoteFor text.toList ≠ '\\' := by
    rcases hquote with h | h
    all_goals
      rw [h]
      decide
  have htext : scanString (Text.Quoted.quoteFor text.toList) [Text.Quoted.quoteFor text.toList]
      (Text.Quoted.encodeFrom (Text.Quoted.quoteFor text.toList) text.toList ++
        (Text.Quoted.quoteFor text.toList :: rest)) =
        ⟨Text.Quoted.encode text.toList, true, rest⟩ := by
    rw [scanString_encodeFrom hquote, scanString_quote hslash]
    simp [Text.Quoted.encode]
  have hscan := scan_quote hquote htext (textFault?_encode h true) position afterBreak
  simpa [Text.Quoted.encode] using hscan

theorem scan_point {rest : List Char} (h : ∀ c ∈ rest.head?, isNameStart c = true)
    (position : Nat) (afterBreak : Bool) :
    scan position afterBreak ('.' :: rest) =
      .ok ⟨⟨.punctuator ".", ⟨position, position + 1⟩, afterBreak⟩, rest, none⟩ := by
  cases rest with
  | nil => rfl
  | cons c cs =>
      have hc := h c rfl
      have hdigit := isDigit_of_isNameStart hc
      have hpoint : '.' ≠ c := by
        rintro rfl
        exact absurd hc (by decide)
      have hself : isNameStart '.' = false := by decide
      have hlength : ".".length = 1 := rfl
      simp [scan, hself, hdigit, punctuator?, punctuators, Text.after?, hpoint, hlength]

/-- Some of the marks that no longer mark begins with. -/
def soleMarks : List Char :=
  ['(', ')', '\x7b', '\x7d', ',', ';', ':']

theorem scan_mark {c : Char} (hc : c ∈ soleMarks) (rest : List Char) (position : Nat)
    (afterBreak : Bool) :
    scan position afterBreak (c :: rest) =
      .ok ⟨⟨.punctuator (String.ofList [c]), ⟨position, position + 1⟩, afterBreak⟩, rest,
        none⟩ := by
  simp only [soleMarks, List.mem_cons, List.not_mem_nil, or_false] at hc
  rcases hc with rfl | rfl | rfl | rfl | rfl | rfl | rfl
  all_goals rfl

/-- Two operators, each with a blank behind it. -/
theorem scan_operator {text : String} (h : text = "=" ∨ text = "||") (rest : List Char)
    (position : Nat) (afterBreak : Bool) :
    scan position afterBreak (text.toList ++ ' ' :: rest) =
      .ok ⟨⟨.punctuator text, ⟨position, position + text.length⟩, afterBreak⟩, ' ' :: rest,
        none⟩ := by
  rcases h with rfl | rfl
  all_goals rfl

end Token

end Contracts
