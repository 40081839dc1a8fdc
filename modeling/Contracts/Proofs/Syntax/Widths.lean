import Contracts.Syntax.Token.Scan
import Mathlib.Data.List.TakeWhile

/-!
# How wide tokens are

A token is as wide as the characters that were taken for it. Most readers give
them back, so that this is what they measure; the digits of a number are counted
instead, which is the same because each of them is one byte wide, and a name
with escapes is shorter than what was taken, so that the widths before and after
it are compared.
-/

namespace Contracts

namespace Text

theorem byteLength_eq_length {cs : List Char} (h : ∀ c ∈ cs, c.toNat < 128) :
    byteLength cs = cs.length := by
  induction cs with
  | nil => rfl
  | cons c cs ih =>
      rw [List.forall_mem_cons] at h
      have hc : c.utf8Size = 1 := Char.utf8Size_eq_one_iff.mpr (Nat.lt_succ_iff.mp h.1)
      rw [byteLength_cons, List.length_cons, ih h.2, hc]
      exact Nat.add_comm 1 _

end Text

namespace Token

open Text

/-- The characters of a number are all one byte wide, so that counting them measures them. -/
def TakesNarrow (cs : List Char) (found : List Char × List Char) : Prop :=
  cs = found.1 ++ found.2 ∧ ∀ c ∈ found.1, c.toNat < 128

section Numbers

variable {c : Char} {cs : List Char}

theorem toNat_lt_of_isDigit (h : c.isDigit = true) : c.toNat < 128 := by
  simp only [Char.isDigit, Bool.and_eq_true, decide_eq_true_eq] at h
  exact Nat.lt_of_le_of_lt h.2 (by decide)

theorem toNat_lt_of_isDigitOrBar (h : isDigitOrBar c = true) : c.toNat < 128 := by
  simp only [isDigitOrBar, Bool.or_eq_true, beq_iff_eq] at h
  obtain h | rfl := h
  · exact toNat_lt_of_isDigit h
  · decide

theorem toNat_lt_of_isHexDigit (h : isHexDigit c = true) : c.toNat < 128 := by
  simp only [isHexDigit, Bool.or_eq_true, Bool.and_eq_true, decide_eq_true_eq] at h
  obtain (h | ⟨-, h⟩) | ⟨-, h⟩ := h
  · exact toNat_lt_of_isDigit h
  · exact Nat.lt_of_le_of_lt h (by decide)
  · exact Nat.lt_of_le_of_lt h (by decide)

theorem takesNarrow_nothing (cs : List Char) : TakesNarrow cs ([], cs) :=
  ⟨rfl, by simp⟩

/-- Some characters, and then all that are of a kind. -/
theorem takesNarrow_while {isPart : Char → Bool} (hpart : ∀ c, isPart c = true → c.toNat < 128)
    (start : List Char) (hstart : ∀ c ∈ start, c.toNat < 128) (cs : List Char) :
    TakesNarrow (start ++ cs) (start ++ cs.takeWhile isPart, cs.dropWhile isPart) := by
  refine ⟨by rw [List.append_assoc, List.takeWhile_append_dropWhile], fun c hc => ?_⟩
  obtain hc | hc := List.mem_append.mp hc
  · exact hstart c hc
  · exact hpart c (List.mem_takeWhile_imp hc)

theorem TakesNarrow.append {first second : List Char × List Char} (h : TakesNarrow cs first)
    (h' : TakesNarrow first.2 second) : TakesNarrow cs (first.1 ++ second.1, second.2) := by
  refine ⟨by rw [List.append_assoc, ← h'.1, ← h.1], fun c hc => ?_⟩
  obtain hc | hc := List.mem_append.mp hc
  · exact h.2 c hc
  · exact h'.2 c hc

theorem takesNarrow_digits (cs : List Char) :
    TakesNarrow cs (cs.takeWhile isDigitOrBar, cs.dropWhile isDigitOrBar) :=
  takesNarrow_while (fun _ => toNat_lt_of_isDigitOrBar) [] (by simp) cs

theorem takesNarrow_scanFraction (cs : List Char) : TakesNarrow cs (scanFraction cs) := by
  unfold scanFraction
  split
  next rest =>
      exact takesNarrow_while (fun _ => toNat_lt_of_isDigitOrBar) ['.'] (by simp) rest
  next => exact takesNarrow_nothing cs

theorem takesNarrow_scanExponent (cs : List Char) : TakesNarrow cs (scanExponent cs) := by
  have hdigits := takesNarrow_while fun _ => toNat_lt_of_isDigitOrBar
  unfold scanExponent
  split
  next e rest =>
      split
      next he =>
          have hnarrow : e.toNat < 128 := by
            simp only [Bool.or_eq_true, beq_iff_eq] at he
            obtain rfl | rfl := he <;> decide
          split
          next s digits =>
              split
              next hs =>
                  have hsign : s.toNat < 128 := by
                    simp only [Bool.and_eq_true, Bool.or_eq_true, beq_iff_eq] at hs
                    obtain rfl | rfl := hs.1 <;> decide
                  exact hdigits [e, s] (by simp [hnarrow, hsign]) digits
              next =>
                  split
                  next => exact hdigits [e] (by simp [hnarrow]) (s :: digits)
                  next => exact takesNarrow_nothing _
          next => exact takesNarrow_nothing _
      next => exact takesNarrow_nothing _
  next => exact takesNarrow_nothing _

theorem takesNarrow_scanNumber (cs : List Char) : TakesNarrow cs (scanNumber cs) := by
  unfold scanNumber
  split
  next h =>
      have hpart : ∀ c, (isHexDigit c || c == '_') = true → c.toNat < 128 := by
        intro c hc
        rw [Bool.or_eq_true, beq_iff_eq] at hc
        obtain hc | rfl := hc
        · exact toNat_lt_of_isHexDigit hc
        · decide
      unfold hasBase at h
      split at h
      next b rest =>
          have hb : b.toNat < 128 := by
            simp only [List.contains_eq_mem, List.mem_cons, List.not_mem_nil, or_false,
              decide_eq_true_eq] at h
            obtain rfl | rfl | rfl | rfl | rfl | rfl := h <;> decide
          exact takesNarrow_while hpart ['0', b] (by simp [hb]) rest
      next => exact absurd h (by simp)
  next =>
      have hwhole := (takesNarrow_digits cs).append (takesNarrow_scanFraction _)
      exact hwhole.append (takesNarrow_scanExponent _)

end Numbers

/-- A name without escapes is what was taken. -/
theorem exists_taken_scanName (name : List Char) (isEscaped : Bool) (skip : Nat)
    (hskip : skip ≠ 0 → isEscaped = true) (cs : List Char) :
    ∃ taken, cs = taken ++ (scanName name isEscaped skip cs).2.2 ∧
      ((scanName name isEscaped skip cs).2.1 = false →
        isEscaped = false ∧ (scanName name isEscaped skip cs).1 = name.reverse ++ taken) := by
  fun_induction scanName name isEscaped skip cs with
  | case1 name isEscaped => exact ⟨[], rfl, by simp⟩
  | case2 name isEscaped c cs n ih =>
      obtain rfl := hskip (by simp)
      obtain ⟨taken, hcs, hname⟩ := ih fun _ => rfl
      exact ⟨c :: taken, by simpa using hcs, fun h => absurd (hname h).1 (by simp)⟩
  | case3 name isEscaped c cs hc d n hescape hd ih =>
      obtain ⟨taken, hcs, hname⟩ := ih fun _ => rfl
      exact ⟨c :: taken, by simpa using hcs, fun h => absurd (hname h).1 (by simp)⟩
  | case4 name isEscaped => exact ⟨[], rfl, by simp⟩
  | case5 name isEscaped => exact ⟨[], rfl, by simp⟩
  | case6 name isEscaped c cs _ _ ih =>
      obtain ⟨taken, hcs, hname⟩ := ih (by simp)
      exact ⟨c :: taken, by simpa using hcs, fun h => by simpa using hname h⟩
  | case7 name isEscaped => exact ⟨[], rfl, by simp⟩

theorem text_append_rest_scanString (quote : Char) (text cs : List Char) :
    (scanString quote text cs).text ++ (scanString quote text cs).rest = text.reverse ++ cs := by
  fun_induction scanString quote text cs
  all_goals simp_all

theorem append_eq_of_scanRegexBody {inClass : Bool} {text cs taken rest : List Char}
    (h : scanRegexBody inClass text cs = .ok (taken, rest)) :
    taken ++ rest = text.reverse ++ cs := by
  fun_induction scanRegexBody inClass text cs with
  | case1 | case2 | case4 => exact absurd h (by simp)
  | case3 inClass text c cs _ ih => simpa using ih h
  | case5 inClass text c cs =>
      obtain ⟨rfl, rfl⟩ := Prod.mk.inj (Except.ok.inj h)
      rw [List.append_assoc, List.takeWhile_append_dropWhile, List.reverse_cons, List.append_assoc]
      rfl
  | case6 inClass text c cs _ _ _ _ ih => simpa using ih h
  | case7 inClass text c cs _ _ _ _ _ ih => simpa using ih h
  | case8 inClass text c cs _ _ _ _ _ ih => simpa using ih h

/-- The mark at the end of a chunk of a template. -/
def ChunkEnd.written : ChunkEnd → List Char
  | .template => ['`']
  | .substitution => ['$', '\x7b']

theorem ChunkEnd.byteLength_written (ending : ChunkEnd) :
    byteLength ending.written = if ending = .template then 1 else 2 := by
  cases ending <;> rfl

theorem append_eq_of_scanChunk {text cs taken rest : List Char} {ending : ChunkEnd}
    (h : scanChunk text cs = some (taken, ending, rest)) :
    taken ++ (ending.written ++ rest) = text.reverse ++ cs := by
  fun_induction scanChunk text cs with
  | case1 text => exact absurd h (by simp)
  | case2 text c cs ih => simpa using ih h
  | case3 text cs =>
      cases h
      rfl
  | case4 text cs =>
      cases h
      rfl
  | case5 text c cs _ _ _ ih => simpa using ih h

theorem byteLength_of_mem_punctuators : ∀ p ∈ punctuators, byteLength p.toList = p.length := by
  decide

theorem append_eq_of_punctuator? {cs rest : List Char} {p : String}
    (h : punctuator? cs = some (p, rest)) :
    cs = p.toList ++ rest ∧ byteLength p.toList = p.length := by
  obtain ⟨q, hq, hfound⟩ := List.exists_of_findSome?_eq_some h
  split at hfound
  next tail htail =>
      split at hfound
      next => exact absurd hfound (by simp)
      next =>
          obtain ⟨rfl, rfl⟩ := Prod.mk.inj (Option.some.inj hfound)
          exact ⟨eq_append_of_after? htail, byteLength_of_mem_punctuators q hq⟩
  next => exact absurd hfound (by simp)

/-- A token stands at its span, which starts at the position where it was looked for; a mark is what
was taken. -/
def StandsAt (t : Token) (position : Nat) (taken : List Char) : Prop :=
  t.span = ⟨position, position + byteLength taken⟩ ∧
    ∀ p, t.kind = .punctuator p → taken = p.toList

/-- The width of a name, with or without escapes, and with what stands before it. -/
theorem exists_taken_name (before cs : List Char) :
    ∃ taken, before ++ cs = taken ++ (scanName [] false 0 cs).2.2 ∧
      (if (scanName [] false 0 cs).2.1 then
          width (before ++ cs) - width (scanName [] false 0 cs).2.2
        else width (scanName [] false 0 cs).1 + width before) = byteLength taken := by
  obtain ⟨taken, hcs, hname⟩ := exists_taken_scanName [] false 0 (by simp) cs
  have hall : before ++ cs = before ++ taken ++ (scanName [] false 0 cs).2.2 := by
    rw [List.append_assoc, ← hcs]
  refine ⟨before ++ taken, hall, ?_⟩
  split
  next =>
      rw [hall, width, width, byteLength_append]
      omega
  next h =>
      rw [(hname (Bool.eq_false_iff.mpr h)).2, width, width, byteLength_append before,
        Nat.add_comm]
      rfl

theorem exists_taken_of_scan {position : Nat} {afterBreak : Bool} {cs : List Char} {found : Scanned}
    (h : scan position afterBreak cs = .ok found) :
    ∃ taken, cs = taken ++ found.rest ∧ found.token.StandsAt position taken := by
  unfold scan at h
  dsimp only at h
  split at h
  next =>
      cases h
      exact ⟨[], rfl, rfl, by simp⟩
  next c tail =>
      -- One case for each class of the first character, in the order in which they are tried.
      split at h
      next =>
          obtain ⟨hcs, hnarrow⟩ := takesNarrow_scanNumber (c :: tail)
          have hwidth := byteLength_eq_length hnarrow
          split at h
          next rest hrest =>
              cases h
              refine ⟨(scanNumber (c :: tail)).1 ++ ['n'], ?_, ?_, by simp⟩
              · rw [List.append_assoc, List.singleton_append, ← hrest]
                exact hcs
              · rw [byteLength_append, hwidth]
                rfl
          next =>
              cases h
              exact ⟨_, hcs, by rw [hwidth], by simp⟩
      next =>
          split at h
          next =>
              obtain ⟨taken, hcs, hwidth⟩ := exists_taken_name [] (c :: tail)
              split at h
              next => exact absurd h (by simp)
              next =>
                  cases h
                  exact ⟨taken, hcs, by rw [← hwidth]; rfl, by simp⟩
          next =>
              split at h
              next hsharp =>
                  obtain rfl : c = '#' := by simpa using hsharp
                  obtain ⟨taken, hcs, hwidth⟩ := exists_taken_name ['#'] tail
                  cases h
                  exact ⟨taken, hcs, by rw [← hwidth]; rfl, by simp⟩
              next =>
                  split at h
                  next =>
                      split at h
                      next => exact absurd h (by simp)
                      next =>
                          cases h
                          have hcs := text_append_rest_scanString c [c] tail
                          exact ⟨_, hcs.symm, rfl, by simp⟩
                  next =>
                      split at h
                      next p rest hp =>
                          obtain ⟨hcs, hwidth⟩ := append_eq_of_punctuator? hp
                          cases h
                          exact ⟨p.toList, hcs, by rw [hwidth], by simp⟩
                      next => exact absurd h (by simp)

/-- A bad escape is reported where its backslash stands. -/
theorem exists_of_textFault? {allowOctal : Bool} {position : Nat} {cs : List Char} {f : Fault}
    (h : textFault? allowOctal position cs = some f) :
    ∃ before rest, cs = before ++ rest ∧ f.span.lo = position + byteLength before := by
  fun_induction textFault? allowOctal position cs with
  | case1 position c cs cause n hfault =>
      cases h
      exact ⟨[], _, rfl, rfl⟩
  | case2 position c cs hfault ih =>
      obtain ⟨before, rest, rfl, hlo⟩ := ih h
      refine ⟨'\\' :: c :: before, rest, rfl, ?_⟩
      have hslash : ('\\' : Char).utf8Size = 1 := rfl
      rw [hlo, byteLength_cons, byteLength_cons, hslash]
      omega
  | case3 position c cs _ ih =>
      obtain ⟨before, rest, rfl, hlo⟩ := ih h
      refine ⟨c :: before, rest, rfl, ?_⟩
      rw [hlo, byteLength_cons]
      omega
  | case4 => exact absurd h (by simp)

/-- What is wrong with a token is reported where it starts or where a character of it stands,
whether reading goes on or not. -/
theorem exists_of_scan_fault {position : Nat} {afterBreak : Bool} {cs : List Char} {f : Fault}
    (h : scan position afterBreak cs = .error f ∨
      ∃ found, scan position afterBreak cs = .ok found ∧ found.minor = some f) :
    ∃ before rest, cs = before ++ rest ∧ f.span.lo = position + byteLength before := by
  by_cases hlo : f.span.lo = position
  · exact ⟨[], cs, rfl, hlo⟩
  -- Only the escapes of a string literal are reported elsewhere.
  · obtain ⟨c, tail, rfl, hfault⟩ : ∃ c tail, cs = c :: tail ∧
        textFault? true position (scanString c [c] tail).text = some f := by
      unfold scan at h
      grind
    obtain ⟨before, rest, htext, hlo⟩ := exists_of_textFault? hfault
    refine ⟨before, rest ++ (scanString c [c] tail).rest, ?_, hlo⟩
    rw [← List.append_assoc, ← htext, text_append_rest_scanString]
    rfl

theorem exists_taken_of_scanRegex {position : Nat} {afterBreak : Bool} {tail : List Char}
    {found : Token × List Char} (h : scanRegex position afterBreak tail = .ok found) :
    ∃ taken, '/' :: tail = taken ++ found.2 ∧ found.1.StandsAt position taken := by
  unfold scanRegex at h
  split at h
  next text rest hbody =>
      cases h
      exact ⟨text, (append_eq_of_scanRegexBody hbody).symm, rfl, by simp⟩
  next => exact absurd h (by simp)

theorem lo_of_scanRegex_fault {position : Nat} {afterBreak : Bool} {tail : List Char} {f : Fault}
    (h : scanRegex position afterBreak tail = .error f) : f.span.lo = position := by
  unfold scanRegex at h
  split at h
  next => exact absurd h (by simp)
  next => cases h; rfl

end Token

end Contracts
