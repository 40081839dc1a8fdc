import Contracts.Json.Reader
import Contracts.Proofs.Json.Grammar
import Contracts.Proofs.Text.Runs
import Mathlib.Data.List.Forall2

/-!
# What a reader takes from a text

`JsonReader.Reads r cs a cs'` says that the reader `r` succeeds wherever the text `cs` is
left, that it gives `a` and that it leaves `cs'`; `JsonReader.Fails r cs fault` says that
it fails there with the fault. Neither says anything about the lines and columns that
are counted along the way. `JsonReader.GoesOn` says that a reader has come to another one,
and hands on what is known of this one, whether it reads or fails.

A string is read one piece after the other, and each spelling of a character gives this
character (`JsonReader.reads_escape`). The number of steps that a reader may make is
never used up, since each piece has at least one character.
-/

namespace Contracts

namespace JsonReader

variable {α β : Type} {cs cs' cs'' rest : List Char}

/-- Where the text `cs` is left, the reader gives `a` and leaves the text `cs'`. -/
def Reads (r : JsonReader α) (cs : List Char) (a : α) (cs' : List Char) : Prop :=
  ∀ c : JsonCursor, c.rest = cs → ∃ d, r c = .ok (a, d) ∧ d.rest = cs'

/-- Where the text `cs` is left, the reader fails. -/
def Fails (r : JsonReader α) (cs : List Char) (fault : JsonFault) : Prop :=
  ∀ c : JsonCursor, c.rest = cs → ∃ e, r c = .error e ∧ e.fault = fault

/-- Where the text `cs` is left, the reader goes on like another one where `cs'` is left. -/
def GoesOn (r : JsonReader α) (cs : List Char) (r' : JsonReader α) (cs' : List Char) : Prop :=
  ∀ c : JsonCursor, c.rest = cs → ∃ d, r c = r' d ∧ d.rest = cs'

section Steps

theorem Reads.goesOn {r : JsonReader α} {f : α → JsonReader β} {a : α} (h : Reads r cs a cs') :
    GoesOn (r >>= f) cs (f a) cs' := by
  intro c hc
  obtain ⟨d, hr, hd⟩ := h c hc
  refine ⟨d, ?_, hd⟩
  change (r c >>= fun p => f p.1 p.2) = _
  rw [hr]
  rfl

theorem GoesOn.trans {r r' r'' : JsonReader α} (h : GoesOn r cs r' cs')
    (h' : GoesOn r' cs' r'' cs'') : GoesOn r cs r'' cs'' := by
  intro c hc
  obtain ⟨d, hr, hd⟩ := h c hc
  obtain ⟨e, hr', he⟩ := h' d hd
  exact ⟨e, hr.trans hr', he⟩

theorem GoesOn.reads {r r' : JsonReader α} {a : α} (h : GoesOn r cs r' cs')
    (h' : Reads r' cs' a cs'') : Reads r cs a cs'' := by
  intro c hc
  obtain ⟨d, hr, hd⟩ := h c hc
  rw [hr]
  exact h' d hd

theorem GoesOn.fails {r r' : JsonReader α} {fault : JsonFault} (h : GoesOn r cs r' cs')
    (h' : Fails r' cs' fault) : Fails r cs fault := by
  intro c hc
  obtain ⟨d, hr, hd⟩ := h c hc
  rw [hr]
  exact h' d hd

theorem Reads.bind {r : JsonReader α} {f : α → JsonReader β} {a : α} {b : β}
    (h : Reads r cs a cs') (hf : Reads (f a) cs' b cs'') : Reads (r >>= f) cs b cs'' :=
  h.goesOn.reads hf

theorem Fails.bind {r : JsonReader α} {f : α → JsonReader β} {fault : JsonFault}
    (h : Fails r cs fault) : Fails (r >>= f) cs fault := by
  intro c hc
  obtain ⟨e, hr, he⟩ := h c hc
  refine ⟨e, ?_, he⟩
  change (r c >>= fun p => f p.1 p.2) = _
  rw [hr]
  rfl

theorem reads_pure (a : α) : Reads (pure a : JsonReader α) cs a cs :=
  fun c hc => ⟨c, rfl, hc⟩

theorem fails_fail (fault : JsonFault) : Fails (fail fault : JsonReader α) cs fault :=
  fun _ _ => ⟨_, rfl, rfl⟩

/-- A reader that looks at the cursor sees the text that is left. -/
theorem reads_get {f : JsonCursor → JsonReader α} {a : α}
    (h : ∀ c : JsonCursor, c.rest = cs → Reads (f c) cs a cs') : Reads (get >>= f) cs a cs' :=
  fun c hc => h c hc c hc

theorem fails_get {f : JsonCursor → JsonReader α} {fault : JsonFault}
    (h : ∀ c : JsonCursor, c.rest = cs → Fails (f c) cs fault) : Fails (get >>= f) cs fault :=
  fun c hc => h c hc c hc

theorem reads_peek : Reads peek cs cs.head? cs :=
  fun c hc => ⟨c, by rw [← hc]; rfl, hc⟩

theorem rest_stepOver (c : JsonCursor) : (stepOver c).rest = c.rest.tail := by
  unfold stepOver
  split
  next h => rw [h]; rfl
  next h => rw [h]; rfl
  next h => rw [h]; rfl

theorem reads_take {c : Char} : Reads take (c :: cs) () cs :=
  fun d hd => ⟨stepOver d, rfl, by rw [rest_stepOver, hd, List.tail_cons]⟩

theorem reads_next {c : Char} : Reads next (c :: cs) (some c) cs :=
  reads_peek.bind (reads_take.bind (reads_pure _))

end Steps

section Runs

variable {p : Char → Bool}

theorem rest_dropFront {n : Nat} {c : JsonCursor} (h : c.rest.length ≤ n) :
    (dropFront p n c).rest = c.rest.dropWhile p := by
  induction n generalizing c with
  | zero =>
      have hnil : c.rest = [] := List.length_eq_zero_iff.mp (Nat.le_zero.mp h)
      rw [dropFront, hnil]
      rfl
  | succ n ih =>
      rw [dropFront]
      cases hrest : c.rest with
      | nil =>
          rw [if_neg (by simp)]
          exact hrest
      | cons d ds =>
          rw [hrest, List.length_cons] at h
          split
          next hd =>
              have hp : p d = true := by simpa using hd
              rw [ih (by rw [rest_stepOver, hrest, List.tail_cons]; omega), rest_stepOver, hrest,
                List.tail_cons, List.dropWhile_cons_of_pos hp]
          next hd =>
              have hp : ¬ p d = true := by simpa using hd
              rw [hrest, List.dropWhile_cons_of_neg hp]

theorem rest_dropFront_all (n : Nat) (c : JsonCursor) :
    (dropFront (fun _ => true) n c).rest = c.rest.drop n := by
  induction n generalizing c with
  | zero => rfl
  | succ n ih =>
      rw [dropFront]
      cases hrest : c.rest with
      | nil =>
          rw [if_neg (by simp)]
          exact hrest
      | cons d ds =>
          rw [if_pos (by simp), ih, rest_stepOver, hrest, List.tail_cons, List.drop_succ_cons]

theorem reads_takeWhile_dropWhile : Reads (takeWhile p) cs () (cs.dropWhile p) :=
  fun c hc => ⟨dropFront p c.rest.length c, rfl, hc ▸ rest_dropFront (Nat.le_refl _)⟩

/-- A run of characters is taken up to a character of another kind. -/
theorem reads_takeWhile {run : List Char} (hrun : ∀ c ∈ run, p c = true)
    (hrest : ∀ c ∈ rest.head?, p c = false) : Reads (takeWhile p) (run ++ rest) () rest := by
  have hread : Reads (takeWhile p) (run ++ rest) () ((run ++ rest).dropWhile p) :=
    reads_takeWhile_dropWhile
  rwa [Text.dropWhile_append_of_head? hrun hrest] at hread

theorem isBlank_of_isBlanks {blanks : List Char} (h : Json.IsBlanks blanks) :
    ∀ c ∈ blanks, isBlank c = true := by
  intro c hc
  rcases h c hc with rfl | rfl | rfl | rfl <;> rfl

theorem reads_peekAfterBlanks {blanks : List Char} (hblanks : Json.IsBlanks blanks)
    (hrest : ∀ c ∈ rest.head?, isBlank c = false) :
    Reads peekAfterBlanks (blanks ++ rest) rest.head? rest :=
  (reads_takeWhile (isBlank_of_isBlanks hblanks) hrest).bind reads_peek

/-- Blanks are passed over in front of a character that is none. -/
theorem reads_peekAfterBlanks_cons {blanks : List Char} (hblanks : Json.IsBlanks blanks) {c : Char}
    (hc : isBlank c = false) : Reads peekAfterBlanks (blanks ++ c :: cs) (some c) (c :: cs) :=
  reads_peekAfterBlanks hblanks fun _ hd => Option.some.inj hd ▸ hc

theorem reads_word (letters : List Char) : Reads (word letters) (letters ++ rest) () rest := by
  induction letters with
  | nil => exact reads_pure ()
  | cons letter letters ih =>
      rw [List.cons_append]
      refine reads_next.bind ?_
      dsimp only
      rw [if_pos rfl]
      exact ih

end Runs

section Escapes

theorem length_le_byteLength (cs : List Char) : cs.length ≤ Text.byteLength cs := by
  induction cs with
  | nil => exact Nat.le_refl _
  | cons c cs ih =>
      have hc := c.utf8Size_pos
      rw [List.length_cons, Text.byteLength_cons]
      omega

theorem reads_fourDigits {digits : List Char} {n : Nat} (h : Json.IsQuad digits n) :
    Reads fourDigits (digits ++ rest) n rest := by
  refine reads_get fun c hc => ?_
  have htake : c.rest.take 4 = digits := by
    rw [hc, ← h.length_eq, List.take_left]
  have hbytes := length_le_byteLength digits
  rw [h.length_eq] at hbytes
  have hall : digits.all Text.isHexDigit = true := List.all_eq_true.mpr h.isHexDigit
  dsimp only
  rw [htake, if_neg (by omega), if_pos hall, h.number_eq]
  intro d _
  refine ⟨dropFront (fun _ => true) 4 c, rfl, ?_⟩
  rw [rest_dropFront_all, hc, ← h.length_eq, List.drop_left]

theorem simpleEscape?_eq {letter c : Char} (h : (letter, c) ∈ Json.shortEscapes) :
    letter ≠ 'u' ∧ simpleEscape? letter = some c := by
  simp only [Json.shortEscapes, List.mem_cons, Prod.mk.injEq, List.not_mem_nil, or_false] at h
  rcases h with ⟨rfl, rfl⟩ | ⟨rfl, rfl⟩ | ⟨rfl, rfl⟩ | ⟨rfl, rfl⟩ | ⟨rfl, rfl⟩ | ⟨rfl, rfl⟩ |
    ⟨rfl, rfl⟩ | ⟨rfl, rfl⟩ <;> decide

theorem reads_pairMark (mark : Char) : Reads (pairMark mark) (mark :: cs) () cs := by
  refine reads_peek.bind ?_
  refine reads_take.bind ?_
  rw [if_pos rfl]
  exact reads_pure ()

theorem toNat_lt (c : Char) : c.toNat < 0x110000 := by
  have hvalid := c.valid
  simp only [UInt32.isValidChar, Nat.isValidChar] at hvalid
  simp only [Char.toNat]
  omega

/-- No character is half of a surrogate pair. -/
theorem isHalf_toNat (c : Char) :
    Text.isLowHalf c.toNat = false ∧ Text.isHighHalf c.toNat = false := by
  have hvalid := c.valid
  simp only [UInt32.isValidChar, Nat.isValidChar] at hvalid
  simp only [Text.isLowHalf, Text.isHighHalf, Bool.and_eq_false_iff, decide_eq_false_iff_not,
    Char.toNat]
  omega

/-- The escapes of the units of a character give the character. -/
theorem reads_units {c : Char} {quads : List (List Char)} {text : List Char}
    (h : List.Forall₂ Json.IsQuad quads (Text.charUnits c))
    (htext : '\\' :: text = quads.flatMap fun digits => '\\' :: 'u' :: digits) :
    Reads escape (text ++ rest) c rest := by
  unfold Text.charUnits at h
  split at h
  next hsmall =>
      obtain ⟨digits, quads, hdigits, hquads, rfl⟩ := List.forall₂_cons_right_iff.mp h
      obtain rfl := List.forall₂_nil_right_iff.mp hquads
      obtain ⟨hlow, hhigh⟩ := isHalf_toNat c
      obtain rfl : text = 'u' :: digits := by simpa using htext
      refine reads_next.bind ((reads_fourDigits hdigits).bind ?_)
      rw [if_neg (by simp [hlow]), if_neg (by simp [hhigh]), Char.ofNat_toNat]
      exact reads_pure c
  next hlarge =>
      obtain ⟨first, quads, hfirst, hquads, rfl⟩ := List.forall₂_cons_right_iff.mp h
      obtain ⟨second, none, hsecond, hnone, rfl⟩ := List.forall₂_cons_right_iff.mp hquads
      obtain rfl := List.forall₂_nil_right_iff.mp hnone
      obtain rfl : text = 'u' :: (first ++ '\\' :: 'u' :: second) := by simpa using htext
      have hbound := toNat_lt c
      rw [List.cons_append, List.append_assoc]
      refine reads_next.bind ((reads_fourDigits hfirst).bind ?_)
      rw [if_neg (by simp [Text.isLowHalf]; omega), if_pos (by simp [Text.isHighHalf]; omega)]
      refine (reads_pairMark _).bind ((reads_pairMark _).bind ((reads_fourDigits hsecond).bind ?_))
      have hwhole : 0x10000 + (0xD800 + (c.toNat - 0x10000) / 0x400 - 0xD800) * 0x400 +
          (0xDC00 + (c.toNat - 0x10000) % 0x400 - 0xDC00) = c.toNat := by omega
      rw [if_pos (by simp [Text.isLowHalf]; omega), hwhole, Char.ofNat_toNat]
      exact reads_pure c

/-- What follows the backslash of a spelling is read as the character. -/
theorem reads_escape {c : Char} {text : List Char} (h : Json.Spells c ('\\' :: text)) :
    Reads escape (text ++ rest) c rest := by
  generalize htext : '\\' :: text = piece at h
  cases h with
  | plain hplain => exact absurd (List.cons.inj htext).1.symm hplain.ne_backslash
  | @short letter _ hshort =>
      obtain ⟨hu, hsimple⟩ := simpleEscape?_eq hshort
      obtain rfl : text = [letter] := by simpa using htext
      refine reads_next.bind ?_
      split
      next heq => exact absurd heq (by simp)
      next heq => exact absurd (Option.some.inj heq) hu
      next letter' _ heq =>
          obtain rfl := Option.some.inj heq
          rw [hsimple]
          exact reads_pure c
  | units hunits => exact reads_units hunits htext

end Escapes

section Strings

/-- A spelling of a character is the character itself, or it starts with a backslash. -/
theorem spells_cases {c : Char} {piece : List Char} (h : Json.Spells c piece) :
    (piece = [c] ∧ Json.IsPlain c) ∨ ∃ text, piece = '\\' :: text := by
  cases h with
  | plain hplain => exact .inl ⟨rfl, hplain⟩
  | short => exact .inr ⟨_, rfl⟩
  | units hunits =>
      unfold Text.charUnits at hunits
      split at hunits
      next =>
          obtain ⟨digits, quads, -, -, rfl⟩ := List.forall₂_cons_right_iff.mp hunits
          exact .inr ⟨_, rfl⟩
      next =>
          obtain ⟨digits, quads, -, -, rfl⟩ := List.forall₂_cons_right_iff.mp hunits
          exact .inr ⟨_, rfl⟩

/-- The pieces of a string give its characters, behind those that were read before. -/
theorem reads_stringWithin (read : List Char) {chars : List Char} {pieces : List (List Char)}
    {n : Nat} (h : List.Forall₂ Json.Spells chars pieces) (hn : chars.length < n) :
    Reads (stringWithin read n) (pieces.flatten ++ '"' :: rest)
      (String.ofList (read.reverse ++ chars)) rest := by
  induction h generalizing read n with
  | nil =>
      obtain ⟨n, rfl⟩ := Nat.exists_eq_add_one_of_ne_zero (Nat.ne_of_gt hn)
      refine reads_peek.bind (reads_take.bind ?_)
      rw [if_pos rfl, List.append_nil]
      exact reads_pure _
  | @cons c piece chars pieces hpiece _ ih =>
      obtain ⟨n, rfl⟩ := Nat.exists_eq_add_one_of_ne_zero (Nat.ne_of_gt (Nat.lt_of_le_of_lt
        (Nat.zero_le _) hn))
      have hrest := ih (c :: read) (n := n) (by simpa using hn)
      rw [List.reverse_cons, List.append_assoc, List.singleton_append] at hrest
      rw [List.flatten_cons, List.append_assoc]
      obtain ⟨rfl, hplain⟩ | ⟨text, rfl⟩ := spells_cases hpiece
      · refine reads_peek.bind (reads_take.bind ?_)
        rw [if_neg hplain.ne_quote, if_neg hplain.ne_backslash,
          if_neg (Nat.not_lt.mpr hplain.not_control)]
        exact hrest
      · refine reads_peek.bind (reads_take.bind ?_)
        rw [if_neg (by decide), if_pos rfl]
        exact (reads_escape hpiece).bind hrest

theorem length_le_length_flatten {pieces : List (List Char)} (h : ∀ p ∈ pieces, p ≠ []) :
    pieces.length ≤ pieces.flatten.length := by
  induction pieces with
  | nil => exact Nat.le_refl _
  | cons piece pieces ih =>
      rw [List.forall_mem_cons] at h
      have hpos := List.length_pos_of_ne_nil h.1
      have hrest := ih h.2
      rw [List.length_cons, List.flatten_cons, List.length_append]
      omega

theorem ne_nil_of_spells {chars : List Char} {pieces : List (List Char)}
    (h : List.Forall₂ Json.Spells chars pieces) : ∀ p ∈ pieces, p ≠ [] := by
  induction h with
  | nil => simp
  | cons hpiece _ ih =>
      refine List.forall_mem_cons.mpr ⟨?_, ih⟩
      obtain ⟨rfl, -⟩ | ⟨text, rfl⟩ := spells_cases hpiece <;> simp

theorem reads_stringRest {s : String} {text : List Char} (h : Json.Denotes ('"' :: text) s) :
    Reads stringRest (text ++ rest) s rest := by
  obtain ⟨pieces, hpieces, htext⟩ := h
  obtain rfl : text = pieces.flatten ++ ['"'] := (List.cons.inj htext).2
  refine reads_get fun c hc => ?_
  have hlength := length_le_length_flatten (ne_nil_of_spells hpieces)
  rw [← hpieces.length_eq] at hlength
  have hn : s.toList.length < c.rest.length + 1 := by
    rw [hc, List.length_append, List.length_append]
    omega
  have hs : String.ofList ([].reverse ++ s.toList) = s := String.ofList_toList
  rw [List.append_assoc, ← hs]
  exact reads_stringWithin [] hpieces hn

end Strings

section Values

variable {blanks : List Char}

theorem reads_string {text : List Char} {s : String} (h : Json.Denotes text s)
    (hblanks : Json.IsBlanks blanks) : Reads string (blanks ++ (text ++ rest)) s rest := by
  obtain ⟨pieces, hpieces, rfl⟩ := h
  refine (reads_peekAfterBlanks_cons hblanks rfl).bind (reads_take.bind ?_)
  exact reads_stringRest ⟨pieces, hpieces, rfl⟩

theorem reads_optionalString_null (hblanks : Json.IsBlanks blanks) :
    Reads optionalString (blanks ++ (['n', 'u', 'l', 'l'] ++ rest)) none rest := by
  refine (reads_peekAfterBlanks_cons hblanks rfl).bind (reads_take.bind ?_)
  exact (reads_word _).bind (reads_pure none)

theorem reads_optionalString_some {text : List Char} {s : String} (h : Json.Denotes text s)
    (hblanks : Json.IsBlanks blanks) :
    Reads optionalString (blanks ++ (text ++ rest)) (some s) rest := by
  obtain ⟨pieces, hpieces, rfl⟩ := h
  refine (reads_peekAfterBlanks_cons hblanks rfl).bind ?_
  exact (reads_string ⟨pieces, hpieces, rfl⟩ Json.isBlanks_nil).bind (reads_pure (some s))

theorem reads_boolean_true (hblanks : Json.IsBlanks blanks) :
    Reads boolean (blanks ++ (['t', 'r', 'u', 'e'] ++ rest)) true rest := by
  refine (reads_peekAfterBlanks_cons hblanks rfl).bind (reads_take.bind ?_)
  exact (reads_word _).bind (reads_pure true)

theorem reads_boolean_false (hblanks : Json.IsBlanks blanks) :
    Reads boolean (blanks ++ (['f', 'a', 'l', 's', 'e'] ++ rest)) false rest := by
  refine (reads_peekAfterBlanks_cons hblanks rfl).bind (reads_take.bind ?_)
  exact (reads_word _).bind (reads_pure false)

end Values

section Objects

variable {blanks : List Char}

theorem reads_colon (hblanks : Json.IsBlanks blanks) :
    Reads colon (blanks ++ ':' :: rest) () rest :=
  (reads_peekAfterBlanks_cons hblanks rfl).bind reads_take

/-- What stands in front of the blanks before a key: nothing if it is the first, and else a comma
with the blanks behind the last value. -/
inductive Opens : Bool → List Char → Prop
  | first : Opens true []
  | later {behind : List Char} (hbehind : Json.IsBlanks behind) : Opens false (behind ++ [','])

theorem reads_nextKey? {isFirst : Bool} {front key : List Char} {name : String}
    (hfront : Opens isFirst front) (hblanks : Json.IsBlanks blanks) (hkey : Json.Denotes key name) :
    Reads (nextKey? isFirst) (front ++ (blanks ++ (key ++ rest))) (some name) rest := by
  obtain ⟨pieces, hpieces, rfl⟩ := hkey
  have hname : Reads (do return some (← stringRest)) (pieces.flatten ++ ['"'] ++ rest) (some name)
      rest := (reads_stringRest ⟨pieces, hpieces, rfl⟩).bind (reads_pure (some name))
  cases hfront with
  | first =>
      refine (reads_peekAfterBlanks_cons hblanks rfl).bind ((reads_pure _).bind ?_)
      exact reads_take.bind hname
  | later hbehind =>
      rw [List.append_assoc, List.singleton_append]
      refine (reads_peekAfterBlanks_cons hbehind rfl).bind (reads_take.bind ?_)
      refine (reads_peekAfterBlanks_cons hblanks rfl).bind ?_
      exact reads_take.bind hname

theorem reads_nextKey?_end (isFirst : Bool) (hblanks : Json.IsBlanks blanks) :
    Reads (nextKey? isFirst) (blanks ++ '\x7d' :: rest) none ('\x7d' :: rest) :=
  (reads_peekAfterBlanks_cons hblanks rfl).bind (reads_pure none)

theorem reads_endObject : Reads endObject ('\x7d' :: rest) () rest :=
  (reads_peekAfterBlanks_cons Json.isBlanks_nil rfl).bind reads_take

end Objects

section Texts

variable {r : JsonReader α} {text : String}

theorem ofText_eq_ok {a : α} (h : Reads r text.toList a rest) (hrest : Json.IsBlanks rest) :
    ofText r text = .ok a := by
  have hpeek : Reads peekAfterBlanks (rest ++ []) none [] :=
    reads_peekAfterBlanks hrest (by simp)
  rw [List.append_nil] at hpeek
  have hend : Reads endText rest () [] := hpeek.bind (reads_pure ())
  have hwhole : Reads (do let a ← r; endText; return a) text.toList a [] :=
    h.bind (hend.bind (reads_pure a))
  obtain ⟨d, hd, -⟩ := hwhole ⟨text.toList, 1, 0⟩ rfl
  exact congrArg (Except.map Prod.fst) hd

theorem ofText_eq_error {fault : JsonFault} (h : Fails r text.toList fault) :
    ∃ e, ofText r text = .error e ∧ e.fault = fault := by
  have hwhole : Fails (do let a ← r; endText; return a) text.toList fault := h.bind
  obtain ⟨e, he, hfault⟩ := hwhole ⟨text.toList, 1, 0⟩ rfl
  exact ⟨e, congrArg (Except.map Prod.fst) he, hfault⟩

end Texts

end JsonReader

end Contracts
