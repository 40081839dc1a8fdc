import Contracts.Pattern.SExpr
import Contracts.Proofs.Text.Runs

/-!
# The grammar of s-expressions

`SExpr.Spelled offset text e` says that `text` is the s-expression `e` where it starts at the byte
offset: a run of plain characters is a symbol, and items in parentheses are a list. Blanks may stand
around the items but need not; a symbol goes on as far as it can, so that no plain character follows
it.

The reader itself knows no grammar. It cuts the text into lexemes and keeps a stack of open lists.
The two meet in `SExpr.Spelled.ofLexemes_eq`: with any lists open and any text behind it, a spelled
text is handed to the innermost open list as its s-expression. In the other direction
`SExpr.exists_spelledItems` cuts every text into items and a rest at which they stop.
-/

namespace Contracts

namespace SExpr

/-- Symbols are made of the characters that are neither blank nor parentheses. -/
def isPlain (c : Char) : Bool :=
  !Text.isBlank c && c != '(' && c != ')'

/-- An s-expression comes to its end before `rest`: a symbol does not before a plain character. -/
def EndsBefore (rest : List Char) : SExpr → Prop
  | .symbol _ _ => ∀ c ∈ rest.head?, isPlain c = false
  | .list _ _ => True

mutual

/-- The text is the s-expression, with the offsets that it has where the text starts at `offset`. -/
inductive Spelled : Nat → List Char → SExpr → Prop where
  | symbol {offset : Nat} {run : List Char} (hrun : run ≠ [])
      (hplain : ∀ c ∈ run, isPlain c = true) :
      Spelled offset run (.symbol (String.ofList run) offset)
  | list {offset : Nat} {text : List Char} {items : List SExpr}
      (hitems : SpelledItems (offset + 1) text items) :
      Spelled offset ('(' :: (text ++ [')'])) (.list items offset)

/-- The text is the s-expressions one after the other, with blanks before each of them and behind
the last. -/
inductive SpelledItems : Nat → List Char → List SExpr → Prop where
  | nil {offset : Nat} {blanks : List Char} (hblanks : ∀ c ∈ blanks, Text.isBlank c = true) :
      SpelledItems offset blanks []
  | cons {offset : Nat} {blanks text rest : List Char} {e : SExpr} {es : List SExpr}
      (hblanks : ∀ c ∈ blanks, Text.isBlank c = true)
      (hfirst : Spelled (offset + Text.byteLength blanks) text e) (hends : e.EndsBefore rest)
      (hrest : SpelledItems (offset + Text.byteLength blanks + Text.byteLength text) rest es) :
      SpelledItems offset (blanks ++ (text ++ rest)) (e :: es)

end

theorem isPlain_of_isBlank {c : Char} (h : Text.isBlank c = true) : isPlain c = false := by
  rw [isPlain, h]
  rfl

theorem isPlain_eq_true_iff {c : Char} :
    isPlain c = true ↔ Text.isBlank c = false ∧ c ≠ '(' ∧ c ≠ ')' := by
  rw [isPlain, Bool.and_eq_true, Bool.and_eq_true, bne_iff_ne, bne_iff_ne, Bool.not_eq_true',
    and_assoc]

theorem EndsBefore.of_head? {rest : List Char} (h : ∀ c ∈ rest.head?, isPlain c = false)
    (e : SExpr) : e.EndsBefore rest := by
  cases e with
  | symbol name offset => exact h
  | list items offset => trivial

theorem EndsBefore.of_blank {rest : List Char} (h : ∀ c ∈ rest, Text.isBlank c = true)
    (e : SExpr) : e.EndsBefore rest :=
  .of_head? (fun c hc => isPlain_of_isBlank (h c (List.mem_of_mem_head? hc))) e

theorem EndsBefore.append {e : SExpr} {text rest : List Char} (h : e.EndsBefore text)
    (hrest : ∀ c ∈ rest.head?, isPlain c = false) : e.EndsBefore (text ++ rest) := by
  cases text with
  | nil => exact .of_head? hrest e
  | cons c text =>
      cases e with
      | symbol name offset => exact h
      | list items offset => trivial

section Lexemes

variable {run cs rest : List Char} {start offset : Nat}

theorem lexemesFrom_plain (h : ∀ c ∈ cs, isPlain c = true) :
    lexemesFrom run start offset (cs ++ rest) =
      lexemesFrom (cs.reverse ++ run) (if run.isEmpty ∧ cs ≠ [] then offset else start)
        (offset + Text.byteLength cs) rest := by
  induction cs generalizing run start offset with
  | nil => simp
  | cons c cs ih =>
      rw [List.forall_mem_cons] at h
      obtain ⟨hblank, hopen, hclose⟩ := isPlain_eq_true_iff.mp h.1
      rw [List.cons_append, lexemesFrom, hblank, if_neg Bool.false_ne_true, if_neg hopen,
        if_neg hclose, ih h.2]
      cases run <;> simp [Nat.add_assoc]

/-- A symbol ends where the text does, or before a character that is not plain. -/
theorem lexemesFrom_ended (h : ∀ c ∈ rest.head?, isPlain c = false) :
    lexemesFrom run start offset rest =
      symbolOf run start ++ lexemesFrom [] offset offset rest := by
  cases rest with
  | nil => simp [lexemesFrom, symbolOf]
  | cons c cs =>
      have hc : isPlain c = false := h c rfl
      rw [lexemesFrom, lexemesFrom]
      by_cases hblank : Text.isBlank c = true
      · rw [if_pos hblank, if_pos hblank]
        rfl
      by_cases hopen : c = '('
      · rw [if_neg hblank, if_neg hblank, if_pos hopen, if_pos hopen]
        rfl
      by_cases hclose : c = ')'
      · rw [if_neg hblank, if_neg hblank, if_neg hopen, if_neg hopen, if_pos hclose, if_pos hclose]
        rfl
      simp [isPlain, hblank, hopen, hclose] at hc

/-- A run of plain characters is one symbol. -/
theorem lexemesFrom_run (hcs : cs ≠ []) (hplain : ∀ c ∈ cs, isPlain c = true)
    (hrest : ∀ c ∈ rest.head?, isPlain c = false) :
    lexemesFrom [] start offset (cs ++ rest) =
      .symbol (String.ofList cs) offset ::
        lexemesFrom [] (offset + Text.byteLength cs) (offset + Text.byteLength cs) rest := by
  rw [lexemesFrom_plain hplain, lexemesFrom_ended hrest, symbolOf]
  simp [hcs]

theorem lexemesFrom_blanks (h : ∀ c ∈ cs, Text.isBlank c = true) :
    lexemesFrom [] offset offset (cs ++ rest) =
      lexemesFrom [] (offset + Text.byteLength cs) (offset + Text.byteLength cs) rest := by
  induction cs generalizing offset with
  | nil => rfl
  | cons c cs ih =>
      rw [List.forall_mem_cons] at h
      rw [List.cons_append, lexemesFrom, if_pos h.1, Text.byteLength_cons, ← Nat.add_assoc]
      exact ih h.2

theorem lexemesFrom_of_blank (h : ∀ c ∈ cs, Text.isBlank c = true) :
    lexemesFrom [] offset offset cs = [] := by
  have hlexemes := @lexemesFrom_blanks cs [] offset h
  rwa [List.append_nil] at hlexemes

@[simp] theorem lexemesFrom_opening (offset : Nat) (cs : List Char) :
    lexemesFrom [] start offset ('(' :: cs) =
      .opening offset :: lexemesFrom [] (offset + 1) (offset + 1) cs := rfl

@[simp] theorem lexemesFrom_closing (offset : Nat) (cs : List Char) :
    lexemesFrom [] start offset (')' :: cs) =
      .closing offset :: lexemesFrom [] (offset + 1) (offset + 1) cs := rfl

end Lexemes

/-- Go on with lexemes after an s-expression was handed over. -/
def resume : Delivery → List Lexeme → Except PatternError SExpr
  | .within stack, ls => ofLexemes stack ls
  | .complete e, ls => ofLexemes.finish e ls

theorem ofLexemes_symbol (stack : List Frame) (name : String) (offset : Nat) (ls : List Lexeme) :
    ofLexemes stack (.symbol name offset :: ls) =
      resume (deliver (.symbol name offset) stack) ls := by
  rw [ofLexemes]
  cases deliver (.symbol name offset) stack <;> rfl

theorem ofLexemes_closing (frame : Frame) (stack : List Frame) (offset : Nat) (ls : List Lexeme) :
    ofLexemes (frame :: stack) (.closing offset :: ls) =
      resume (deliver (.list frame.items.reverse frame.offset) stack) ls := by
  rw [ofLexemes]
  cases deliver (.list frame.items.reverse frame.offset) stack <;> rfl

mutual

/-- A spelled text is read as its s-expression, whatever lists are open and whatever follows. -/
theorem Spelled.ofLexemes_eq {offset : Nat} {text : List Char} {e : SExpr}
    (h : Spelled offset text e) (stack : List Frame) {rest : List Char}
    (hrest : e.EndsBefore rest) :
    ofLexemes stack (lexemesFrom [] offset offset (text ++ rest)) =
      resume (deliver e stack) (lexemesFrom [] (offset + Text.byteLength text)
        (offset + Text.byteLength text) rest) := by
  match h with
  | .symbol hrun hplain => rw [lexemesFrom_run hrun hplain hrest, ofLexemes_symbol]
  | @Spelled.list _ inner _ hitems =>
      have hwidth : offset + Text.byteLength ('(' :: (inner ++ [')'])) =
          offset + 1 + Text.byteLength inner + 1 := by
        rw [Text.byteLength_cons, Text.byteLength_append]
        simp [Char.utf8Size]
        omega
      have hclosing : ∀ c ∈ (')' :: rest).head?, isPlain c = false := by
        rintro _ ⟨⟩
        rfl
      rw [hwidth, List.cons_append, List.append_assoc, List.singleton_append, lexemesFrom_opening,
        ofLexemes, SpelledItems.ofLexemes_eq hitems ⟨offset, []⟩ stack hclosing,
        lexemesFrom_closing, ofLexemes_closing, List.append_nil, List.reverse_reverse]

/-- Spelled items are added to the innermost open list. -/
theorem SpelledItems.ofLexemes_eq {offset : Nat} {text : List Char} {es : List SExpr}
    (h : SpelledItems offset text es) (frame : Frame) (stack : List Frame) {rest : List Char}
    (hrest : ∀ c ∈ rest.head?, isPlain c = false) :
    ofLexemes (frame :: stack) (lexemesFrom [] offset offset (text ++ rest)) =
      ofLexemes (⟨frame.offset, es.reverse ++ frame.items⟩ :: stack)
        (lexemesFrom [] (offset + Text.byteLength text) (offset + Text.byteLength text) rest) := by
  match h with
  | .nil hblanks =>
      rw [lexemesFrom_blanks hblanks]
      rfl
  | @SpelledItems.cons _ blanks first others _ _ hblanks hfirst hends hothers =>
      have hwidth : offset + Text.byteLength (blanks ++ (first ++ others)) =
          offset + Text.byteLength blanks + Text.byteLength first + Text.byteLength others := by
        simp only [Text.byteLength_append, Nat.add_assoc]
      rw [hwidth, List.append_assoc, List.append_assoc, lexemesFrom_blanks hblanks,
        Spelled.ofLexemes_eq hfirst _ (hends.append hrest), deliver, resume,
        SpelledItems.ofLexemes_eq hothers _ _ hrest, List.reverse_cons, List.append_assoc,
        List.singleton_append]

end

section Parentheses

/-- A parenthesis that opens a list before `rest` is never closed in it: `rest` nowhere closes more
lists than it has opened. -/
def NeverClosed (rest : List Char) : Prop :=
  ∀ n, (rest.take n).count ')' ≤ (rest.take n).count '('

/-- The last parenthesis that is never closed in a text stands at the byte offset. -/
def LastUnclosed (cs : List Char) (offset : Nat) : Prop :=
  ∃ before rest, cs = before ++ '(' :: rest ∧ offset = Text.byteLength before ∧
    NeverClosed rest ∧ ∀ between inner, rest = between ++ '(' :: inner → ¬ NeverClosed inner

/-- All lists that are opened are closed, and no others. -/
structure Balanced (cs : List Char) : Prop where
  neverClosed : NeverClosed cs
  count_eq : cs.count ')' = cs.count '('

theorem count_opening (cs : List Char) :
    ('(' :: cs).count '(' = cs.count '(' + 1 ∧ ('(' :: cs).count ')' = cs.count ')' :=
  ⟨List.count_cons_self, List.count_cons_of_ne (by decide)⟩

variable {cs ds : List Char}

theorem NeverClosed.append (hcs : NeverClosed cs) (hds : NeverClosed ds) :
    NeverClosed (cs ++ ds) := by
  intro n
  rw [List.take_append, List.count_append, List.count_append]
  exact Nat.add_le_add (hcs n) (hds _)

theorem NeverClosed.of_append (h : NeverClosed (cs ++ ds)) : NeverClosed cs := by
  intro n
  have hn := h (min n cs.length)
  rwa [List.take_append_of_le_length (Nat.min_le_right n cs.length), ← List.take_take,
    List.take_length] at hn

theorem NeverClosed.opening (h : NeverClosed cs) : NeverClosed ('(' :: cs) := by
  intro n
  cases n with
  | zero => exact Nat.le_refl 0
  | succ n =>
      rw [List.take_succ_cons, (count_opening _).1, (count_opening _).2]
      exact Nat.le_succ_of_le (h n)

theorem NeverClosed.count_le (h : NeverClosed cs) : cs.count ')' ≤ cs.count '(' := by
  have hwhole := h cs.length
  rwa [List.take_length] at hwhole

/-- A list that is closed after some balanced text was open before. -/
theorem Balanced.not_neverClosed_closing (h : Balanced cs) (rest : List Char) :
    ¬ NeverClosed (cs ++ ')' :: rest) := by
  intro hclosing
  rw [List.append_cons] at hclosing
  have hle := hclosing.of_append.count_le
  rw [List.count_append, List.count_append, h.count_eq] at hle
  exact absurd hle (by simp)

/-- No parenthesis of a balanced text is left open. -/
theorem Balanced.not_neverClosed {between inner : List Char}
    (h : Balanced (between ++ '(' :: inner)) : ¬ NeverClosed inner := by
  intro hinner
  have hbetween := h.neverClosed.of_append.count_le
  have hle := hinner.count_le
  have hcount := h.count_eq
  rw [List.count_append, List.count_append, (count_opening _).1, (count_opening _).2] at hcount
  omega

theorem Balanced.append (hcs : Balanced cs) (hds : Balanced ds) : Balanced (cs ++ ds) := by
  refine ⟨hcs.neverClosed.append hds.neverClosed, ?_⟩
  rw [List.count_append, List.count_append, hcs.count_eq, hds.count_eq]

theorem balanced_of_not_mem (hopen : '(' ∉ cs) (hclose : ')' ∉ cs) : Balanced cs := by
  refine ⟨fun n => ?_, ?_⟩
  · rw [List.count_eq_zero_of_not_mem fun h => hclose (List.mem_of_mem_take h)]
    exact Nat.zero_le _
  · rw [List.count_eq_zero_of_not_mem hclose, List.count_eq_zero_of_not_mem hopen]

theorem balanced_of_blank (h : ∀ c ∈ cs, Text.isBlank c = true) : Balanced cs :=
  balanced_of_not_mem (fun hmem => absurd (h _ hmem) (by decide))
    fun hmem => absurd (h _ hmem) (by decide)

theorem Balanced.parenthesized (h : Balanced cs) : Balanced ('(' :: (cs ++ [')'])) := by
  refine ⟨fun n => ?_, ?_⟩
  · cases n with
    | zero => exact Nat.le_refl 0
    | succ n =>
        have hclosing : ([')'].take (n - cs.length)).count ')' ≤ 1 :=
          (List.take_sublist _ [')']).count_le ')'
        have hn := h.neverClosed n
        rw [List.take_succ_cons, (count_opening _).1, (count_opening _).2, List.take_append,
          List.count_append, List.count_append]
        omega
  · rw [(count_opening _).1, (count_opening _).2, List.count_append, List.count_append, h.count_eq]
    rfl

mutual

theorem Spelled.balanced {offset : Nat} {text : List Char} {e : SExpr}
    (h : Spelled offset text e) : Balanced text := by
  match h with
  | .symbol hrun hplain =>
      exact balanced_of_not_mem (fun hmem => absurd (hplain _ hmem) (by decide))
        fun hmem => absurd (hplain _ hmem) (by decide)
  | .list hitems => exact (SpelledItems.balanced hitems).parenthesized

theorem SpelledItems.balanced {offset : Nat} {text : List Char} {es : List SExpr}
    (h : SpelledItems offset text es) : Balanced text := by
  match h with
  | .nil hblanks => exact balanced_of_blank hblanks
  | .cons hblanks hfirst _ hrest =>
      exact (balanced_of_blank hblanks).append
        ((Spelled.balanced hfirst).append (SpelledItems.balanced hrest))

end

end Parentheses

section Cutting

variable {offset : Nat} {text rest : List Char} {es : List SExpr}

/-- Where items stop: at the end of the text, at a parenthesis that closes a list, or at one that
opens a list which is never closed. -/
inductive Stop : List Char → Prop where
  | finished : Stop []
  | closing (rest : List Char) : Stop (')' :: rest)
  | opening {rest : List Char} (h : NeverClosed rest) : Stop ('(' :: rest)

theorem Stop.isPlain_head? (h : Stop rest) : ∀ c ∈ rest.head?, isPlain c = false := by
  cases h with
  | finished => simp
  | closing rest => exact fun c hc => Option.some.inj hc ▸ rfl
  | opening h => exact fun c hc => Option.some.inj hc ▸ rfl

theorem SpelledItems.blank_cons {c : Char} (hc : Text.isBlank c = true)
    (h : SpelledItems (offset + c.utf8Size) text es) : SpelledItems offset (c :: text) es := by
  cases h with
  | nil hblanks => exact .nil (List.forall_mem_cons.mpr ⟨hc, hblanks⟩)
  | cons hblanks hfirst hends hrest =>
      rw [Nat.add_assoc offset] at hfirst hrest
      exact .cons (List.forall_mem_cons.mpr ⟨hc, hblanks⟩) hfirst hends hrest

/-- An item without blanks before it. -/
theorem SpelledItems.spelled_cons {first : List Char} {e : SExpr} (hfirst : Spelled offset first e)
    (hends : e.EndsBefore text)
    (hrest : SpelledItems (offset + Text.byteLength first) text es) :
    SpelledItems offset (first ++ text) (e :: es) :=
  @SpelledItems.cons offset [] first text e es (by simp) hfirst hends hrest

/-- Every text is cut into items and a rest at which they stop. -/
theorem exists_spelledItems (offset : Nat) (cs : List Char) :
    ∃ text es rest, cs = text ++ rest ∧ SpelledItems offset text es ∧ Stop rest := by
  match cs with
  | [] => exact ⟨[], [], [], rfl, .nil (by simp), .finished⟩
  | c :: cs =>
      by_cases hblank : Text.isBlank c = true
      · obtain ⟨text, es, rest, rfl, hitems, hstop⟩ := exists_spelledItems (offset + c.utf8Size) cs
        exact ⟨c :: text, es, rest, rfl, hitems.blank_cons hblank, hstop⟩
      by_cases hclose : c = ')'
      · exact ⟨[], [], c :: cs, rfl, .nil (by simp), hclose ▸ .closing cs⟩
      by_cases hopen : c = '('
      · subst hopen
        obtain ⟨text, es, rest, rfl, hitems, hstop⟩ := exists_spelledItems (offset + 1) cs
        cases hstop with
        | finished =>
            refine ⟨[], [], _, rfl, .nil (by simp), .opening ?_⟩
            exact hitems.balanced.neverClosed.append fun n => by simp
        | opening h =>
            refine ⟨[], [], _, rfl, .nil (by simp), .opening ?_⟩
            exact hitems.balanced.neverClosed.append h.opening
        | closing after =>
            obtain ⟨others, es', rest, rfl, hothers, hstop⟩ := exists_spelledItems
              (offset + Text.byteLength ('(' :: (text ++ [')']))) after
            refine ⟨'(' :: (text ++ [')']) ++ others, .list es offset :: es', rest, by simp, ?_,
              hstop⟩
            exact .spelled_cons (.list hitems) trivial hothers
      -- What is left is a symbol, which takes all plain characters that there are.
      have hplain : isPlain c = true :=
        isPlain_eq_true_iff.mpr ⟨by simpa using hblank, hopen, hclose⟩
      have hshorter : (cs.dropWhile isPlain).length ≤ cs.length :=
        (List.dropWhile_sublist isPlain).length_le
      obtain ⟨others, es, rest, hothers, hitems, hstop⟩ := exists_spelledItems
        (offset + Text.byteLength (c :: cs.takeWhile isPlain)) (cs.dropWhile isPlain)
      refine ⟨(c :: cs.takeWhile isPlain) ++ others, _, rest, ?_,
        .spelled_cons (.symbol (by simp) ?_) ?_ hitems, hstop⟩
      · rw [List.append_assoc, ← hothers, List.cons_append, List.takeWhile_append_dropWhile]
      · exact List.forall_mem_cons.mpr ⟨hplain, fun d hd => List.mem_takeWhile_imp hd⟩
      · intro d hd
        have hhead : d ∈ (cs.dropWhile isPlain).head? := by
          rw [hothers, List.head?_append]
          exact Option.mem_def.mpr (by rw [Option.mem_def.mp hd, Option.some_or])
        exact Text.eq_false_of_mem_head?_dropWhile hhead
termination_by cs.length

end Cutting

end SExpr

end Contracts
