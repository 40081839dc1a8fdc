import Contracts.Proofs.Pattern.Grammar

/-!
# What reading an s-expression comes to

Reading a text ends in one of five ways, which `SExpr.Reads` lists by what can be seen in the text:
it is one s-expression with blanks around it, or it is blank, or it starts with a parenthesis that
closes a list, or with one that opens a list which is never closed, or something follows the first
s-expression. The reader answers by these rules and by no others (`SExpr.read_eq_iff_reads`).

Of several lists that are left open the last one is reported. It is found by cutting the text into
items again and again (`SExpr.exists_lastUnclosed`), and there is only one
(`SExpr.LastUnclosed.unique`).
-/

namespace Contracts

namespace SExpr

/-- What reading a text comes to. Offsets are byte offsets into the text. -/
inductive Reads : List Char → Except PatternError SExpr → Prop where
  /-- An s-expression with nothing but blanks around it. -/
  | complete {before text after : List Char} {e : SExpr}
      (hbefore : ∀ c ∈ before, Text.isBlank c = true)
      (he : Spelled (Text.byteLength before) text e)
      (hafter : ∀ c ∈ after, Text.isBlank c = true) :
      Reads (before ++ (text ++ after)) (.ok e)
  /-- Nothing but blanks. -/
  | empty {blanks : List Char} (hblanks : ∀ c ∈ blanks, Text.isBlank c = true) :
      Reads blanks (.error .empty)
  /-- The first character that is not blank closes a list. -/
  | unexpectedClose {before rest : List Char} (hbefore : ∀ c ∈ before, Text.isBlank c = true) :
      Reads (before ++ ')' :: rest) (.error (.unexpectedClose (Text.byteLength before)))
  /-- The first character that is not blank opens a list that is never closed. -/
  | unclosedList {before rest : List Char} {offset : Nat}
      (hbefore : ∀ c ∈ before, Text.isBlank c = true) (hrest : NeverClosed rest)
      (hlast : LastUnclosed (before ++ '(' :: rest) offset) :
      Reads (before ++ '(' :: rest) (.error (.unclosedList offset))
  /-- The first s-expression is followed by a character that is not blank. -/
  | trailingInput {before text between rest : List Char} {e : SExpr} {c : Char}
      (hbefore : ∀ c ∈ before, Text.isBlank c = true)
      (he : Spelled (Text.byteLength before) text e) (hends : e.EndsBefore (between ++ c :: rest))
      (hbetween : ∀ c ∈ between, Text.isBlank c = true) (hc : Text.isBlank c = false) :
      Reads (before ++ (text ++ (between ++ c :: rest)))
        (.error (.trailingInput (Text.byteLength (before ++ (text ++ between)))))

theorem LastUnclosed.unique {cs : List Char} {offset offset' : Nat} (h : LastUnclosed cs offset)
    (h' : LastUnclosed cs offset') : offset = offset' := by
  obtain ⟨before, rest, rfl, rfl, hrest, hlast⟩ := h
  obtain ⟨before', rest', heq, rfl, hrest', hlast'⟩ := h'
  -- If one of the two comes first, the other one is left open behind it.
  rcases List.append_eq_append_iff.mp heq with ⟨between, rfl, hbetween⟩ | ⟨between, rfl, hbetween⟩
  · cases between with
    | nil => rw [List.append_nil]
    | cons c between => exact absurd hrest' (hlast between rest' (List.cons.inj hbetween).2)
  · cases between with
    | nil => rw [List.append_nil]
    | cons c between => exact absurd hrest (hlast' between rest (List.cons.inj hbetween).2)

/-- A list that is never closed makes the reader fail, with the last one that is left open. -/
theorem exists_lastUnclosed {cs : List Char} (hcs : NeverClosed cs) (before : List Char)
    (items : List SExpr) (stack : List Frame) :
    ∃ offset, LastUnclosed (before ++ '(' :: cs) offset ∧
      ofLexemes (⟨Text.byteLength before, items⟩ :: stack)
        (lexemesFrom [] (Text.byteLength before + 1) (Text.byteLength before + 1) cs) =
          .error (.unclosedList offset) := by
  obtain ⟨text, es, rest, rfl, hitems, hstop⟩ := exists_spelledItems (Text.byteLength before + 1) cs
  rw [hitems.ofLexemes_eq _ stack hstop.isPlain_head?]
  cases hstop with
  | finished =>
      refine ⟨_, ⟨before, text ++ [], rfl, rfl, hcs, ?_⟩, rfl⟩
      intro between inner hinner
      rw [List.append_nil] at hinner
      exact (hinner ▸ hitems.balanced).not_neverClosed
  | closing rest => exact absurd hcs (hitems.balanced.not_neverClosed_closing rest)
  | opening hinner =>
      rename_i inner
      have hoffset : Text.byteLength before + 1 + Text.byteLength text =
          Text.byteLength (before ++ '(' :: text) := by
        simp [Char.utf8Size, Nat.add_assoc]
      obtain ⟨offset, hlast, herror⟩ := exists_lastUnclosed hinner (before ++ '(' :: text) []
        (⟨Text.byteLength before, es.reverse ++ items⟩ :: stack)
      refine ⟨offset, by simpa using hlast, ?_⟩
      rw [hoffset, lexemesFrom_opening, ofLexemes]
      exact herror
termination_by cs.length

/-- The first lexeme of a text stands at its first character, unless that is blank. -/
theorem exists_lexemesFrom_eq_cons {c : Char} (hc : Text.isBlank c = false) (offset : Nat)
    (cs : List Char) :
    ∃ l ls, lexemesFrom [] offset offset (c :: cs) = l :: ls ∧ l.offset = offset := by
  by_cases hopen : c = '('
  · subst hopen
    exact ⟨_, _, rfl, rfl⟩
  by_cases hclose : c = ')'
  · subst hclose
    exact ⟨_, _, rfl, rfl⟩
  have hplain : ∀ d ∈ c :: cs.takeWhile isPlain, isPlain d = true :=
    List.forall_mem_cons.mpr ⟨isPlain_eq_true_iff.mpr ⟨hc, hopen, hclose⟩,
      fun d hd => List.mem_takeWhile_imp hd⟩
  have hrest : ∀ d ∈ (cs.dropWhile isPlain).head?, isPlain d = false :=
    fun d hd => Text.eq_false_of_mem_head?_dropWhile hd
  have hrun := @lexemesFrom_run _ _ offset offset (List.cons_ne_nil c _) hplain hrest
  rw [List.cons_append, List.takeWhile_append_dropWhile] at hrun
  exact ⟨_, _, hrun, rfl⟩

/-- The reader answers as the rules say. -/
theorem Reads.read_eq {cs : List Char} {result : Except PatternError SExpr}
    (h : Reads cs result) : read cs = result := by
  rw [read, lexemes]
  cases h with
  | complete hbefore he hafter =>
      rw [lexemesFrom_blanks hbefore, Nat.zero_add, he.ofLexemes_eq [] (.of_blank hafter _),
        lexemesFrom_of_blank hafter]
      rfl
  | empty hblanks =>
      rw [lexemesFrom_of_blank hblanks]
      rfl
  | unexpectedClose hbefore =>
      rw [lexemesFrom_blanks hbefore, Nat.zero_add]
      rfl
  | unclosedList hbefore hrest hlast =>
      obtain ⟨offset, hlast', herror⟩ := exists_lastUnclosed hrest _ [] []
      rw [lexemesFrom_blanks hbefore, Nat.zero_add, lexemesFrom_opening, ofLexemes, herror,
        hlast.unique hlast']
  | trailingInput hbefore he hends hbetween hc =>
      rw [lexemesFrom_blanks hbefore, Nat.zero_add, he.ofLexemes_eq [] hends,
        lexemesFrom_blanks hbetween]
      obtain ⟨l, ls, hlexemes, hoffset⟩ := exists_lexemesFrom_eq_cons hc _ _
      rw [hlexemes, Text.byteLength_append, Text.byteLength_append, ← Nat.add_assoc]
      exact congrArg (fun offset => Except.error (PatternError.trailingInput offset)) hoffset

/-- After the first s-expression there are only blanks, or something follows it. -/
theorem Spelled.exists_reads {before text rest : List Char} {e : SExpr}
    (hbefore : ∀ c ∈ before, Text.isBlank c = true) (he : Spelled (Text.byteLength before) text e)
    (hends : e.EndsBefore rest) : ∃ result, Reads (before ++ (text ++ rest)) result := by
  obtain ⟨between, hbetween, hrest⟩ := Text.exists_blanks_append_trimLeft rest
  cases htrim : Text.trimLeft rest with
  | nil =>
      rw [htrim, List.append_nil] at hrest
      exact ⟨_, .complete hbefore he (hrest ▸ hbetween)⟩
  | cons c rest' =>
      have hhead : c ∈ (rest.dropWhile Text.isBlank).head? := by
        rw [← Text.trimLeft, htrim]
        rfl
      have hc : Text.isBlank c = false := Text.eq_false_of_mem_head?_dropWhile hhead
      rw [htrim] at hrest
      subst hrest
      exact ⟨_, .trailingInput hbefore he hends hbetween hc⟩

/-- There is a rule for every text. -/
theorem exists_reads (cs : List Char) : ∃ result, Reads cs result := by
  obtain ⟨text, es, rest, rfl, hitems, hstop⟩ := exists_spelledItems 0 cs
  cases hitems with
  | nil hblanks =>
      cases hstop with
      | finished =>
          rw [List.append_nil]
          exact ⟨_, .empty hblanks⟩
      | closing rest => exact ⟨_, .unexpectedClose hblanks⟩
      | opening hrest =>
          obtain ⟨offset, hlast, -⟩ := exists_lastUnclosed hrest text [] []
          exact ⟨_, .unclosedList hblanks hrest hlast⟩
  | cons hblanks hfirst hends hrest =>
      rw [Nat.zero_add] at hfirst
      rw [List.append_assoc, List.append_assoc]
      exact hfirst.exists_reads hblanks (hends.append hstop.isPlain_head?)

theorem reads_read (cs : List Char) : Reads cs (read cs) := by
  obtain ⟨result, h⟩ := exists_reads cs
  rwa [h.read_eq]

/-- Every text is read in just one way: it is accepted if it is one s-expression of the grammar with
blanks around it, as that s-expression with the offsets that it has in the text, and otherwise
refused for the first thing that is wrong in it. -/
theorem read_eq_iff_reads (cs : List Char) (result : Except PatternError SExpr) :
    read cs = result ↔ Reads cs result :=
  ⟨fun h => h ▸ reads_read cs, Reads.read_eq⟩

end SExpr

end Contracts
