import Contracts.Proofs.Syntax.Bodies
import Contracts.Syntax.Grammar.Script

/-!
# Texts that are read by themselves

`Reads goal fits follows cs` says that the text `cs` is read for a goal of the grammar
in every context that fits, wherever it stands, as long as a token that may follow
comes behind it. Texts of this kind can be put together: a list of statements, a
function with such a list as its body, and a call that hands a function to the
checker.

Which word can stand for a value depends on the place (`Place.refuses`). A context is
within a place if it differs from it in strict mode at most, which may have been lost:
a directive in front of the prologue of a function takes it away.
-/

namespace Contracts

/-- The context is in the place, or in the same place outside of strict mode. -/
structure Context.Within (ctx : Context) (pl : Place) : Prop where
  async : ctx.isAsync = pl.isAsync
  generator : ctx.isGenerator = pl.isGenerator
  inStatic : ctx.inStaticBlock = pl.inStaticBlock
  inField : ctx.inField = pl.inField
  strict : ctx.isStrict = true → pl.isStrict = true

namespace Context.Within

variable {ctx : Context} {pl : Place}

theorem enter (h : ctx.Within pl) (m : Modifiers) : (ctx.enter m).Within (pl.enter m) :=
  ⟨rfl, rfl, rfl, rfl, h.strict⟩

theorem withIn (h : ctx.Within pl) : ctx.withIn.Within pl :=
  ⟨h.async, h.generator, h.inStatic, h.inField, h.strict⟩

/-- What does not hold in strict mode of the place does not hold in strict mode of the context. -/
theorem and_eq_false (h : ctx.Within pl) {test : Bool} (htest : (pl.isStrict && test) = false) :
    (ctx.isStrict && test) = false := by
  cases hstrict : ctx.isStrict with
  | false => rfl
  | true => rwa [h.strict hstrict] at htest

/-- What is no keyword of the place is none of the context. -/
theorem reserves_eq_false (h : ctx.Within pl) {text : String} (htext : pl.reserves text = false) :
    ctx.reserves text = false := by
  simp only [Place.reserves, Bool.or_eq_false_iff, h.async, h.generator, h.inStatic] at htext ⊢
  exact ⟨⟨h.and_eq_false htext.1.1, htext.1.2⟩, htext.2⟩

theorem binds_eq_true (h : ctx.Within pl) {text : String} (htext : pl.binds text = true) :
    ctx.binds text = true := by
  simp only [Place.binds, Bool.and_eq_true, Bool.not_eq_true'] at htext ⊢
  exact ⟨h.reserves_eq_false htext.1, h.and_eq_false htext.2⟩

end Context.Within

/-- Whether a word, as an argument of its own, is no expression in the place. In a generator `yield`
is one. -/
def Place.refuses (pl : Place) (text : String) : Bool :=
  (reservedWords.contains text && !Rule.valueWords.contains text) ||
    (pl.isStrict && strictWords.contains text && !(pl.isGenerator && text == "yield")) ||
    ((pl.isAsync || pl.inStaticBlock) && text == "await") ||
    (pl.inField && text == "arguments")

/-- Strict code refuses `yield`, but not in a generator, and no code outside of functions refuses
`await`. -/
example : Place.outermost.strict.refuses "yield" = true ∧
    (Place.outermost.strict.enter ⟨false, true⟩).refuses "yield" = false ∧
      Place.outermost.strict.refuses "await" = false := by
  decide

namespace Rule

section Words

variable {self : Self} {ctx : Context} {pl : Place} {ks : List (TokenKind × Bool)}
  {cs : List Char} {text : String} {b : Bool}

theorem isVariable_of_not_refuses (hctx : ctx.Within pl) (htext : text ∉ reservedWords)
    (hyield : (ctx.isGenerator && text == "yield") = false) (h : pl.refuses text = false) :
    IsVariable ctx text := by
  simp only [Place.refuses, Bool.or_eq_false_iff] at h
  obtain ⟨⟨⟨-, hstrict⟩, hawait⟩, harguments⟩ := h
  refine ⟨htext, ?_, by rw [hctx.inField, harguments]⟩
  have hlost := hctx.strict
  rw [hctx.generator] at hyield
  rw [hyield, Bool.not_false, Bool.and_true] at hstrict
  refine hctx.reserves_eq_false ?_
  rw [Place.reserves, hstrict, hyield, hawait]
  rfl

theorem takes_endsYield (hk : Stream.Heads (ks, cs) (.punctuator ")")) :
    Takes endsYield (ks, cs) (ks, cs) (· = true) := by
  unfold endsYield
  refine (takes_current hk).bind ?_
  rintro ⟨_, span, isBroken⟩ rfl
  exact takes_pure (by simp)

/-- In a generator the word `yield` needs no operand in front of a closing parenthesis. -/
theorem takes_assignment_yield (hctx : ctx.isGenerator = true)
    (hk : Stream.Heads (ks, cs) (.punctuator ")")) :
    Takes (assignment self ctx) ((.word "yield" false, b) :: ks, cs) (ks, cs)
      (·.isUseStrict = false) := by
  unfold assignment
  refine (takes_atEnd Stream.heads_token).bind ?_
  rintro _ rfl
  refine (takes_isAtWord Stream.heads_token _).bind ?_
  rintro _ rfl
  rw [hctx]
  change Takes (yield self ctx) _ _ _
  unfold yield
  refine takes_here.bind fun start _ => takes_advance.bind fun _ _ => (takes_endsYield hk).bind ?_
  rintro _ rfl
  exact (takes_finishNode _ _ _).imp fun t ht => not_isUseStrict_of_form (by simp [ht.1])

/-- A word that is not refused is an argument. -/
theorem takes_word {n : Nat} (hctx : ctx.Within pl) (h : pl.refuses text = false)
    (hk : Stream.Heads (ks, cs) (.punctuator ")")) :
    Takes (atDepth (n + 2) .assignment ctx) ((.word text false, b) :: ks, cs) (ks, cs)
      (·.isUseStrict = false) := by
  have hend : IsClosing (.punctuator ")") := .inr (.inl rfl)
  by_cases hyield : (ctx.isGenerator && text == "yield") = true
  · simp only [Bool.and_eq_true, beq_iff_eq] at hyield
    obtain ⟨hgenerator, rfl⟩ := hyield
    exact takes_assignment_yield hgenerator hk
  · rw [Bool.not_eq_true] at hyield
    refine Takes.imp (P := IsOperand) ?_ fun _ ht => ht.isUseStrict_eq
    by_cases hreserved : text ∈ reservedWords
    · have hvalue : text ∈ valueWords := by
        simp only [Place.refuses, Bool.or_eq_false_iff] at h
        simpa [hreserved] using h.1.1.1
      refine takes_atDepth_assignment Stream.heads_token ?_ hk hend (fun _ ht => ht)
        (takes_chain_end hk (.inl hend) (takes_primary_keyword hvalue))
      simp only [valueWords, List.mem_cons, List.not_mem_nil, or_false] at hvalue
      rcases hvalue with rfl | rfl | rfl | rfl
      all_goals exact ⟨rfl, Bool.and_false _, Bool.and_false _⟩
    · have hvariable := isVariable_of_not_refuses hctx hreserved hyield h
      refine takes_atDepth_assignment Stream.heads_token (begins_word hreserved hvariable.name) hk
        hend (fun _ ht => ht) (takes_chain_end hk (.inl hend) ?_)
      exact (takes_primary_name hvariable hk (by decide) (by decide)).imp
        fun _ ht => .of_form ht rfl

end Words

section Texts

variable {pl : Place} {ctx : Context} {n : Nat} {cs follow : List Char} {css : List (List Char)}
  {k : TokenKind} {fits : Context → Prop}

/-- The text is read for the goal, and the result is no statement that asks for strict mode. -/
structure Reads (goal : Goal) (fits : Context → Prop) (follows : TokenKind → Prop)
    (cs : List Char) : Prop where
  opens : ∀ {follow : List Char} {k : TokenKind}, Text.Opens follow k → follows k →
    ∃ k', Text.Opens (cs ++ follow) k' ∧ opensItem k' = true
  takes : ∀ {follow : List Char} {k : TokenKind}, Text.Opens follow k → follows k →
    ∀ {ctx : Context} {n : Nat}, fits ctx → 4 * cs.length + 8 ≤ n →
      Takes (atDepth n goal ctx) ([], cs ++ follow) ([], follow) (·.isUseStrict = false)

/-- Anything may stand behind a statement that has a semicolon or a brace of its own. -/
abbrev ReadsStatement (fits : Context → Prop) : List Char → Prop :=
  Reads .statement fits fun _ => True

abbrev ReadsValue (pl : Place) : List Char → Prop :=
  Reads .assignment (·.Within pl) IsClosing

/-- The contexts of what stands in parentheses: `in` is an operator there. -/
def IsInParens (pl : Place) (ctx : Context) : Prop :=
  ctx.Within pl ∧ ctx.allowIn = true

abbrev ReadsArgument (pl : Place) : List Char → Prop :=
  Reads .assignment (IsInParens pl) (· = .punctuator ")")

theorem ReadsStatement.ne_nil (h : ReadsStatement fits cs) : cs ≠ [] := by
  rintro rfl
  obtain ⟨k, hk, hopen⟩ := h.opens Text.Opens.nil trivial
  rw [List.append_nil] at hk
  rw [hk.unique Text.Opens.nil] at hopen
  exact absurd hopen (by simp [opensItem])

/-- Blanks can stand in front of a statement. -/
theorem ReadsStatement.blanks (h : ReadsStatement fits cs) (margin : Nat) :
    ReadsStatement fits (List.replicate margin ' ' ++ cs) := by
  induction margin with
  | zero => exact h
  | succ margin ih =>
      rw [List.replicate_succ, List.cons_append]
      constructor
      · intro follow k hfollow _
        obtain ⟨k', hk', hopen⟩ := ih.opens hfollow trivial
        exact ⟨k', hk'.blank, hopen⟩
      · intro follow k hfollow _ ctx n hctx hn
        rw [List.length_cons] at hn
        have hfuel : 4 * (List.replicate margin ' ' ++ cs).length + 8 ≤ n := by omega
        exact fun c hc => ih.takes hfollow trivial hctx hfuel c (hc.skip (.inl rfl))

/-- A line feed can stand behind a statement. -/
theorem ReadsStatement.line (h : ReadsStatement fits cs) : ReadsStatement fits (cs ++ ['\n']) where
  opens := by
    intro follow k hfollow _
    rw [List.append_assoc]
    exact h.opens (Text.Opens.line hfollow) trivial
  takes := by
    intro follow k hfollow _ ctx n hctx hn
    rw [List.length_append, List.length_singleton] at hn
    rw [List.append_assoc]
    exact (h.takes (Text.Opens.line hfollow) trivial hctx (by omega)).skip (.inr rfl)

/-- What comes first in statements and a text behind them. -/
theorem exists_opens_statements (h : ∀ cs ∈ css, ReadsStatement fits cs)
    (hfollow : Text.Opens follow k) :
    ∃ k', Text.Opens (css.flatten ++ follow) k' ∧ (css ≠ [] → opensItem k' = true) := by
  induction css with
  | nil => exact ⟨k, hfollow, fun hne => absurd rfl hne⟩
  | cons cs css ih =>
      rw [List.forall_mem_cons] at h
      obtain ⟨k', hk', -⟩ := ih h.2
      obtain ⟨k'', hk'', hopen⟩ := h.1.opens hk' trivial
      rw [List.flatten_cons, List.append_assoc]
      exact ⟨k'', hk'', fun _ => hopen⟩

theorem run_statements (h : ∀ cs ∈ css, ReadsStatement fits cs) (hctx : fits ctx)
    (hn : 4 * css.flatten.length + 8 ≤ n) (hfollow : Text.Opens follow k) :
    Run (atDepth n .statement ctx) (·.isUseStrict = false) css.length
      ([], css.flatten ++ follow) ([], follow) := by
  induction css with
  | nil => exact .nil
  | cons cs css ih =>
      rw [List.forall_mem_cons] at h
      rw [List.flatten_cons, List.length_append] at hn
      obtain ⟨k', hk', -⟩ := exists_opens_statements h.2 hfollow
      obtain ⟨k'', hk'', hopen⟩ := h.1.opens hk' trivial
      rw [List.flatten_cons, List.append_assoc]
      exact .cons (Stream.heads_text hk'') hopen (h.1.takes hk' trivial hctx (by omega))
        (ih h.2 (by omega))

theorem length_le_flatten (h : ∀ cs ∈ css, ReadsStatement fits cs) :
    css.length ≤ css.flatten.length := by
  induction css with
  | nil => exact Nat.le_refl 0
  | cons cs css ih =>
      rw [List.forall_mem_cons] at h
      have hlength := List.length_pos_iff.mpr h.1.ne_nil
      have hrest := ih h.2
      rw [List.flatten_cons, List.length_append, List.length_cons]
      omega

theorem takes_statements {stop : Rule Bool} (h : ∀ cs ∈ css, ReadsStatement fits cs)
    (hctx : fits ctx) (hn : 4 * css.flatten.length + 8 ≤ n) (hfollow : Text.Opens follow k)
    (hstop : Stops stop ([], follow)) :
    Takes (directedStatements (atDepth n) ctx stop) ([], css.flatten ++ follow) ([], follow)
      fun ts => ts.head?.any Tree.isUseStrict = false := by
  cases css with
  | nil => exact takes_directedStatements_nil hstop.atEnd
  | cons cs css =>
      rw [List.forall_mem_cons] at h
      rw [List.flatten_cons, List.length_append] at hn
      obtain ⟨k', hk', -⟩ := exists_opens_statements h.2 hfollow
      obtain ⟨k'', hk'', hopen⟩ := h.1.opens hk' trivial
      have hlength := length_le_flatten h.2
      rw [List.flatten_cons, List.append_assoc]
      refine takes_directedStatements_cons (Stream.heads_text hk'') hopen
        (h.1.takes hk' trivial hctx (by omega)) (run_statements h.2 hctx (by omega) hfollow) ?_ hstop
      simp only [Stream.size, List.length_append, List.length_nil]
      omega

end Texts

section Functions

variable {pl : Place} {ctx : Context} {n margin : Nat} {follow : List Char} {css : List (List Char)}
  {k : TokenKind} {fits : Context → Prop}

/-- Statements in the braces of a body; a body without statements is on one line. -/
def bodyText (css : List (List Char)) (margin : Nat) : List Char :=
  '\x7b' :: ((if css.isEmpty then [] else '\n' :: (css.flatten ++ List.replicate margin ' ')) ++
    ['\x7d'])

theorem length_bodyText (css : List (List Char)) (margin : Nat) :
    css.flatten.length + 2 ≤ (bodyText css margin).length := by
  cases css with
  | nil => exact Nat.le_refl 2
  | cons cs css =>
      simp only [bodyText, List.isEmpty_cons, List.length_cons, List.length_append]
      simp only [Bool.false_eq_true, if_false, List.length_cons, List.length_append]
      omega

/-- The end of a body. -/
def closingText (css : List (List Char)) (margin : Nat) (follow : List Char) : List Char :=
  css.flatten ++ ((if css.isEmpty then [] else List.replicate margin ' ') ++ '\x7d' :: follow)

theorem lexed_bodyText (css : List (List Char)) (margin : Nat) (follow : List Char)
    (isBroken : Bool) :
    LexedUpTo (closingText css margin follow) isBroken (bodyText css margin ++ follow)
      [(.punctuator "\x7b", isBroken)] := by
  cases css with
  | nil => exact .mark (by decide) .done
  | cons cs css =>
      have htext : bodyText (cs :: css) margin ++ follow =
          '\x7b' :: '\n' :: closingText (cs :: css) margin follow := by
        simp [bodyText, closingText]
      rw [htext]
      exact .mark (by decide) (.line .done)

/-- The brace at the end of a body. -/
theorem lexed_closing (css : List (List Char)) (margin : Nat) (follow : List Char)
    (isBroken : Bool) :
    LexedUpTo follow isBroken
      ((if css.isEmpty then [] else List.replicate margin ' ') ++ '\x7d' :: follow)
      [(.punctuator "\x7d", isBroken)] := by
  have hbrace : LexedUpTo follow isBroken ('\x7d' :: follow) [(.punctuator "\x7d", isBroken)] :=
    .mark (by decide) .done
  split
  · exact hbrace
  · exact hbrace.blanks margin

theorem takes_bodyText (h : ∀ cs ∈ css, ReadsStatement fits cs) (hctx : fits ctx)
    (hn : 4 * css.flatten.length + 8 ≤ n) (hfollow : Text.Opens follow k) (margin : Nat) (b : Bool)
    (hasNamesOnly : Bool) :
    Takes (functionBody (atDepth n) ctx hasNamesOnly)
      ([(.punctuator "\x7b", b)], closingText css margin follow) ([], follow) fun _ => True := by
  have hlexed := lexed_closing css margin follow
  have hopens := Text.Opens.of_lexed (fun isBroken => ⟨_, hlexed isBroken⟩) hfollow
  have hbrace := Stream.heads_text hopens
  refine takes_functionBody (takes_statements h hctx hn hopens (stops_body hbrace)) hbrace ?_
  exact Takes.of_lexed hlexed hfollow fun isBroken => takes_expect _

theorem takes_expect_text {mark : Char} (hmark : mark ∈ Token.soleMarks)
    (hfollow : Text.Opens follow k) :
    Takes (expect (String.ofList [mark])) ([], mark :: follow) ([], follow) fun _ => True :=
  Takes.of_lexed (fun _ => .mark hmark .done) hfollow fun _ => takes_expect _

theorem opens_mark {mark : Char} (hmark : mark ∈ Token.soleMarks) (hfollow : Text.Opens follow k) :
    Text.Opens (mark :: follow) (.punctuator (String.ofList [mark])) :=
  .of_lexed (fun _ => ⟨_, .mark hmark .done⟩) hfollow

theorem isWord_function : Token.IsWord "function" :=
  Token.isWord_of_all rfl (by decide) (by decide)

/-- A function without a name, up to its body. -/
theorem lexed_function (isBroken : Bool) :
    LexedUpTo (closingText css margin follow) isBroken
      ("function".toList ++ ("() ".toList ++ (bodyText css margin ++ follow)))
      [(.word "function" false, isBroken), (.punctuator "(", false), (.punctuator ")", false),
        (.punctuator "\x7b", false)] :=
  .word isWord_function (Token.endsWord_cons (by decide) _)
    (.mark (by decide) (.mark (by decide) (.blank (lexed_bodyText css margin follow false))))

/-- A function with a name, up to its body. -/
theorem lexed_function_name {name : String} (hname : Token.IsWord name) (isBroken : Bool) :
    LexedUpTo (closingText css margin follow) isBroken
      ("function".toList ++ (' ' :: (name.toList ++ ("() ".toList ++ (bodyText css margin ++ follow)))))
      [(.word "function" false, isBroken), (.word name false, false), (.punctuator "(", false),
        (.punctuator ")", false), (.punctuator "\x7b", false)] :=
  .word isWord_function (Token.endsWord_cons (by decide) _) (.blank
    (.word hname (Token.endsWord_cons (by decide) _)
      (.mark (by decide) (.mark (by decide) (.blank (lexed_bodyText css margin follow false))))))

/-- The rest of a body opens with a statement or with its brace. -/
theorem exists_opens_closingText (h : ∀ cs ∈ css, ReadsStatement fits cs) (margin : Nat)
    (hfollow : Text.Opens follow k) :
    ∃ k', Text.Opens (closingText css margin follow) k' := by
  have hlexed := lexed_closing css margin follow
  obtain ⟨k', hk', -⟩ := exists_opens_statements h
    (Text.Opens.of_lexed (fun isBroken => ⟨_, hlexed isBroken⟩) hfollow)
  exact ⟨k', hk'⟩

/-- A function without a name and without parameters is an argument. -/
theorem readsArgument_function (h : ∀ cs ∈ css, ReadsStatement fits cs)
    (hfits : ∀ ctx : Context, ctx.Within pl → fits (ctx.enter .plain)) (margin : Nat) :
    ReadsArgument pl ("function".toList ++ ("() ".toList ++ bodyText css margin)) where
  opens := by
    rintro follow _ hfollow rfl
    obtain ⟨k, hk⟩ := exists_opens_closingText h margin hfollow
    rw [List.append_assoc, List.append_assoc]
    exact ⟨_, .of_lexed (fun isBroken => ⟨_, lexed_function isBroken⟩) hk, rfl⟩
  takes := by
    rintro follow _ hfollow rfl ctx n hctx hn
    obtain ⟨k, hk⟩ := exists_opens_closingText h margin hfollow
    obtain ⟨n, rfl⟩ : ∃ m, n = m + 2 := ⟨n - 2, by omega⟩
    have hend : IsClosing (.punctuator ")") := .inr (.inl rfl)
    rw [List.append_assoc, List.append_assoc]
    refine (Takes.of_lexed lexed_function hk fun isBroken => ?_).imp
      fun t (ht : IsOperand t) => ht.isUseStrict_eq
    refine takes_atDepth_assignment Stream.heads_token ⟨rfl, Bool.and_false _, Bool.and_false _⟩
      (Stream.heads_text hfollow) hend (fun _ ht => ht)
      (takes_chain_end (Stream.heads_text hfollow) (.inl hend) ?_)
    refine takes_primary_function fun hasNamesOnly => ?_
    refine takes_bodyText h (hfits ctx hctx.1) ?_ hfollow margin false hasNamesOnly
    have hlength := length_bodyText css margin
    simp only [List.length_append] at hn
    omega

/-- A function without parameters is a statement. -/
theorem readsStatement_function {name : String} (hname : Token.IsWord name)
    (hreserved : name ∉ reservedWords) (hbinds : pl.binds name = true)
    (h : ∀ cs ∈ css, ReadsStatement fits cs)
    (hfits : ∀ ctx : Context, ctx.Within pl → fits (ctx.enter .plain)) (margin : Nat) :
    ReadsStatement (·.Within pl)
      ("function".toList ++ (' ' :: (name.toList ++ ("() ".toList ++ bodyText css margin)))) := by
  have htext : ∀ follow, "function".toList ++ (' ' :: (name.toList ++
      ("() ".toList ++ bodyText css margin))) ++ follow = "function".toList ++ (' ' ::
        (name.toList ++ ("() ".toList ++ (bodyText css margin ++ follow)))) := by
    intro follow
    simp only [List.append_assoc, List.cons_append]
  constructor
  · intro follow k hfollow _
    obtain ⟨k', hk'⟩ := exists_opens_closingText h margin hfollow
    rw [htext]
    exact ⟨_, .of_lexed (fun isBroken => ⟨_, lexed_function_name hname isBroken⟩) hk', rfl⟩
  · intro follow k hfollow _ ctx n hctx hn
    obtain ⟨k', hk'⟩ := exists_opens_closingText h margin hfollow
    obtain ⟨n, rfl⟩ : ∃ m, n = m + 1 := ⟨n - 1, by omega⟩
    rw [htext]
    refine Takes.of_lexed (lexed_function_name hname) hk' fun isBroken => ?_
    refine takes_statement_function hreserved (hctx.binds_eq_true hbinds) fun hasNamesOnly => ?_
    refine takes_bodyText h (hfits ctx hctx) ?_ hfollow margin false hasNamesOnly
    have hlength := length_bodyText css margin
    simp only [List.length_append, List.length_cons] at hn
    omega

end Functions

end Rule

end Contracts
