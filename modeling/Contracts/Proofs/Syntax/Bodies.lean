import Contracts.Proofs.Syntax.Calls

/-!
# Statements and functions in front of a rule

The statements that this library adds are expressions with a semicolon, the return of
a value, and functions without parameters. A body is a run of statements
(`Rule.Run`). Its first statement could ask for strict mode, and the ones behind it
are read in the same context only because it does not.
-/

namespace Contracts

/-- A function or a variable of the name can be declared at the place. -/
def Place.binds (pl : Place) (text : String) : Bool :=
  !pl.reserves text && !(pl.isStrict && (text == "eval" || text == "arguments"))

theorem Context.after_eq {ctx : Context} {first : Tree} (h : first.isUseStrict = false) :
    ctx.after first = ctx := by
  simp [Context.after, Place.after, h]

namespace Rule

section Statements

variable {self : Self} {ctx : Context} {s s' s'' : Stream} {ks ks' : List (TokenKind × Bool)}
  {cs cs' : List Char} {k : TokenKind} {b b' : Bool} {P : Tree → Prop}

theorem takes_expression (h : Takes (self .assignment ctx) s s' P) (hk : s'.Heads k)
    (hcomma : k.isPunctuator "," = false) : Takes (expression self ctx) s s' P := by
  unfold expression
  refine h.bind fun t ht => (takes_isAt hk ",").bind ?_
  rintro _ rfl
  rw [hcomma]
  exact takes_pure ht

theorem takes_endStatement (cause : TokenKind → Cause) :
    Takes (endStatement cause) ((.punctuator ";", b) :: ks, cs) (ks, cs) fun _ => True := by
  unfold endStatement
  refine (takes_isAt Stream.heads_token ";").bind ?_
  rintro _ rfl
  exact takes_advance

theorem not_isUseStrict_of_form {t : Tree} (h : t.form ≠ .expressionStatement) :
    t.isUseStrict = false := by
  unfold Tree.isUseStrict
  split
  next => exact absurd rfl h
  next => rfl

/-- Where the semicolon is the next token of a text. -/
theorem takes_endStatement_text (hcs : Text.Opens cs k) (cause : TokenKind → Cause) :
    Takes (endStatement cause) ([], ';' :: cs) ([], cs) fun _ => True :=
  Takes.of_lexed (fun _ => .mark (by decide) .done) hcs fun _ => takes_endStatement cause

/-- Only a string literal can ask for strict mode. -/
theorem not_isUseStrict_of_child {t e : Tree} (ht : t.children = [e])
    (he : ∀ text, e.form ≠ .literal .string text) : t.isUseStrict = false := by
  unfold Tree.isUseStrict
  split
  next r s ds =>
      obtain rfl := (List.cons.inj ht).1
      exact absurd rfl (he _)
  next => rfl

theorem takes_expressionStatement (h : Takes (self .expression ctx.withIn) s s' P)
    (hend : ∀ cause, Takes (endStatement cause) s' s'' fun _ => True)
    (hP : ∀ e, P e → ∀ text, e.form ≠ .literal .string text) :
    Takes (expressionStatement self ctx) s s'' (·.isUseStrict = false) := by
  unfold expressionStatement
  refine takes_here.bind fun start _ => h.bind fun e he => ?_
  refine (hend _).bind fun _ _ => (takes_finishNode _ _ _).imp fun t ht => ?_
  exact not_isUseStrict_of_child ht.2 (hP e he)

theorem takes_openStatement {mark : String} (hmark : mark ≠ ":") {text : String}
    (h : Takes (expressionStatement self ctx)
      ((.word text false, b) :: (.punctuator mark, b') :: ks, cs) s' P) :
    Takes (openStatement self ctx) ((.word text false, b) :: (.punctuator mark, b') :: ks, cs)
      s' P := by
  unfold openStatement
  refine (takes_kind Stream.heads_token).bind ?_
  rintro _ rfl
  split
  · refine (takes_peek Stream.heads_token).bind ?_
    rintro ⟨_, span, _⟩ rfl
    simp only [TokenKind.isPunctuator, beq_iff_eq, TokenKind.punctuator.injEq, hmark, if_false]
    exact h
  · refine (takes_atEnd Stream.heads_token).bind ?_
    rintro _ rfl
    exact h

/-- In front of a point the word `let` declares nothing. -/
theorem takes_variableKind?_let :
    Takes variableKind? ((.word "let" false, b) :: (.punctuator ".", b') :: ks, cs)
      ((.word "let" false, b) :: (.punctuator ".", b') :: ks, cs) (· = none) := by
  unfold variableKind?
  refine (takes_kind Stream.heads_token).bind ?_
  rintro _ rfl
  refine (takes_peek Stream.heads_token).bind ?_
  rintro ⟨_, span, _⟩ rfl
  exact takes_pure rfl

/-- A statement that starts with a name and a point. -/
theorem takes_statement_name {text : String} (htext : text ∉ reservedWords)
    (h : Takes (expressionStatement self ctx)
      ((.word text false, b) :: (.punctuator ".", b') :: ks, cs) s' P) :
    Takes (statement self ctx) ((.word text false, b) :: (.punctuator ".", b') :: ks, cs) s' P := by
  have hopen := takes_openStatement (by decide) h
  unfold statement
  refine (takes_current Stream.heads_token).bind ?_
  rintro ⟨_, span, _⟩ rfl
  split
  -- The word `let` is a name in front of a point.
  case h_5 heq =>
    obtain ⟨rfl, -⟩ := TokenKind.word.inj heq
    refine takes_variableKind?_let.bind ?_
    rintro _ rfl
    exact hopen
  -- So is the word `async`.
  case h_7 heq =>
    obtain ⟨rfl, -⟩ := TokenKind.word.inj heq
    refine (takes_peek Stream.heads_token).bind ?_
    rintro ⟨_, span', _⟩ rfl
    exact hopen
  case h_23 => exact hopen
  -- In all other cases the word is a keyword.
  all_goals
    rename_i heq
    first
      | (cases heq; done)
      | (obtain ⟨rfl, -⟩ := TokenKind.word.inj heq; exact absurd (by decide) htext)

theorem takes_mayEnd (hk : opensItem k = true) :
    Takes mayEnd ((k, b) :: ks, cs) ((k, b) :: ks, cs) (· = b) := by
  have hend := ne_endOfFile_of_opensItem hk
  have hbrace : k.isPunctuator "\x7d" = false := isPunctuator_of_opensItem hk (by simp)
  unfold mayEnd
  refine takes_current_token.bind ?_
  rintro ⟨_, span, _⟩ ⟨rfl, rfl⟩
  refine takes_pure ?_
  simp only [hend, hbrace, Bool.false_or]

/-- The return of a value that starts on the line of the keyword. -/
theorem takes_statement_return (hctx : ctx.inFunction = true) (hk : opensItem k = true)
    (hsemicolon : k.isPunctuator ";" = false)
    (h : Takes (self .expression ctx.withIn) ((k, false) :: ks, cs)
      ((.punctuator ";", b') :: ks', cs') P) :
    Takes (statement self ctx) ((.word "return" false, b) :: (k, false) :: ks, cs) (ks', cs')
      (·.isUseStrict = false) := by
  unfold statement
  refine (takes_current Stream.heads_token).bind ?_
  rintro ⟨_, span, _⟩ rfl
  change Takes (returnStatement self ctx) _ _ _
  unfold returnStatement
  refine takes_here.bind fun start _ => takes_advance.bind fun _ _ => ?_
  refine (takes_isAt Stream.heads_token ";").bind ?_
  rintro _ rfl
  refine (takes_mayEnd hk).bind ?_
  rintro _ rfl
  rw [hsemicolon]
  refine h.bind fun value _ => (takes_endStatement _).bind fun _ _ => ?_
  refine (takes_finishNode _ _ _).bind fun t ht => ?_
  rw [hctx]
  exact takes_pure (not_isUseStrict_of_form (by simp [ht.1]))

end Statements

section Functions

variable {self : Self} {ctx : Context} {s s' s'' : Stream} {ks : List (TokenKind × Bool)}
  {cs : List Char} {b b' b'' : Bool} {n : Nat} {stop : Rule Bool}

theorem takes_directedStatements_nil (hstop : Takes stop s s (· = true)) :
    Takes (directedStatements self ctx stop) s s fun ts => ts.head?.any Tree.isUseStrict = false := by
  unfold directedStatements
  refine hstop.bind ?_
  rintro _ rfl
  exact takes_pure rfl

/-- A run of statements that do not ask for strict mode. -/
theorem takes_directedStatements_cons {k : TokenKind} (hk : s.Heads k) (hopen : opensItem k = true)
    (h : Takes (self .statement ctx) s s' (·.isUseStrict = false))
    (hrest : Run (self .statement ctx) (·.isUseStrict = false) n s' s'') (hn : n ≤ s'.size + 2)
    (hstop : Stops stop s'') :
    Takes (directedStatements self ctx stop) s s''
      fun ts => ts.head?.any Tree.isUseStrict = false := by
  unfold directedStatements
  refine (hstop.atItem hk hopen).bind ?_
  rintro _ rfl
  refine h.bind fun first hfirst => ?_
  rw [Context.after_eq hfirst]
  refine (hrest.takes_many hstop hn).bind fun others _ => takes_pure ?_
  simpa using hfirst

theorem takes_closeBody (hclose : Takes (expect "\x7d") s s' fun _ => True)
    (h : s.Heads (.punctuator "\x7d")) : Takes closeBody s s' fun _ => True := by
  unfold closeBody
  refine (takes_atEnd h).bind ?_
  rintro _ rfl
  exact hclose

/-- A body whose statements do not ask for strict mode. -/
theorem takes_functionBody {hasNamesOnly : Bool}
    (h : Takes (directedStatements self ctx do return (← isAt "\x7d") || (← atEnd)) (ks, cs) s'
      fun ts => ts.head?.any Tree.isUseStrict = false)
    (hs' : s'.Heads (.punctuator "\x7d")) (hclose : Takes (expect "\x7d") s' s'' fun _ => True) :
    Takes (functionBody self ctx hasNamesOnly) ((.punctuator "\x7b", b) :: ks, cs) s''
      fun _ => True := by
  unfold functionBody
  refine takes_here.bind fun start _ => (takes_expect "\x7b").bind fun _ _ => ?_
  refine h.bind fun body hbody => (takes_closeBody hclose hs').bind fun _ _ => ?_
  refine (takes_finishNode _ _ _).bind fun t _ => ?_
  rw [hbody, Bool.and_false]
  exact takes_pure trivial

theorem takes_parameters_nil :
    Takes (parameters self ctx false)
      ((.punctuator "(", b) :: (.punctuator ")", b') :: ks, cs) (ks, cs) fun _ => True := by
  unfold parameters
  refine takes_here.bind fun start _ => (takes_expect "(").bind fun _ _ => ?_
  refine (takes_commaList (P := fun _ => True) (by simp) .nil (by omega) Stream.heads_token).bind
    fun ps _ => ?_
  exact (takes_expect ")").bind fun _ _ => (takes_finishNode _ _ _).imp fun _ _ => trivial

/-- The rest of a function without parameters. -/
theorem takes_functionRest {m : Modifiers}
    (h : ∀ hasNamesOnly, Takes (functionBody self (ctx.enter m) hasNamesOnly) (ks, cs) s'
      fun _ => True) :
    Takes (functionRest self ctx m false)
      ((.punctuator "(", b) :: (.punctuator ")", b') :: ks, cs) s' fun _ => True := by
  unfold functionRest
  exact takes_parameters_nil.bind fun ps _ => (h _).bind fun body _ => takes_pure trivial

theorem takes_checkBinding {text : String} (h : ctx.binds text = true) (span : Span) :
    Takes (checkBinding ctx text span) s s fun _ => True := by
  simp only [Place.binds, Place.reserves, Bool.and_eq_true, Bool.not_eq_true',
    Bool.or_eq_false_iff] at h
  obtain ⟨⟨⟨hstrict, hyield⟩, hawait⟩, hrestricted⟩ := h
  obtain ⟨hasync, hstatic⟩ : (ctx.isAsync && text == "await") = false ∧
      (ctx.inStaticBlock && text == "await") = false := by
    rwa [Bool.and_or_distrib_right, Bool.or_eq_false_iff] at hawait
  unfold checkBinding checkName
  simp only [hstrict, hyield, hasync, hstatic]
  exact takes_unless (by simp [hrestricted])

theorem takes_name {check : String → Span → Rule Unit} {text : String} (htext : text ∉ reservedWords)
    (h : ∀ span, Takes (check text span) ((.word text false, b) :: ks, cs)
      ((.word text false, b) :: ks, cs) fun _ => True) :
    Takes (name check) ((.word text false, b) :: ks, cs) (ks, cs) fun _ => True := by
  unfold name
  refine takes_here.bind fun start _ => (takes_current Stream.heads_token).bind ?_
  rintro ⟨_, span, _⟩ rfl
  have hname : (TokenKind.word text false).name? = some text := by
    rw [TokenKind.name?, if_neg (by simpa using htext)]
  simp only [hname]
  refine (h span).bind fun _ _ => takes_advance.bind fun _ _ => ?_
  exact (takes_finishNode _ _ _).imp fun _ _ => trivial

/-- A function without parameters that is declared. -/
theorem takes_statement_function {text : String} (htext : text ∉ reservedWords)
    (hbinds : ctx.binds text = true) {b₁ b₂ b₃ b₄ : Bool}
    (h : ∀ hasNamesOnly, Takes (functionBody self (ctx.enter .plain) hasNamesOnly) (ks, cs) s'
      fun _ => True) :
    Takes (statement self ctx)
      ((.word "function" false, b₁) :: (.word text false, b₂) :: (.punctuator "(", b₃) ::
        (.punctuator ")", b₄) :: ks, cs) s' (·.isUseStrict = false) := by
  unfold statement
  refine (takes_current Stream.heads_token).bind ?_
  rintro ⟨_, span, _⟩ rfl
  change Takes (functionNode self ctx span.lo false true) _ _ _
  unfold functionNode
  refine (takes_expectWord "function").bind fun _ _ => ?_
  refine (takes_take? Stream.heads_token rfl).bind ?_
  rintro _ rfl
  refine (takes_kind Stream.heads_token).bind fun _ _ => ?_
  refine (takes_name htext fun span => takes_checkBinding hbinds span).bind fun called _ => ?_
  refine (takes_functionRest h).bind fun rest _ => (takes_finishNode _ _ _).imp fun t ht => ?_
  exact not_isUseStrict_of_form (by simp [ht.1])

/-- A function without a name and without parameters is an operand. -/
theorem takes_primary_function {b₁ b₂ b₃ : Bool}
    (h : ∀ hasNamesOnly, Takes (functionBody self (ctx.enter .plain) hasNamesOnly) (ks, cs) s'
      fun _ => True) :
    Takes (primary self ctx)
      ((.word "function" false, b₁) :: (.punctuator "(", b₂) :: (.punctuator ")", b₃) :: ks, cs) s'
      IsOperand := by
  unfold primary
  refine (takes_current Stream.heads_token).bind ?_
  rintro ⟨_, span, _⟩ rfl
  change Takes (functionNode self ctx span.lo false false) _ _ _
  unfold functionNode
  refine (takes_expectWord "function").bind fun _ _ => ?_
  refine (takes_take? Stream.heads_token rfl).bind ?_
  rintro _ rfl
  refine (takes_kind Stream.heads_token).bind ?_
  rintro _ rfl
  refine (takes_functionRest h).bind fun rest _ => (takes_finishNode _ _ _).imp fun t ht => ?_
  exact .of_form ht.1 rfl

end Functions

end Rule

end Contracts
