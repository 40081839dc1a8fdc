import Contracts.Proofs.Syntax.Readable

/-!
# Functions that are handed to the checker

`handedText label cs` is the call that hands the function with the text `cs` to the
checker, and `forwarderText` the function that keeps what the call gives in a property
of itself and forwards to it. Both are read in the place where the function can be
read as an argument: the call as a value, the forwarding function as a statement.

The configuration is the default one; its path and its property are words.
-/

namespace Contracts

namespace Rule

open Text.Quoted (encode isReadable)

section Checker

variable {self : Self} {ctx : Context} {pl : Place} {s' : Stream} {ks : List (TokenKind × Bool)}
  {cs follow : List Char} {k : TokenKind} {b : Bool} {n : Nat}

/-- A word that is a variable in every context. -/
theorem isVariable_of_free {text : String}
    (h : text ∉ reservedWords ++ strictWords ++ ["await", "arguments"]) (ctx : Context) :
    IsVariable ctx text := by
  simp only [List.mem_append, not_or, List.mem_cons, List.not_mem_nil, or_false] at h
  obtain ⟨⟨hreserved, hstrict⟩, hawait, harguments⟩ := h
  have hyield : text ≠ "yield" := by
    rintro rfl
    exact hstrict (by decide)
  exact ⟨hreserved, by simp [Place.reserves, hstrict, hyield, hawait], by simp [harguments]⟩

theorem isVariable_global (ctx : Context) : IsVariable ctx "global" :=
  isVariable_of_free (by decide) ctx

theorem begins_variable {text : String} (h : IsVariable ctx text) :
    Begins ctx (.word text false) :=
  begins_word h.reserved h.name

/-- A call of the checker or of a member of it. -/
theorem takes_chain_checker {names : List String} (hnames : names ≠ [])
    (hargs : Takes (arguments self ctx) ((.punctuator "(", b) :: ks, cs) s' fun _ => True)
    (hk : s'.Heads k) (hend : EndsOperand k) (b' : Bool) :
    Takes (chain self ctx true)
      ((.word "global" false, b') :: (pathTokens names ++ (.punctuator "(", b) :: ks), cs) s'
      fun t => t.form = .call := by
  have hglobal : Takes (primary self ctx)
      ((.word "global" false, b') :: (pathTokens names ++ (.punctuator "(", b) :: ks), cs)
      (pathTokens names ++ (.punctuator "(", b) :: ks, cs) IsOperand := by
    obtain ⟨name, names, rfl⟩ := List.exists_cons_of_ne_nil hnames
    exact (takes_primary_word (isVariable_global ctx) (by decide) Stream.heads_token rfl).imp
      fun _ ht => .of_form ht rfl
  exact takes_chain_call hglobal hargs hk hend

theorem isWord_global : Token.IsWord "global" :=
  Token.isWord_of_all rfl (by decide) (by decide)

theorem isWord_typify : Token.IsWord "__typify" :=
  Token.isWord_of_all rfl (by decide) (by decide)

theorem isSound_encode {text : String} (h : isReadable text = true) :
    IsSound (String.ofList (encode text.toList)) := by
  intro position
  rw [String.toList_ofList]
  exact Token.textFault?_encode h false position

end Checker

section Handed

variable {ctx : Context} {pl : Place} {label : String} {cs follow : List Char} {k : TokenKind}
  {n : Nat}

/-- The call that hands a function to the checker, in print. -/
def handedText (label : String) (cs : List Char) : List Char :=
  "global".toList ++ ('.' :: ("__typify".toList ++ ('(' :: (encode label.toList ++
    (',' :: ' ' :: (cs ++ [')']))))))

theorem handedText_append (label : String) (cs follow : List Char) :
    handedText label cs ++ follow = "global".toList ++ ('.' :: ("__typify".toList ++
      ('(' :: (encode label.toList ++ (',' :: ' ' :: (cs ++ ')' :: follow)))))) := by
  unfold handedText
  simp only [List.append_assoc, List.cons_append, List.nil_append]

theorem length_handedText (label : String) (cs : List Char) :
    cs.length + 2 ≤ (handedText label cs).length := by
  unfold handedText
  simp only [List.length_append, List.length_cons]
  omega

theorem lexed_handedText (hlabel : isReadable label = true) (isBroken : Bool) :
    LexedUpTo (cs ++ ')' :: follow) isBroken (handedText label cs ++ follow)
      ((.word "global" false, isBroken) :: (pathTokens ["__typify"] ++ (.punctuator "(", false) ::
        [(.string (String.ofList (encode label.toList)), false), (.punctuator ",", false)])) := by
  rw [handedText_append]
  refine .word isWord_global (Token.endsWord_cons (by decide) _) ?_
  refine .point (isWord_typify.head?_append _) ?_
  refine .word isWord_typify (Token.endsWord_cons (by decide) _) (.mark (by decide) ?_)
  exact .literal hlabel (.mark (by decide) (.blank .done))

theorem exists_opens_argument (h : ReadsArgument pl cs) (hfollow : Text.Opens follow k) :
    ∃ k', Text.Opens (cs ++ ')' :: follow) k' ∧ opensItem k' = true :=
  h.opens (opens_mark (by decide) hfollow) rfl

theorem takes_chain_handed (hlabel : isReadable label = true) (h : ReadsArgument pl cs)
    (hctx : ctx.Within pl) (hn : 4 * cs.length + 8 ≤ n) (hfollow : Text.Opens follow k)
    (hend : EndsOperand k) :
    Takes (chain (atDepth n) ctx true) ([], handedText label cs ++ follow) ([], follow)
      fun t => t.form = .call := by
  obtain ⟨k', hk', hopen⟩ := exists_opens_argument h hfollow
  obtain ⟨n, rfl⟩ : ∃ m, n = m + 2 := ⟨n - 2, by omega⟩
  have hparen : Text.Opens (')' :: follow) (.punctuator ")") := opens_mark (by decide) hfollow
  refine Takes.of_lexed (lexed_handedText hlabel) hk' fun isBroken => ?_
  refine takes_chain_checker (by simp) ?_ (Stream.heads_text hfollow) hend isBroken
  exact takes_arguments_pair Stream.heads_token rfl
    (takes_atDepth_string (isSound_encode hlabel) Stream.heads_token (.inl rfl))
    (Stream.heads_text hk') hopen (h.takes hparen rfl ⟨hctx.withIn, rfl⟩ hn)
    (Stream.heads_text hparen) (takes_expect_text (by decide) hfollow)

/-- The call of the checker is a value. -/
theorem readsValue_handed (hlabel : isReadable label = true) (h : ReadsArgument pl cs) :
    ReadsValue pl (handedText label cs) where
  opens := by
    intro follow k hfollow _
    obtain ⟨k', hk', -⟩ := exists_opens_argument h hfollow
    exact ⟨_, .of_lexed (fun isBroken => ⟨_, lexed_handedText hlabel isBroken⟩) hk', rfl⟩
  takes := by
    intro follow k hfollow hend ctx n hctx hn
    obtain ⟨k', hk', -⟩ := exists_opens_argument h hfollow
    have hopens : Text.Opens (handedText label cs ++ follow) (.word "global" false) :=
      .of_lexed (fun isBroken => ⟨_, lexed_handedText hlabel isBroken⟩) hk'
    obtain ⟨n, rfl⟩ : ∃ m, n = m + 2 := ⟨n - 2, by omega⟩
    have hlength := length_handedText label cs
    refine (takes_atDepth_assignment (Stream.heads_text hopens)
      (begins_variable (isVariable_global ctx)) (Stream.heads_text hfollow) hend
      (fun t (ht : t.form = .call) => .of_form ht rfl)
      (takes_chain_handed hlabel h hctx (by omega) hfollow (.inl hend))).imp ?_
    exact fun t ht => not_isUseStrict_of_form (by simp [ht])

end Handed

section Forwarder

variable {ctx : Context} {pl : Place} {name label : String} {cs follow : List Char} {k : TokenKind}
  {n : Nat}

/-- The property in which a function keeps what the checker gives. -/
def cacheText (name : String) : List Char :=
  name.toList ++ ('.' :: "__typify__".toList)

/-- The statement that fills the property, unless it is filled. -/
def fillText (name label : String) (cs : List Char) : List Char :=
  cacheText name ++ (' ' :: ("=".toList ++ (' ' :: (cacheText name ++ (' ' :: ("||".toList ++
    (' ' :: (handedText label cs ++ [';']))))))))

/-- The statement that forwards a call. -/
def forwardText (name : String) : List Char :=
  "return".toList ++ (' ' :: (cacheText name ++ ('.' :: ("apply".toList ++ ('(' ::
    ("this".toList ++ (',' :: ' ' :: ("arguments".toList ++ [')', ';']))))))))

theorem isWord_cache : Token.IsWord "__typify__" :=
  Token.isWord_of_all rfl (by decide) (by decide)

/-- The tokens of the property, and those behind it. -/
theorem lexed_cacheText {tail rest : List Char} {ks : List (TokenKind × Bool)}
    (hname : Token.IsWord name) (hrest : Token.EndsWord rest) (h : LexedUpTo tail false rest ks)
    (isBroken : Bool) :
    LexedUpTo tail isBroken (cacheText name ++ rest)
      ((.word name false, isBroken) :: (.punctuator ".", false) ::
        (.word "__typify__" false, false) :: ks) := by
  rw [cacheText, List.append_assoc, List.cons_append]
  refine .word hname (Token.endsWord_cons (by decide) _) ?_
  exact .point (isWord_cache.head?_append _) (.word isWord_cache hrest h)

theorem lexed_fillText (hname : Token.IsWord name) (isBroken : Bool) :
    LexedUpTo (handedText label cs ++ ';' :: follow) isBroken (fillText name label cs ++ follow)
      ([(.word name false, isBroken), (.punctuator ".", false), (.word "__typify__" false, false),
        (.punctuator "=", false), (.word name false, false), (.punctuator ".", false),
        (.word "__typify__" false, false), (.punctuator "||", false)]) := by
  have htext : fillText name label cs ++ follow = cacheText name ++ (' ' :: ("=".toList ++ (' ' ::
      (cacheText name ++ (' ' :: ("||".toList ++ (' ' ::
        (handedText label cs ++ ';' :: follow)))))))) := by
    simp only [fillText, List.append_assoc, List.cons_append, List.nil_append]
  rw [htext]
  refine lexed_cacheText hname (Token.endsWord_cons (by decide) _) (.blank ?_) isBroken
  refine .operator (.inl rfl) ?_
  refine lexed_cacheText hname (Token.endsWord_cons (by decide) _) (.blank ?_) false
  exact .operator (.inr rfl) .done

theorem lexed_forwardText (hname : Token.IsWord name) (isBroken : Bool) :
    LexedUpTo follow isBroken (forwardText name ++ follow)
      ([(.word "return" false, isBroken), (.word name false, false), (.punctuator ".", false),
        (.word "__typify__" false, false), (.punctuator ".", false), (.word "apply" false, false),
        (.punctuator "(", false), (.word "this" false, false), (.punctuator ",", false),
        (.word "arguments" false, false), (.punctuator ")", false), (.punctuator ";", false)]) := by
  have hreturn : Token.IsWord "return" := Token.isWord_of_all rfl (by decide) (by decide)
  have happly : Token.IsWord "apply" := Token.isWord_of_all rfl (by decide) (by decide)
  have hthis : Token.IsWord "this" := Token.isWord_of_all rfl (by decide) (by decide)
  have harguments : Token.IsWord "arguments" := Token.isWord_of_all rfl (by decide) (by decide)
  have htext : forwardText name ++ follow = "return".toList ++ (' ' :: (cacheText name ++ ('.' ::
      ("apply".toList ++ ('(' :: ("this".toList ++ (',' :: ' ' :: ("arguments".toList ++
        (')' :: ';' :: follow))))))))) := by
    unfold forwardText
    simp only [List.append_assoc, List.cons_append, List.nil_append]
  rw [htext]
  refine .word hreturn (Token.endsWord_cons (by decide) _) (.blank ?_)
  refine lexed_cacheText hname (Token.endsWord_cons (by decide) _) ?_ false
  refine .point (happly.head?_append _) (.word happly (Token.endsWord_cons (by decide) _) ?_)
  refine .mark (by decide) (.word hthis (Token.endsWord_cons (by decide) _) ?_)
  refine .mark (by decide) (.blank (.word harguments (Token.endsWord_cons (by decide) _) ?_))
  exact .mark (by decide) (.mark (by decide) .done)

/-- Inside of a function that can be declared in the place its name is a variable. -/
theorem isVariable_of_binds (hreserved : name ∉ reservedWords) (hbinds : pl.binds name = true)
    (hctx : ctx.Within (pl.enter .plain)) : IsVariable ctx name where
  reserved := hreserved
  name := by
    refine hctx.reserves_eq_false ?_
    simp only [Place.binds, Place.reserves, Bool.and_eq_true, Bool.not_eq_true',
      Bool.or_eq_false_iff] at hbinds
    simp only [Place.reserves, Place.enter, Modifiers.plain, hbinds.1.1.1, Bool.false_and,
      Bool.or_self]
  arguments := by
    rw [hctx.inField]
    rfl

/-- The property in front of an operator. -/
theorem takes_unary_cache {self : Self} {ks : List (TokenKind × Bool)} {cs : List Char}
    {b b₁ b₂ : Bool} (hvariable : IsVariable ctx name) (hk : Stream.Heads (ks, cs) k)
    (hend : EndsOperand k) :
    Takes (unary self ctx)
      ((.word name false, b) :: (.punctuator ".", b₁) :: (.word "__typify__" false, b₂) :: ks, cs)
      (ks, cs) fun t => t.form = .member := by
  have hprimary : Takes (primary self ctx)
      ((.word name false, b) :: (.punctuator ".", b₁) :: (.word "__typify__" false, b₂) :: ks, cs)
      ((.punctuator ".", b₁) :: (.word "__typify__" false, b₂) :: ks, cs) IsOperand :=
    (takes_primary_name hvariable Stream.heads_token (by decide) (by decide)).imp
      fun _ ht => .of_form ht rfl
  exact takes_unary Stream.heads_token (begins_variable hvariable) hk hend
    (fun t (ht : t.form = .member) => .of_form ht rfl) (takes_chain_property hprimary hk hend)

/-- The context of a statement in a function that stands in the place. -/
def IsInFunction (pl : Place) (ctx : Context) : Prop :=
  ctx.Within (pl.enter .plain) ∧ ctx.inFunction = true

theorem readsStatement_fill (hname : Token.IsWord name) (hreserved : name ∉ reservedWords)
    (hbinds : pl.binds name = true) (hlabel : isReadable label = true)
    (h : ReadsArgument (pl.enter .plain) cs) :
    ReadsStatement (IsInFunction pl) (fillText name label cs) := by
  have hopens : ∀ {follow : List Char} {k : TokenKind}, Text.Opens follow k →
      Text.Opens (handedText label cs ++ ';' :: follow) (.word "global" false) := by
    intro follow k hfollow
    have hsemicolon : Text.Opens (';' :: follow) (.punctuator ";") := opens_mark (by decide) hfollow
    obtain ⟨k', hk', -⟩ := exists_opens_argument h hsemicolon
    exact .of_lexed (fun isBroken => ⟨_, lexed_handedText hlabel isBroken⟩) hk'
  constructor
  · intro follow k hfollow _
    exact ⟨_, .of_lexed (fun isBroken => ⟨_, lexed_fillText hname isBroken⟩) (hopens hfollow), rfl⟩
  · intro follow k hfollow _ ctx n hctx hn
    have hlength : cs.length + 2 ≤ (fillText name label cs).length := by
      refine Nat.le_trans (length_handedText label cs) ?_
      simp only [fillText, List.length_append, List.length_cons]
      omega
    obtain ⟨n, rfl⟩ : ∃ m, n = m + 7 := ⟨n - 7, by omega⟩
    refine Takes.of_lexed (lexed_fillText hname) (hopens hfollow) fun isBroken => ?_
    have hsemicolon : Text.Opens (';' :: follow) (.punctuator ";") := opens_mark (by decide) hfollow
    have hend : IsClosing (.punctuator ";") := .inr (.inr (.inr rfl))
    have hglobal := begins_variable (isVariable_global ctx.withIn)
    have hvariable := isVariable_of_binds hreserved hbinds hctx.1.withIn
    have hcall : Takes (unary (atDepth (n + 2)) ctx.withIn)
        ([], handedText label cs ++ ';' :: follow) ([], ';' :: follow) fun t => t.form = .call :=
      takes_unary (Stream.heads_text (hopens hfollow)) hglobal (Stream.heads_text hsemicolon)
        (.inl hend) (fun t (ht : t.form = .call) => .of_form ht rfl)
        (takes_chain_handed hlabel h hctx.1.withIn (by omega) hsemicolon (.inl hend))
    have hvalue : Takes (assignment (atDepth (n + 3)) ctx.withIn)
        ([(.word name false, false), (.punctuator ".", false), (.word "__typify__" false, false),
          (.punctuator "||", false)], handedText label cs ++ ';' :: follow) ([], ';' :: follow)
        fun t => t.form = .binary "||" :=
      takes_assignment Stream.heads_token (begins_variable hvariable) (Stream.heads_text hsemicolon)
        hend (fun t ht => by rw [isArrow, ht])
        (takes_binary_or (fun t (ht : t.form = .member) => .of_form ht rfl)
          (fun t (ht : t.form = .call) => .of_form ht rfl)
          (takes_unary_cache hvariable Stream.heads_token (.inr (.inr rfl))) hcall
          (Stream.heads_text hsemicolon) hend)
    exact takes_statement_name hreserved (takes_expressionStatement
      (takes_expression (takes_assignment_equals Stream.heads_token (begins_variable hvariable)
        (takes_unary_cache hvariable Stream.heads_token (.inr (.inl rfl)))
        (hvalue.imp fun _ _ => trivial)) (Stream.heads_text hsemicolon) rfl)
      (takes_endStatement_text hfollow) fun e he text => by simp [he])

/-- What a call is forwarded with. -/
theorem takes_arguments_forward {ks : List (TokenKind × Bool)} (hctx : ctx.Within (pl.enter .plain)) :
    Takes (arguments (atDepth (n + 2)) ctx)
      ((.punctuator "(", false) :: (.word "this" false, false) :: (.punctuator ",", false) ::
        (.word "arguments" false, false) :: (.punctuator ")", false) :: ks, cs) (ks, cs)
      fun _ => True := by
  have hrefuses : (pl.enter .plain).refuses "arguments" = false := by
    have hreserved : "arguments" ∉ reservedWords := by decide
    have hstrict : "arguments" ∉ strictWords := by decide
    simp [Place.refuses, Place.enter, Modifiers.plain, hreserved, hstrict]
  have hthis : Takes (atDepth (n + 2) .assignment ctx.withIn)
      ((.word "this" false, false) :: (.punctuator ",", false) ::
        (.word "arguments" false, false) :: (.punctuator ")", false) :: ks, cs)
      ((.punctuator ",", false) :: (.word "arguments" false, false) :: (.punctuator ")", false) :: ks,
        cs) IsOperand :=
    takes_atDepth_assignment Stream.heads_token ⟨rfl, Bool.and_false _, Bool.and_false _⟩
      Stream.heads_token (.inl rfl) (fun _ ht => ht)
      (takes_chain_end Stream.heads_token (.inl (.inl rfl)) (takes_primary_keyword (by decide)))
  have harguments : Takes (atDepth (n + 2) .assignment ctx.withIn)
      ((.word "arguments" false, false) :: (.punctuator ")", false) :: ks, cs)
      ((.punctuator ")", false) :: ks, cs) (·.isUseStrict = false) :=
    takes_word hctx.withIn hrefuses Stream.heads_token
  exact takes_arguments_pair Stream.heads_token rfl hthis Stream.heads_token rfl harguments
    Stream.heads_token (takes_expect ")")

theorem readsStatement_forward (hname : Token.IsWord name) (hreserved : name ∉ reservedWords)
    (hbinds : pl.binds name = true) : ReadsStatement (IsInFunction pl) (forwardText name) := by
  constructor
  · intro follow k hfollow _
    exact ⟨_, .of_lexed (fun isBroken => ⟨_, lexed_forwardText hname isBroken⟩) hfollow, rfl⟩
  · intro follow k hfollow _ ctx n hctx hn
    obtain ⟨n, rfl⟩ : ∃ m, n = m + 6 := ⟨n - 6, by omega⟩
    refine Takes.of_lexed (lexed_forwardText hname) hfollow fun isBroken => ?_
    have hend : IsClosing (.punctuator ";") := .inr (.inr (.inr rfl))
    have hvariable := isVariable_of_binds hreserved hbinds hctx.1.withIn
    have hprimary : ∀ ks, Takes (primary (atDepth (n + 2)) ctx.withIn)
        ((.word name false, false) :: (pathTokens ["__typify__", "apply"] ++ ks), follow)
        (pathTokens ["__typify__", "apply"] ++ ks, follow) IsOperand := fun ks =>
      (takes_primary_name hvariable Stream.heads_token (by decide) (by decide)).imp
        fun _ ht => .of_form ht rfl
    have harguments : Takes (arguments (atDepth (n + 2)) ctx.withIn) _
        ([(.punctuator ";", false)], follow) fun _ => True :=
      takes_arguments_forward hctx.1.withIn
    have hcall := takes_chain_call (hprimary _) harguments Stream.heads_token (.inl hend)
    have hassignment := takes_atDepth_assignment Stream.heads_token (begins_variable hvariable)
      Stream.heads_token hend (fun t (ht : t.form = .call) => .of_form ht rfl) hcall
    have hexpression : Takes (atDepth (n + 5) .expression ctx.withIn) _ _ _ :=
      takes_expression hassignment Stream.heads_token rfl
    exact takes_statement_return hctx.2 rfl rfl hexpression

/-- The statement that forwards to a checked function, in print: the lines of its body are indented
by `inside` blanks, and the others by `outside`. -/
def forwarderText (name label : String) (cs : List Char) (outside inside : Nat) : List Char :=
  "function".toList ++ (' ' :: (name.toList ++ ("() ".toList ++ bodyText
    [List.replicate inside ' ' ++ fillText name label cs ++ ['\n'],
      List.replicate inside ' ' ++ forwardText name ++ ['\n']] outside)))

/-- The forwarding function is a statement. -/
theorem readsStatement_forwarder (hname : Token.IsWord name) (hreserved : name ∉ reservedWords)
    (hbinds : pl.binds name = true) (hlabel : isReadable label = true)
    (h : ReadsArgument (pl.enter .plain) cs) (outside inside : Nat) :
    ReadsStatement (·.Within pl) (forwarderText name label cs outside inside) := by
  have hbody : ∀ line ∈ [List.replicate inside ' ' ++ fillText name label cs ++ ['\n'],
      List.replicate inside ' ' ++ forwardText name ++ ['\n']],
      ReadsStatement (IsInFunction pl) line := by
    rw [List.forall_mem_cons, List.forall_mem_singleton]
    exact ⟨((readsStatement_fill hname hreserved hbinds hlabel h).blanks inside).line,
      ((readsStatement_forward hname hreserved hbinds).blanks inside).line⟩
  exact readsStatement_function hname hreserved hbinds hbody
    (fun ctx hctx => ⟨hctx.enter .plain, rfl⟩) outside

end Forwarder

end Rule

end Contracts
