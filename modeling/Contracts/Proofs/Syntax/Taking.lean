import Contracts.Proofs.Syntax.Lexing
import Contracts.Syntax.Grammar.Script

/-!
# What a rule takes

`Rule.Takes r s s' P` says that the rule `r` succeeds wherever the stream `s` is
ahead, that it leaves the stream `s'` ahead, and that its result has the property
`P`. Unlike a statement about the results that a rule can give, this one promises a
result. It is composed like the rules themselves: one lemma for each elementary
rule, one for `>>=`, and one for each turn of a loop.

The rules for expressions are followed here through operands and the links of a
chain. Where no operator follows an operand, every rule between an assignment and a
chain hands on what it got (`takes_atDepth_assignment`). This holds in every
context, as long as the operand does not begin with a word that is an operator
there.
-/

namespace Contracts

/-- The current token is of the kind `k`. -/
def Stream.Heads (s : Stream) (k : TokenKind) : Prop :=
  ∀ c : Cursor, c.Sees s → c.token.kind = k

namespace Stream

variable {ks : List (TokenKind × Bool)} {cs : List Char} {k : TokenKind} {b : Bool}

@[simp]
theorem heads_token : Heads ((k, b) :: ks, cs) k := by
  intro c hc
  cases hc.ahead with
  | more => rfl

theorem heads_text (h : Text.Opens cs k) : Heads ([], cs) k := by
  intro c hc
  cases hc.ahead with
  | done hon => exact h.kind_eq hon

end Stream

/-- The token in front can be taken. -/
theorem Cursor.Sees.exists_next {c : Cursor} {k : TokenKind} {b : Bool}
    {ks : List (TokenKind × Bool)} {cs : List Char} (hc : c.Sees ((k, b) :: ks, cs)) :
    ∃ d, c.next = .ok d ∧ d.Sees (ks, cs) := by
  cases hc.ahead with
  | @more _ d _ h hnext hminor hlimit hd =>
      have hroom := hc.limit
      refine ⟨d, hnext, hd, hminor.trans hc.minor, ?_⟩
      simp only [Stream.size, List.length_cons] at hroom ⊢
      omega

namespace Rule

/-- Where the stream `s` is ahead, the rule succeeds and leaves the stream `s'` ahead. -/
def Takes {α : Type} (r : Rule α) (s s' : Stream) (P : α → Prop) : Prop :=
  ∀ c : Cursor, c.Sees s → ∃ a d, r c = .ok (a, d) ∧ d.Sees s' ∧ P a

section Steps

variable {α β : Type} {s s' s'' : Stream} {ks : List (TokenKind × Bool)} {cs : List Char}
  {k k' : TokenKind} {b : Bool}

theorem Takes.bind {r : Rule α} {f : α → Rule β} {P : α → Prop} {Q : β → Prop}
    (h : Takes r s s' P) (hf : ∀ a, P a → Takes (f a) s' s'' Q) : Takes (r >>= f) s s'' Q := by
  intro c hc
  obtain ⟨a, d, hr, hd, ha⟩ := h c hc
  obtain ⟨a', d', hr', hd', ha'⟩ := hf a ha d hd
  refine ⟨a', d', ?_, hd', ha'⟩
  change (r c >>= fun p => f p.1 p.2) = _
  rw [hr]
  exact hr'

theorem Takes.imp {r : Rule α} {P Q : α → Prop} (h : Takes r s s' P) (hPQ : ∀ a, P a → Q a) :
    Takes r s s' Q := by
  intro c hc
  obtain ⟨a, d, hr, hd, ha⟩ := h c hc
  exact ⟨a, d, hr, hd, hPQ a ha⟩

/-- A text is taken as the tokens that it consists of. -/
theorem Takes.of_lexed {r : Rule α} {P : α → Prop} {tail : List Char}
    {ks : Bool → List (TokenKind × Bool)}
    (hcs : ∀ isBroken, LexedUpTo tail isBroken cs (ks isBroken)) (htail : Text.Opens tail k)
    (h : ∀ isBroken, Takes r (ks isBroken, tail) s' P) : Takes r ([], cs) s' P := by
  intro c hc
  obtain ⟨isBroken, hsees⟩ := hc.of_lexed hcs htail
  exact h isBroken c hsees

/-- Blanks and line feeds behind what is taken do not count. -/
theorem Takes.skip {r : Rule α} {P : α → Prop} {d : Char} (hd : d = ' ' ∨ d = '\n')
    (h : Takes r s ([], d :: cs) P) : Takes r s ([], cs) P := by
  intro c hc
  obtain ⟨a, e, hr, he, ha⟩ := h c hc
  exact ⟨a, e, hr, he.skip hd, ha⟩

theorem takes_pure {P : α → Prop} {a : α} (h : P a) : Takes (pure a : Rule α) s s P :=
  fun c hc => ⟨a, c, rfl, hc, h⟩

theorem takes_get : Takes get s s fun c => s.size + 2 ≤ c.limit :=
  fun c hc => ⟨c, c, rfl, hc, hc.limit⟩

theorem takes_current (h : s.Heads k) : Takes current s s fun t => t.kind = k :=
  fun c hc => ⟨c.token, c, rfl, hc, h c hc⟩

theorem takes_current_token :
    Takes current ((k, b) :: ks, cs) ((k, b) :: ks, cs) fun t => t.kind = k ∧ t.afterBreak = b := by
  intro c hc
  refine ⟨c.token, c, rfl, hc, Stream.heads_token c hc, ?_⟩
  cases hc.ahead with
  | more => rfl

theorem takes_kind (h : s.Heads k) : Takes kind s s (· = k) :=
  (takes_current h).bind fun _ h => takes_pure h

theorem takes_isAt (h : s.Heads k) (text : String) :
    Takes (isAt text) s s (· = k.isPunctuator text) :=
  (takes_kind h).bind fun _ h => takes_pure (by rw [h])

theorem takes_isAtWord (h : s.Heads k) (text : String) :
    Takes (isAtWord text) s s (· = k.isWord text) :=
  (takes_kind h).bind fun _ h => takes_pure (by rw [h])

theorem takes_atEnd (h : s.Heads k) : Takes atEnd s s (· = (k == .endOfFile)) :=
  (takes_kind h).bind fun _ h => takes_pure (by rw [h])

theorem takes_advance : Takes advance ((k, b) :: ks, cs) (ks, cs) fun _ => True := by
  intro c hc
  obtain ⟨d, hnext, hd⟩ := hc.exists_next
  refine ⟨(), d, ?_, hd, trivial⟩
  change (StateT.lift c.next >>= fun d => set d) c = _
  rw [hnext]
  rfl

theorem takes_peek (h : Stream.Heads (ks, cs) k') :
    Takes peek ((k, b) :: ks, cs) ((k, b) :: ks, cs) fun t => t.kind = k' := by
  intro c hc
  obtain ⟨d, hnext, hd⟩ := hc.exists_next
  refine ⟨d.token, c, ?_, hc, h d hd⟩
  simp only [peek, bind, StateT.bind, get, getThe, MonadStateOf.get, StateT.get, pure,
    Except.pure, Except.bind, hnext]
  rfl

theorem takes_here : Takes here s s fun _ => True := by
  refine Takes.bind (P := fun _ => True) (fun c hc => ⟨c, c, rfl, hc, trivial⟩) fun c _ => ?_
  split
  · exact takes_pure trivial
  · exact takes_pure trivial

theorem takes_finishNode (start : Nat) (form : Form) (children : List Tree) :
    Takes (finishNode start form children) s s
      fun t => t.form = form ∧ t.children = children :=
  fun c hc => ⟨_, c, rfl, hc, rfl, rfl⟩

theorem takes_expect (text : String) :
    Takes (expect text) ((.punctuator text, b) :: ks, cs) (ks, cs) fun _ => True := by
  unfold expect
  refine (takes_isAt Stream.heads_token text).bind ?_
  rintro _ rfl
  rw [if_pos (by simp [TokenKind.isPunctuator])]
  exact takes_advance

theorem takes_expectWord (text : String) :
    Takes (expectWord text) ((.word text false, b) :: ks, cs) (ks, cs) fun _ => True := by
  unfold expectWord
  refine (takes_isAtWord Stream.heads_token text).bind ?_
  rintro _ rfl
  rw [if_pos (by simp [TokenKind.isWord])]
  exact takes_advance

theorem takes_take? (h : s.Heads k) {text : String} (htext : k.isPunctuator text = false) :
    Takes (take? text) s s (· = false) := by
  unfold take?
  refine (takes_isAt h text).bind ?_
  rintro _ rfl
  rw [htext]
  exact takes_pure rfl

theorem takes_take?_self (text : String) :
    Takes (take? text) ((.punctuator text, b) :: ks, cs) (ks, cs) (· = true) := by
  unfold take?
  refine (takes_isAt Stream.heads_token text).bind ?_
  rintro _ rfl
  rw [if_pos (by simp [TokenKind.isPunctuator])]
  exact takes_advance.bind fun _ _ => takes_pure rfl

theorem takes_anyName (text : String) :
    Takes anyName ((.word text false, b) :: ks, cs) (ks, cs) fun _ => True := by
  unfold anyName
  refine takes_here.bind fun start _ => (takes_kind Stream.heads_token).bind ?_
  rintro _ rfl
  refine takes_advance.bind fun _ _ => (takes_finishNode start _ []).imp ?_
  exact fun _ _ => trivial

/-- What is noted only under a condition is not noted where the condition fails. -/
theorem takes_unless {p : Prop} [Decidable p] {r : Rule Unit} (h : ¬p) :
    Takes (if p then r else pure ()) s s fun _ => True := by
  rw [if_neg h]
  exact takes_pure trivial

end Steps

section Loops

variable {s s' s'' : Stream}

theorem takes_manyWithin_stop {stop : Rule Bool} (item : Rule Tree) (n : Nat)
    (h : Takes stop s s (· = true)) :
    Takes (manyWithin stop item (n + 1)) s s fun _ => True := by
  unfold manyWithin
  refine h.bind ?_
  rintro _ rfl
  exact takes_pure trivial

theorem takes_manyWithin_item {stop : Rule Bool} {item : Rule Tree} {n : Nat}
    (h : Takes stop s s (· = false)) (hitem : Takes item s s' fun _ => True)
    (hrest : Takes (manyWithin stop item n) s' s'' fun _ => True) :
    Takes (manyWithin stop item (n + 1)) s s'' fun _ => True := by
  unfold manyWithin
  refine h.bind ?_
  rintro _ rfl
  exact hitem.bind fun t _ => hrest.bind fun ts _ => takes_pure trivial

theorem takes_many {stop : Rule Bool} {item : Rule Tree}
    (h : ∀ n, s.size + 2 ≤ n → Takes (manyWithin stop item n) s s' fun _ => True) :
    Takes (many stop item) s s' fun _ => True :=
  takes_get.bind fun c hc => h c.limit hc

variable {step : Tree → Rule (Option Tree)} {t : Tree} {P Q : Tree → Prop}

theorem takes_iterateWithin_none (n : Nat) (h : Takes (step t) s s (· = none)) (ht : Q t) :
    Takes (iterateWithin step (n + 1) t) s s Q := by
  unfold iterateWithin
  refine h.bind ?_
  rintro _ rfl
  exact takes_pure ht

theorem takes_iterateWithin_some {n : Nat}
    (h : Takes (step t) s s' fun o => ∃ u, o = some u ∧ P u)
    (hrest : ∀ u, P u → Takes (iterateWithin step n u) s' s'' Q) :
    Takes (iterateWithin step (n + 1) t) s s'' Q := by
  unfold iterateWithin
  refine h.bind ?_
  rintro _ ⟨u, rfl, hu⟩
  exact hrest u hu

theorem takes_iterate {m : Nat} (hm : m ≤ s.size + 2)
    (h : ∀ n, Takes (iterateWithin step (n + m) t) s s' Q) : Takes (iterate step t) s s' Q := by
  refine takes_get.bind fun c hc => ?_
  obtain ⟨n, hn⟩ := Nat.exists_eq_add_of_le' (Nat.le_trans hm hc)
  rw [hn]
  exact h n

end Loops

section Operands

/-- The productions of operands that occur in what this library adds to a script. -/
def isOperandForm : Form → Bool
  | .identifier _ | .this | .literal _ _ | .object | .functionExpression _ | .member | .call => true
  | _ => false

def IsOperand (t : Tree) : Prop :=
  isOperandForm t.form = true

theorem IsOperand.of_form {t : Tree} {f : Form} (h : t.form = f) (hf : isOperandForm f = true) :
    IsOperand t := by
  rw [IsOperand, h, hf]

theorem IsOperand.ne {t : Tree} (h : IsOperand t) {f : Form} (hf : isOperandForm f = false) :
    t.form ≠ f := by
  rintro rfl
  rw [IsOperand, hf] at h
  exact absurd h (by simp)

theorem IsOperand.isArrow_eq {t : Tree} (h : IsOperand t) : isArrow t = false := by
  unfold isArrow
  split
  next heq => simp [IsOperand, isOperandForm, heq] at h
  next => rfl

theorem IsOperand.mixedOperands_eq {t : Tree} (h : IsOperand t) : mixedOperands t = [] := by
  unfold mixedOperands
  split
  next => simp [IsOperand, isOperandForm] at h
  next => rfl

theorem IsOperand.isUseStrict_eq {t : Tree} (h : IsOperand t) : t.isUseStrict = false := by
  unfold Tree.isUseStrict
  split
  next => simp [IsOperand, isOperandForm] at h
  next => rfl

/-- The marks in front of which an expression ends. -/
def IsClosing (k : TokenKind) : Prop :=
  k = .punctuator "," ∨ k = .punctuator ")" ∨ k = .punctuator "\x7d" ∨ k = .punctuator ";"

/-- The marks in front of which an operand ends here. -/
def EndsOperand (k : TokenKind) : Prop :=
  IsClosing k ∨ k = .punctuator "=" ∨ k = .punctuator "||"

/-- Whether a token can start an operand, as no operator stands in front of it. -/
def startsOperand : TokenKind → Bool
  | .string _ | .punctuator "\x7b" => true
  | .word text _ => !(["typeof", "void", "delete"].contains text)
  | _ => false

/-- An operand starts with the token, which is no operator in the context. -/
structure Begins (ctx : Context) (k : TokenKind) : Prop where
  starts : startsOperand k = true
  await : (ctx.isAsync && k.isWord "await") = false
  yield : (ctx.isGenerator && k.isWord "yield") = false

theorem begins_string (ctx : Context) (text : String) : Begins ctx (.string text) where
  starts := rfl
  await := Bool.and_false _
  yield := Bool.and_false _

theorem begins_brace (ctx : Context) : Begins ctx (.punctuator "\x7b") where
  starts := rfl
  await := Bool.and_false _
  yield := Bool.and_false _

theorem begins_word {ctx : Context} {text : String} (htext : text ∉ reservedWords)
    (hname : ctx.reserves text = false) : Begins ctx (.word text false) where
  starts := by
    rw [startsOperand, Bool.not_eq_true', Bool.eq_false_iff]
    intro hcontains
    rw [List.contains_iff_mem] at hcontains
    have hwords : ∀ word ∈ ["typeof", "void", "delete"], word ∈ reservedWords := by
      decide
    exact htext (hwords text hcontains)
  await := by
    rw [Bool.eq_false_iff]
    intro h
    simp only [Bool.and_eq_true, TokenKind.isWord, beq_iff_eq, TokenKind.word.injEq, and_true] at h
    simp [Place.reserves, h] at hname
  yield := by
    rw [Bool.eq_false_iff]
    intro h
    simp only [Bool.and_eq_true, TokenKind.isWord, beq_iff_eq, TokenKind.word.injEq, and_true] at h
    simp [Place.reserves, h] at hname

variable {self : Self} {ctx : Context} {s s' : Stream} {ks : List (TokenKind × Bool)}
  {cs : List Char} {k k' : TokenKind} {b : Bool}

theorem takes_leaf (start : Nat) {form : Form} (h : isOperandForm form = true) :
    Takes (do advance; finishNode start form []) ((k, b) :: ks, cs) (ks, cs) IsOperand :=
  takes_advance.bind fun _ _ => (takes_finishNode _ _ _).imp fun _ ht => .of_form ht.1 h

/-- The text of a string literal without a wrong escape. -/
def IsSound (text : String) : Prop :=
  ∀ position, Token.textFault? false position text.toList = none

theorem takes_checkText {text : String} (h : IsSound text) (span : Span) :
    Takes (checkText ctx text span) s s fun _ => True := by
  unfold checkText
  exact takes_unless (by simp [h span.lo])

theorem takes_primary_string {text : String} (h : IsSound text) :
    Takes (primary self ctx) ((.string text, b) :: ks, cs) (ks, cs) IsOperand := by
  unfold primary
  refine (takes_current Stream.heads_token).bind ?_
  rintro ⟨_, span, _⟩ rfl
  exact (takes_checkText h span).bind fun _ _ => takes_leaf _ rfl

theorem takes_isAtArrow (h : s.Heads k) (hk : k.isPunctuator "=>" = false) :
    Takes isAtArrow s s (· = false) := by
  unfold isAtArrow
  refine (takes_current h).bind ?_
  rintro ⟨_, span, _⟩ rfl
  exact takes_pure (by simp [hk])

theorem name?_word {text : String} (htext : text ∉ reservedWords)
    (hname : ctx.reserves text = false) : ctx.name? (.word text false) = some text := by
  rw [Context.name?, TokenKind.name?, if_neg (by simpa using htext), Option.filter_some, hname]
  rfl

/-- A word that is a variable in a context. -/
structure IsVariable (ctx : Context) (text : String) : Prop where
  reserved : text ∉ reservedWords
  name : ctx.reserves text = false
  arguments : (ctx.inField && text == "arguments") = false

theorem takes_primary_word {text : String} (h : IsVariable ctx text) (hasync : text ≠ "async")
    (hk : Stream.Heads (ks, cs) k) (hnext : k.isPunctuator "=>" = false) :
    Takes (primary self ctx) ((.word text false, b) :: ks, cs) (ks, cs)
      fun t => t.form = .identifier text := by
  unfold primary
  refine (takes_current Stream.heads_token).bind ?_
  rintro ⟨_, span, _⟩ rfl
  split
  case h_21 =>
    simp only [name?_word h.reserved h.name, h.arguments]
    refine takes_advance.bind fun _ _ => (takes_finishNode _ _ _).bind fun t ht => ?_
    refine (takes_isAtArrow hk hnext).bind ?_
    rintro _ rfl
    exact takes_pure ht.1
  -- In all other cases the word is a keyword.
  all_goals
    rename_i heq
    first
      | (cases heq; done)
      | (obtain ⟨rfl, -⟩ := TokenKind.word.inj heq; exact absurd rfl hasync)
      | (obtain ⟨rfl, -⟩ := TokenKind.word.inj heq; exact absurd (by decide) h.reserved)

/-- The marks behind which the word `async` is a name: a point, and where an operand ends. -/
theorem takes_primary_async {mark : String} (hk : Stream.Heads (ks, cs) (.punctuator mark))
    (harrow : mark ≠ "=>") (hparen : mark ≠ "(") :
    Takes (primary self ctx) ((.word "async" false, b) :: ks, cs) (ks, cs)
      fun t => t.form = .identifier "async" := by
  unfold primary
  refine (takes_current Stream.heads_token).bind ?_
  rintro ⟨_, span, _⟩ rfl
  change Takes (asyncNode self ctx) _ _ _
  unfold asyncNode
  refine takes_here.bind fun start _ => (takes_peek hk).bind ?_
  rintro ⟨_, span', _⟩ rfl
  refine takes_advance.bind fun _ _ => (takes_finishNode _ _ _).bind fun t ht => ?_
  refine (takes_current hk).bind ?_
  rintro ⟨_, span'', _⟩ rfl
  have hname : ctx.name? (.punctuator mark) = none := rfl
  split
  · exact takes_pure ht.1
  · simp only [TokenKind.isPunctuator, beq_iff_eq, TokenKind.punctuator.injEq, harrow, hparen,
      if_false, hname]
    exact takes_pure ht.1

theorem takes_primary_name {text mark : String} (h : IsVariable ctx text)
    (hk : Stream.Heads (ks, cs) (.punctuator mark)) (harrow : mark ≠ "=>") (hparen : mark ≠ "(") :
    Takes (primary self ctx) ((.word text false, b) :: ks, cs) (ks, cs)
      fun t => t.form = .identifier text := by
  by_cases hasync : text = "async"
  · rw [hasync]
    exact takes_primary_async hk harrow hparen
  · refine takes_primary_word h hasync hk ?_
    simp [TokenKind.isPunctuator, harrow]

/-- The keywords that stand for a value by themselves. -/
def valueWords : List String :=
  ["this", "null", "true", "false"]

theorem takes_primary_keyword {text : String} (h : text ∈ valueWords) :
    Takes (primary self ctx) ((.word text false, b) :: ks, cs) (ks, cs) IsOperand := by
  simp only [valueWords, List.mem_cons, List.not_mem_nil, or_false] at h
  rcases h with rfl | rfl | rfl | rfl
  all_goals
    unfold primary
    refine (takes_current Stream.heads_token).bind ?_
    rintro ⟨_, span, _⟩ rfl
    exact takes_leaf _ rfl

theorem takes_link_end (h : s.Heads k) (hk : EndsOperand k) (allowCall : Bool) (t : Tree) :
    Takes (link self ctx allowCall t) s s (· = none) := by
  unfold link
  split
  · exact takes_pure rfl
  · refine (takes_kind h).bind ?_
    rintro _ rfl
    rcases hk with (rfl | rfl | rfl | rfl) | rfl | rfl
    all_goals exact takes_pure rfl

/-- A property of an operand. -/
theorem takes_link_point (text : String) (allowCall : Bool) {t : Tree} (ht : IsOperand t)
    {b' : Bool} :
    Takes (link self ctx allowCall t)
      ((.punctuator ".", b) :: (.word text false, b') :: ks, cs) (ks, cs)
      fun o => ∃ u, o = some u ∧ u.form = .member := by
  unfold link
  rw [ht.isArrow_eq]
  refine (takes_kind Stream.heads_token).bind ?_
  rintro _ rfl
  refine takes_advance.bind fun _ _ => (takes_anyName text).bind fun property _ => ?_
  refine (takes_finishNode _ _ _).bind fun u hu => takes_pure ⟨u, rfl, ?_⟩
  have hform := hu.1
  split at hform
  next heq => exact absurd heq (ht.ne rfl)
  next heq => exact absurd heq (ht.ne rfl)
  next => simpa [ht.ne (f := .super) rfl] using hform

theorem takes_link_call {t : Tree} (ht : IsOperand t)
    (hargs : Takes (arguments self ctx) ((.punctuator "(", b) :: ks, cs) s' fun _ => True) :
    Takes (link self ctx true t) ((.punctuator "(", b) :: ks, cs) s'
      fun o => ∃ u, o = some u ∧ u.form = .call := by
  unfold link
  rw [ht.isArrow_eq]
  refine (takes_kind Stream.heads_token).bind ?_
  rintro _ rfl
  refine hargs.bind fun args _ => (takes_finishNode _ _ _).bind fun u hu => ?_
  refine takes_pure ⟨u, rfl, ?_⟩
  have hform := hu.1
  split at hform
  next heq => exact absurd heq (ht.ne rfl)
  next heq => exact absurd heq (ht.ne rfl)
  next => simpa using hform

/-- Where an operand ends, a chain is the operand and its links. -/
theorem takes_chain_end {Q : Tree → Prop} (hk : s'.Heads k) (hend : EndsOperand k)
    (h : Takes (primary self ctx) s s' Q) : Takes (chain self ctx true) s s' Q := by
  unfold chain
  refine h.bind fun t ht => takes_iterate (m := 1) (by omega) fun n => ?_
  exact takes_iterateWithin_none n (takes_link_end hk hend true t) ht

theorem takes_unary (hk' : s.Heads k') (hbegins : Begins ctx k') (hk : s'.Heads k)
    (hend : EndsOperand k) {Q : Tree → Prop} (hQ : ∀ t, Q t → IsOperand t)
    (h : Takes (chain self ctx true) s s' Q) : Takes (unary self ctx) s s' Q := by
  unfold unary
  refine (takes_current hk').bind ?_
  rintro ⟨_, span, _⟩ rfl
  have hawait := hbegins.await
  have hstart := hbegins.starts
  split
  case h_10 =>
    rw [hawait]
    refine h.bind fun t ht => (takes_current hk).bind ?_
    rintro ⟨_, span', _⟩ rfl
    simp only [(hQ t ht).isArrow_eq]
    split
    · exact takes_pure ht
    · rcases hend with (rfl | rfl | rfl | rfl) | rfl | rfl
      all_goals exact takes_pure ht
  -- In all other cases an operator stands in front.
  all_goals
    rename_i heq
    simp only at heq
    rw [heq] at hstart
    exact absurd hstart (by simp [startsOperand])

theorem takes_operands_end (hk : s.Heads k) (hend : IsClosing k ∨ k = .punctuator "=") (n : Nat) :
    Takes (operands self ctx n) s s (· = []) := by
  cases n with
  | zero => exact takes_pure rfl
  | succ n =>
      unfold operands
      refine (takes_kind hk).bind ?_
      rintro _ rfl
      rcases hend with (rfl | rfl | rfl | rfl) | rfl
      all_goals exact takes_pure rfl

theorem takes_binary_operand (hk : s'.Heads k) (hend : IsClosing k ∨ k = .punctuator "=")
    {Q : Tree → Prop} (hQ : ∀ t, Q t → IsOperand t) (h : Takes (self .unary ctx) s s' Q) :
    Takes (binary self ctx) s s' Q := by
  unfold binary
  refine h.bind fun t ht => ?_
  rw [(hQ t ht).isArrow_eq]
  refine takes_get.bind fun c _ => (takes_operands_end hk hend c.limit).bind ?_
  rintro _ rfl
  have hclimb : climb [] t [] = t := rfl
  simp only [hclimb, (hQ t ht).mixedOperands_eq]
  exact takes_pure ht

theorem takes_operands_or {s'' : Stream} {R : Tree → Prop}
    (h : Takes (self .unary ctx) (ks, cs) s'' R) (hk : s''.Heads k) (hend : IsClosing k) (n : Nat) :
    Takes (operands self ctx (n + 1)) ((.punctuator "||", b) :: ks, cs) s''
      fun l => ∃ u, l = [("||", u)] ∧ R u := by
  unfold operands
  refine (takes_kind Stream.heads_token).bind ?_
  rintro _ rfl
  have hoperator : binaryOperator? ctx (.punctuator "||") = some "||" := rfl
  simp only [hoperator]
  refine takes_advance.bind fun _ _ => h.bind fun u hu => ?_
  refine (takes_operands_end hk (.inl hend) n).bind ?_
  rintro _ rfl
  exact takes_pure ⟨u, rfl, hu⟩

/-- Two operands with one operator between them. -/
theorem takes_binary_or {s'' : Stream} {Q R : Tree → Prop}
    (hQ : ∀ t, Q t → IsOperand t) (hR : ∀ t, R t → IsOperand t)
    (h : Takes (self .unary ctx) s ((.punctuator "||", b) :: ks, cs) Q)
    (h' : Takes (self .unary ctx) (ks, cs) s'' R) (hk : s''.Heads k) (hend : IsClosing k) :
    Takes (binary self ctx) s s'' fun t => t.form = .binary "||" := by
  unfold binary
  refine h.bind fun t ht => ?_
  rw [(hQ t ht).isArrow_eq]
  refine takes_get.bind fun c hc => ?_
  obtain ⟨n, hn⟩ := Nat.exists_eq_add_of_le' (Nat.le_trans (Nat.le_add_left 1 _) hc)
  rw [hn]
  refine (takes_operands_or h' hk hend n).bind ?_
  rintro _ ⟨u, rfl, hu⟩
  have hclimb : climb [] t [("||", u)] = binaryNode "||" t u := rfl
  have hmixed : mixedOperands (binaryNode "||" t u) = [] := by
    simp [binaryNode, mixedOperands, (hQ t ht).mixedOperands_eq, (hR u hu).mixedOperands_eq]
  simp only [hclimb, hmixed]
  exact takes_pure rfl

theorem takes_conditional (hk : s'.Heads k) (hend : IsClosing k ∨ k = .punctuator "=")
    {Q : Tree → Prop} (hQ : ∀ t, Q t → isArrow t = false)
    (h : Takes (binary self ctx) s s' Q) : Takes (conditional self ctx) s s' Q := by
  unfold conditional
  refine h.bind fun t ht => ?_
  rw [hQ t ht]
  have hmark : k.isPunctuator "?" = false := by
    rcases hend with (rfl | rfl | rfl | rfl) | rfl
    all_goals rfl
  refine (takes_take? hk hmark).bind ?_
  rintro _ rfl
  exact takes_pure ht

/-- What stands in front of the conditional part of an assignment. -/
theorem takes_assignment_start {Q : Tree → Prop} (hk' : s.Heads k') (hbegins : Begins ctx k')
    {r : Rule Tree} (h : Takes r s s' Q) :
    Takes (do
      if ← atEnd then faultAtEnd
      else if ctx.isGenerator && (← isAtWord "yield") then yield self ctx
      else r) s s' Q := by
  have hstart := hbegins.starts
  have hend : (k' == .endOfFile) = false := by
    rw [beq_eq_false_iff_ne]
    rintro rfl
    exact absurd hstart (by simp [startsOperand])
  refine (takes_atEnd hk').bind ?_
  rintro _ rfl
  rw [hend]
  refine (takes_isAtWord hk' _).bind ?_
  rintro _ rfl
  rw [hbegins.yield]
  exact h

theorem takes_assignment (hk' : s.Heads k') (hbegins : Begins ctx k') (hk : s'.Heads k)
    (hend : IsClosing k) {Q : Tree → Prop} (hQ : ∀ t, Q t → isArrow t = false)
    (h : Takes (binary self ctx) s s' Q) : Takes (assignment self ctx) s s' Q := by
  unfold assignment
  refine takes_assignment_start hk' hbegins ?_
  refine (takes_conditional hk (.inl hend) hQ h).bind fun t ht => ?_
  rw [hQ t ht]
  refine (takes_kind hk).bind ?_
  rintro _ rfl
  rcases hend with rfl | rfl | rfl | rfl
  all_goals exact takes_pure ht

/-- A property is a target. -/
theorem toTarget_of_form {t : Tree} (h : t.form = .member) : t.toTarget true = some t := by
  obtain ⟨f, span, children⟩ := t
  rw [Tree.form_node] at h
  subst h
  have hsimple : (Tree.node .member span children).isSimpleTarget = true := by
    rw [Tree.isSimpleTarget, Tree.fold_node]
  simp [Tree.toTarget, hsimple]

theorem takes_assignment_equals {s'' : Stream} (hk' : s.Heads k') (hbegins : Begins ctx k')
    (h : Takes (self .unary ctx) s ((.punctuator "=", b) :: ks, cs) fun t => t.form = .member)
    (h' : Takes (self .assignment ctx) (ks, cs) s'' fun _ => True) :
    Takes (assignment self ctx) s s'' fun t => t.form = .assignment "=" := by
  have hoperand : ∀ t : Tree, t.form = .member → IsOperand t := fun t ht => .of_form ht rfl
  have hequals := takes_binary_operand Stream.heads_token (.inr rfl) hoperand h
  unfold assignment
  refine takes_assignment_start hk' hbegins ?_
  refine (takes_conditional Stream.heads_token (.inr rfl)
    (fun t ht => (hoperand t ht).isArrow_eq) hequals).bind fun t ht => ?_
  rw [(hoperand t ht).isArrow_eq]
  refine (takes_kind Stream.heads_token).bind ?_
  rintro _ rfl
  have hoperator : assignmentOperators.contains "=" = true := rfl
  have hrestricted : t.isRestrictedName = false := by
    rw [Tree.isRestrictedName, ht]
  simp only [hoperator, toTarget_of_form ht, beq_self_eq_true, hrestricted, Bool.and_false, if_true,
    Bool.false_eq_true, if_false]
  refine takes_advance.bind fun _ _ => h'.bind fun value _ => ?_
  exact (takes_finishNode _ _ _).imp fun _ hu => hu.1

/-- Where an operand ends, an assignment is the operand. -/
theorem takes_atDepth_assignment {n : Nat} (hk' : s.Heads k') (hbegins : Begins ctx k')
    (hk : s'.Heads k) (hend : IsClosing k) {Q : Tree → Prop} (hQ : ∀ t, Q t → IsOperand t)
    (h : Takes (chain (atDepth n) ctx true) s s' Q) :
    Takes (atDepth (n + 2) .assignment ctx) s s' Q := by
  have hunary : Takes (atDepth (n + 1) .unary ctx) s s' Q :=
    takes_unary hk' hbegins hk (.inl hend) hQ h
  exact takes_assignment hk' hbegins hk hend (fun t ht => (hQ t ht).isArrow_eq)
    (takes_binary_operand hk (.inl hend) hQ hunary)

end Operands

end Rule

end Contracts
