import Contracts.Proofs.Syntax.Taking

/-!
# Calls and functions in front of a rule

What this library adds to a script consists of calls of the checker, whose arguments
are string literals, names, objects of string literals and functions, and of
functions with a few statements. Here the rules of the grammar are followed through
calls, blocks and functions, in any context. A list, be it of elements with commas
between them or of statements, is a `Run` of one rule.

Of what stands between the marks, such as the function that is handed to the checker,
it is only assumed that a rule takes it.
-/

namespace Contracts

namespace Rule

/-- Whether a token can open an element or a statement. -/
def opensItem : TokenKind → Bool
  | .endOfFile => false
  | .punctuator text => !([")", "\x7d", "..."].contains text)
  | _ => true

theorem isPunctuator_of_opensItem {k : TokenKind} (h : opensItem k = true) {text : String}
    (htext : text ∈ [")", "\x7d", "..."]) : k.isPunctuator text = false := by
  rw [TokenKind.isPunctuator, beq_eq_false_iff_ne]
  rintro rfl
  rw [opensItem, Bool.not_eq_true', Bool.eq_false_iff] at h
  exact h (List.contains_iff_mem.mpr htext)

theorem ne_endOfFile_of_opensItem {k : TokenKind} (h : opensItem k = true) :
    (k == .endOfFile) = false := by
  rw [beq_eq_false_iff_ne]
  rintro rfl
  exact absurd h (by simp [opensItem])

/-- The rule `item` takes the stream from `s` to `s'` in `n` steps, each of which gives a result with
the property `P`. -/
inductive Run (item : Rule Tree) (P : Tree → Prop) : Nat → Stream → Stream → Prop where
  | nil {s : Stream} : Run item P 0 s s
  | cons {n : Nat} {s s' s'' : Stream} {k : TokenKind} (hk : s.Heads k) (hopen : opensItem k = true)
      (h : Takes item s s' P) (hrest : Run item P n s' s'') : Run item P (n + 1) s s''

section Lists

variable {s s' s'' : Stream} {ks : List (TokenKind × Bool)} {cs : List Char} {k : TokenKind}
  {b : Bool} {n : Nat} {stop : Rule Bool} {item : Rule Tree} {P : Tree → Prop}

/-- The rule `stop` holds at the end of a run, and not in front of one of its items. -/
structure Stops (stop : Rule Bool) (s : Stream) : Prop where
  atItem : ∀ {s : Stream} {k : TokenKind}, s.Heads k → opensItem k = true →
    Takes stop s s (· = false)
  atEnd : Takes stop s s (· = true)

theorem Run.takes_manyWithin (h : Run item P n s s') (hstop : Stops stop s') {m : Nat}
    (hm : n ≤ m) : Takes (manyWithin stop item m) s s' fun _ => True := by
  induction h generalizing m with
  | nil =>
      cases m with
      | zero => exact takes_pure trivial
      | succ m => exact takes_manyWithin_stop item m hstop.atEnd
  | cons hk hopen h hrest ih =>
      obtain ⟨m, rfl⟩ : ∃ l, m = l + 1 := Nat.exists_eq_succ_of_ne_zero (by omega)
      exact takes_manyWithin_item (hstop.atItem hk hopen) (h.imp fun _ _ => trivial)
        (ih hstop (by omega))

theorem Run.takes_many (h : Run item P n s s') (hstop : Stops stop s')
    (hn : n ≤ s.size + 2) : Takes (many stop item) s s' fun _ => True :=
  Rule.takes_many fun _ hm => h.takes_manyWithin hstop (hn.trans hm)

theorem stops_isAt {close : String} (hclose : close ∈ [")", "\x7d", "..."])
    (h : s.Heads (.punctuator close)) : Stops (isAt close) s where
  atItem := fun hk hopen =>
    (takes_isAt hk close).imp fun _ h => h.trans (isPunctuator_of_opensItem hopen hclose)
  atEnd := (takes_isAt h close).imp fun _ h => h.trans (by simp [TokenKind.isPunctuator])

theorem stops_atEnd (h : s.Heads .endOfFile) : Stops atEnd s where
  atItem := fun hk hopen =>
    (takes_atEnd hk).imp fun _ h => h.trans (ne_endOfFile_of_opensItem hopen)
  atEnd := takes_atEnd h

/-- A body ends at its brace. -/
theorem stops_body (h : s.Heads (.punctuator "\x7d")) :
    Stops (do return (← isAt "\x7d") || (← atEnd)) s where
  atItem := by
    intro s k hk hopen
    refine (takes_isAt hk _).bind ?_
    rintro _ rfl
    refine (takes_atEnd hk).bind ?_
    rintro _ rfl
    rw [isPunctuator_of_opensItem hopen (by simp), ne_endOfFile_of_opensItem hopen]
    exact takes_pure rfl
  atEnd := by
    refine (takes_isAt h _).bind ?_
    rintro _ rfl
    refine (takes_atEnd h).bind ?_
    rintro _ rfl
    exact takes_pure rfl

/-- The elements of a list with the commas between them. -/
def separated (close : String) (endsHard : Bool) (item : Rule Tree) : Rule Tree := do
  let t ← item
  if ← isAt close then return t
  else if endsHard && (← atEnd) then faultAtEnd
  else
    expect ","
    return t

/-- An element and the comma behind it. -/
theorem takes_separated_comma {close : String} (hclose : close ≠ ",")
    (h : Takes item s ((.punctuator ",", b) :: ks, cs) P) (endsHard : Bool) :
    Takes (separated close endsHard item) s (ks, cs) fun _ => True := by
  have hcomma : (TokenKind.punctuator ",").isPunctuator close = false := by
    simp [TokenKind.isPunctuator, hclose.symm]
  unfold separated
  refine h.bind fun t _ => (takes_isAt Stream.heads_token close).bind ?_
  rintro _ rfl
  rw [hcomma]
  refine (takes_atEnd Stream.heads_token).bind ?_
  rintro _ rfl
  rw [show (TokenKind.punctuator "," == .endOfFile) = false from rfl, Bool.and_false]
  exact (takes_expect ",").bind fun _ _ => takes_pure trivial

/-- The last element. -/
theorem takes_separated_last {close : String} (h : Takes item s s' P)
    (hs : s'.Heads (.punctuator close)) (endsHard : Bool) :
    Takes (separated close endsHard item) s s' fun _ => True := by
  unfold separated
  refine h.bind fun t _ => (takes_isAt hs close).bind ?_
  rintro _ rfl
  rw [if_pos (by simp [TokenKind.isPunctuator])]
  exact takes_pure trivial

theorem takes_commaList {close : String} {endsHard : Bool} (hclose : close ∈ [")", "\x7d", "..."])
    (h : Run (separated close endsHard item) P n s s') (hn : n ≤ s.size + 2)
    (hs : s'.Heads (.punctuator close)) :
    Takes (commaList close endsHard item) s s' fun _ => True :=
  h.takes_many (stops_isAt hclose hs) hn

end Lists

section Calls

variable {self : Self} {ctx : Context} {s s' s'' : Stream} {ks : List (TokenKind × Bool)}
  {cs : List Char} {k : TokenKind} {b : Bool} {P : Tree → Prop}

/-- An argument without points in front is an assignment. -/
theorem takes_argument (hk : s.Heads k) (hopen : opensItem k = true)
    (h : Takes (self .assignment ctx) s s' P) :
    Takes (do
      let start ← here
      if ← take? "..." then
        let e ← self .assignment ctx
        finishNode start .spread [e]
      else self .assignment ctx) s s' P := by
  refine takes_here.bind fun start _ => ?_
  refine (takes_take? hk (isPunctuator_of_opensItem hopen (by simp))).bind ?_
  rintro _ rfl
  exact h

/-- Two arguments in their parentheses. -/
theorem takes_arguments_pair {k' : TokenKind} (hk : Stream.Heads (ks, cs) k)
    (hopen : opensItem k = true) {b' : Bool} {ks' : List (TokenKind × Bool)} {cs' : List Char}
    (hfirst : Takes (self .assignment ctx.withIn) (ks, cs) ((.punctuator ",", b') :: ks', cs') P)
    (hk' : Stream.Heads (ks', cs') k') (hopen' : opensItem k' = true)
    {Q : Tree → Prop} (hsecond : Takes (self .assignment ctx.withIn) (ks', cs') s' Q)
    (hs' : s'.Heads (.punctuator ")")) (hclose : Takes (expect ")") s' s'' fun _ => True) :
    Takes (arguments self ctx) ((.punctuator "(", b) :: ks, cs) s'' fun _ => True := by
  unfold arguments
  refine (takes_expect "(").bind fun _ _ => ?_
  refine Takes.bind (takes_commaList (P := fun _ => True) (n := 2) (by simp) ?_ (by omega) hs')
    fun _ _ => hclose.bind fun _ _ => takes_pure trivial
  exact .cons hk hopen
    (takes_separated_comma (by decide) (takes_argument hk hopen hfirst) true)
    (.cons hk' hopen' (takes_separated_last (takes_argument hk' hopen' hsecond) hs' true) .nil)

/-- The tokens of a path behind its first name. -/
def pathTokens (names : List String) : List (TokenKind × Bool) :=
  names.flatMap fun name => [(.punctuator ".", false), (.word name false, false)]

theorem length_pathTokens (names : List String) : names.length ≤ (pathTokens names).length := by
  induction names with
  | nil => exact Nat.le_refl 0
  | cons name names ih =>
      change names.length + 1 ≤ (pathTokens names).length + 2
      omega

theorem takes_links_path (names : List String) {n : Nat} {Q : Tree → Prop}
    (h : ∀ u, IsOperand u → Takes (iterateWithin (link self ctx true) n u) (ks, cs) s' Q) :
    ∀ t, IsOperand t →
      Takes (iterateWithin (link self ctx true) (n + names.length) t) (pathTokens names ++ ks, cs)
        s' Q := by
  induction names with
  | nil => exact h
  | cons name names ih =>
      intro t ht
      refine takes_iterateWithin_some (takes_link_point name true ht) fun u hu => ?_
      exact ih u (.of_form hu rfl)

/-- A property of an operand that is no chain. -/
theorem takes_chain_property {name : String} {b b' : Bool}
    (h : Takes (primary self ctx) s
      ((.punctuator ".", b) :: (.word name false, b') :: ks, cs) IsOperand)
    (hk : Stream.Heads (ks, cs) k) (hend : EndsOperand k) :
    Takes (chain self ctx true) s (ks, cs) fun t => t.form = .member := by
  unfold chain
  refine h.bind fun t ht => takes_iterate (m := 2) (by simp) fun n => ?_
  refine takes_iterateWithin_some (takes_link_point name true ht) fun u hu => ?_
  exact takes_iterateWithin_none n (takes_link_end hk hend true u) hu

/-- A path of names that is called. -/
theorem takes_chain_call {names : List String}
    (h : Takes (primary self ctx) s (pathTokens names ++ (.punctuator "(", b) :: ks, cs) IsOperand)
    (hargs : Takes (arguments self ctx) ((.punctuator "(", b) :: ks, cs) s' fun _ => True)
    (hk : s'.Heads k) (hend : EndsOperand k) :
    Takes (chain self ctx true) s s' fun t => t.form = .call := by
  unfold chain
  refine h.bind fun t ht => takes_iterate (m := 2 + names.length) ?_ fun n => ?_
  · have hlength := length_pathTokens names
    simp only [Stream.size, List.length_append, List.length_cons]
    omega
  · rw [← Nat.add_assoc]
    refine takes_links_path names (fun u hu => ?_) t ht
    refine takes_iterateWithin_some (takes_link_call hu hargs) fun v hv => ?_
    exact takes_iterateWithin_none n (takes_link_end hk hend true v) hv

end Calls

section Objects

variable {self : Self} {ctx : Context} {s : Stream} {ks : List (TokenKind × Bool)}
  {cs : List Char} {k : TokenKind} {b : Bool}

/-- The tokens of a field, which stands on a line of its own. -/
def fieldTokens (field : String × String) : List (TokenKind × Bool) :=
  [(.string field.1, true), (.punctuator ":", false), (.string field.2, false)]

/-- Elements with commas between them. -/
def commaTokens : List (List (TokenKind × Bool)) → List (TokenKind × Bool)
  | [] => []
  | [a] => a
  | a :: as => a ++ (.punctuator ",", false) :: commaTokens as

/-- The tokens of an object; the closing brace is on the line of the opening one if there is
nothing between them. -/
def objectTokens (fields : List (String × String)) : List (TokenKind × Bool) :=
  (.punctuator "\x7b", false) :: commaTokens (fields.map fieldTokens) ++
    [(.punctuator "\x7d", !fields.isEmpty)]

theorem takes_takeModifier? (h : s.Heads k) {word : String} (hword : k.isWord word = false)
    (sameLine : Bool) : Takes (takeModifier? word sameLine) s s (· = false) := by
  unfold takeModifier?
  refine (takes_isAtWord h word).bind ?_
  rintro _ rfl
  rw [hword]
  exact takes_pure rfl

theorem takes_methodHead_string {text : String} (h : s.Heads (.string text)) :
    Takes methodHead s s (· = (.method, .plain)) := by
  unfold methodHead
  refine (takes_takeModifier? h rfl true).bind ?_
  rintro _ rfl
  refine (takes_take? h rfl).bind ?_
  rintro _ rfl
  refine (takes_takeModifier? h rfl false).bind ?_
  rintro _ rfl
  refine (takes_takeModifier? h rfl false).bind ?_
  rintro _ rfl
  exact takes_pure rfl

theorem takes_propertyKey_string {text : String} (h : IsSound text) :
    Takes (propertyKey self ctx) ((.string text, b) :: ks, cs) (ks, cs) fun _ => True := by
  unfold propertyKey
  refine takes_here.bind fun start _ => (takes_kind Stream.heads_token).bind ?_
  rintro _ rfl
  refine (takes_current Stream.heads_token).bind fun t _ => ?_
  refine (takes_checkText h t.span).bind fun _ _ => takes_advance.bind fun _ _ => ?_
  exact (takes_finishNode _ _ _).imp fun _ _ => trivial

/-- The literal of a string is an assignment where an operand may end. -/
theorem takes_atDepth_string {n : Nat} {text : String} (h : IsSound text)
    (hk : Stream.Heads (ks, cs) k) (hend : IsClosing k) :
    Takes (atDepth (n + 2) .assignment ctx) ((.string text, b) :: ks, cs) (ks, cs) IsOperand :=
  takes_atDepth_assignment Stream.heads_token (begins_string ctx text) hk hend (fun _ ht => ht)
    (takes_chain_end hk (.inl hend) (takes_primary_string h))

theorem takes_objectMember_field {n : Nat} {field : String × String} (hkey : IsSound field.1)
    (htype : IsSound field.2) (hk : Stream.Heads (ks, cs) k) (hend : IsClosing k) :
    Takes (objectMember (atDepth (n + 2)) ctx) (fieldTokens field ++ ks, cs) (ks, cs)
      fun _ => True := by
  unfold objectMember fieldTokens
  refine takes_here.bind fun start _ => (takes_take? Stream.heads_token rfl).bind ?_
  rintro _ rfl
  refine (takes_methodHead_string Stream.heads_token).bind ?_
  rintro _ rfl
  refine (takes_kind Stream.heads_token).bind fun _ _ => ?_
  refine (takes_propertyKey_string hkey).bind fun key _ => ?_
  refine (takes_isAt Stream.heads_token "(").bind ?_
  rintro _ rfl
  refine (takes_take?_self ":").bind ?_
  rintro _ rfl
  refine (takes_atDepth_string htype hk hend).bind fun value _ => ?_
  exact (takes_finishNode _ _ _).imp fun _ _ => trivial

theorem run_fields {n : Nat} (fields : List (String × String))
    (h : ∀ field ∈ fields, IsSound field.1 ∧ IsSound field.2) :
    Run (separated "\x7d" false (objectMember (atDepth (n + 2)) ctx)) (fun _ => True)
      fields.length (commaTokens (fields.map fieldTokens) ++ (.punctuator "\x7d", b) :: ks, cs)
      ((.punctuator "\x7d", b) :: ks, cs) := by
  induction fields with
  | nil => exact .nil
  | cons field fields ih =>
      rw [List.forall_mem_cons] at h
      obtain ⟨⟨hkey, htype⟩, hfields⟩ := h
      cases fields with
      | nil =>
          refine .cons Stream.heads_token rfl ?_ .nil
          exact takes_separated_last (takes_objectMember_field hkey htype Stream.heads_token
            (.inr (.inr (.inl rfl)))) Stream.heads_token false
      | cons next fields =>
          have htokens : commaTokens ((field :: next :: fields).map fieldTokens) ++
              (.punctuator "\x7d", b) :: ks = fieldTokens field ++ (.punctuator ",", false) ::
                (commaTokens ((next :: fields).map fieldTokens) ++ (.punctuator "\x7d", b) :: ks) := by
            simp [commaTokens]
          rw [htokens]
          refine .cons Stream.heads_token rfl ?_ (ih hfields)
          exact takes_separated_comma (by decide) (takes_objectMember_field hkey htype
            Stream.heads_token (.inl rfl)) false

theorem length_fields_le (fields : List (String × String)) :
    fields.length ≤ (commaTokens (fields.map fieldTokens)).length := by
  induction fields with
  | nil => exact Nat.le_refl 0
  | cons field fields ih =>
      cases fields with
      | nil => simp [commaTokens, fieldTokens]
      | cons next fields =>
          simp only [List.map_cons, commaTokens, fieldTokens, List.length_append,
            List.length_cons] at ih ⊢
          omega

theorem takes_primary_object {n : Nat} {fields : List (String × String)}
    (h : ∀ field ∈ fields, IsSound field.1 ∧ IsSound field.2) :
    Takes (primary (atDepth (n + 2)) ctx) (objectTokens fields ++ ks, cs) (ks, cs) IsOperand := by
  have htokens : objectTokens fields ++ ks = (.punctuator "\x7b", false) ::
      (commaTokens (fields.map fieldTokens) ++ (.punctuator "\x7d", !fields.isEmpty) :: ks) := by
    simp [objectTokens]
  have hlength := length_fields_le fields
  rw [htokens]
  unfold primary
  refine (takes_current Stream.heads_token).bind ?_
  rintro ⟨_, span, _⟩ rfl
  refine takes_advance.bind fun _ _ => ?_
  refine (takes_commaList (by simp) (run_fields fields h) ?_ Stream.heads_token).bind
    fun members _ => ?_
  · simp only [Stream.size, List.length_append]
    omega
  · refine (takes_expect "\x7d").bind fun _ _ => (takes_finishNode _ _ _).imp fun t ht => ?_
    exact .of_form ht.1 rfl

end Objects

end Rule

end Contracts
