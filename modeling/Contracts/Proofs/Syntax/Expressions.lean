import Contracts.Proofs.Syntax.Functions

/-!
# What the rules of expressions give

Every rule of expressions gives a rooted tree, provided that the goals it asks
for do. Two of them read characters instead of tokens, for templates and regular
expressions, and put the cursor behind what they have taken.
-/

namespace Contracts

namespace Cursor

/-- Where a slash stands a regular expression can be read in its place. -/
theorem Placed.regex {source : List Char} {c : Cursor} (hc : c.Placed source)
    (hkind : c.token.kind = .punctuator "/" ∨ c.token.kind = .punctuator "/=")
    {found : Token × List Char}
    (h : Token.scanRegex c.token.span.lo c.token.afterBreak
      (if c.token.kind.isPunctuator "/=" then '=' :: c.rest else c.rest) = .ok found) :
    ({ c with token := found.1, rest := found.2 } : Cursor).Placed source ∧
      Text.IsEdge source found.1.span.lo := by
  obtain ⟨slash, hahead, -, hslash⟩ := hc.token
  obtain ⟨taken, htaken, hstands⟩ := Token.exists_taken_of_scanRegex h
  have hlo : found.1.span.lo = c.token.span.lo := by rw [hstands.1]
  have hsame : slash ++ c.rest = taken ++ found.2 := by
    rw [← htaken]
    obtain hkind | hkind := hkind <;> rw [hslash _ hkind, hkind] <;> rfl
  rw [← hlo] at hahead hstands
  rw [hsame] at hahead
  have hcomments := hc.comments
  rw [← hlo] at hcomments
  exact ⟨{ hc with token := ⟨taken, hahead, hstands⟩, comments := hcomments }, hahead.isEdge⟩

/-- The end of the text has a place. -/
theorem Placed.finish_rest {source : List Char} {c : Cursor} (hc : c.Placed source) :
    Text.IsEdge source (c.token.span.hi + Text.byteLength c.rest) := by
  have hrest := hc.isAhead_rest
  rw [← List.append_nil c.rest] at hrest
  exact hrest.drop.isEdge

section Chunks

variable {source : List Char} {c : Cursor} {text rest : List Char} {ending : Token.ChunkEnd}
  {last : Token} {position : Nat} {isBroken : Bool}

/-- Behind a chunk of a template and the mark that ends it reading goes on. -/
theorem Placed.moveChunk (hc : c.Placed source)
    (hchunk : Token.scanChunk [] c.rest = some (text, ending, rest))
    (hlast : last.span.lo = c.token.span.hi + Text.byteLength text)
    (hposition : position = c.token.span.hi + Text.byteLength text +
      Text.byteLength ending.written) : c.Move source (some last) position position rest := by
  have hrest := hc.isAhead_rest
  rw [← List.nil_append c.rest, ← List.reverse_nil, ← Token.append_eq_of_scanChunk hchunk] at hrest
  have hahead : Text.IsAhead source position rest := by
    rw [hposition]
    exact hrest.drop.drop
  refine ⟨hahead, hc.comments_stop.mono (by omega), ?_, ?_, hc.minor⟩
  · rintro t ⟨⟩
    rw [hlast]
    exact hrest.drop.isEdge
  · rw [Nat.max_eq_right hahead.one_le]
    exact hahead.isEdge

theorem Placed.chunk {d : Cursor} (hc : c.Placed source)
    (hchunk : Token.scanChunk [] c.rest = some (text, ending, rest))
    (h : c.moveFrom (some last) position position isBroken rest = .ok d)
    (hlast : last.span.lo = c.token.span.hi + Text.byteLength text)
    (hposition : position = c.token.span.hi + Text.byteLength text +
      Text.byteLength ending.written) : d.Placed source :=
  (hc.moveChunk hchunk hlast hposition).placed h

theorem Placed.chunk_error {f : Fault} (hc : c.Placed source)
    (hchunk : Token.scanChunk [] c.rest = some (text, ending, rest))
    (h : c.moveFrom (some last) position position isBroken rest = .error f)
    (hlast : last.span.lo = c.token.span.hi + Text.byteLength text)
    (hposition : position = c.token.span.hi + Text.byteLength text +
      Text.byteLength ending.written) : Text.IsEdge source f.span.lo :=
  (hc.moveChunk hchunk hlast hposition).isEdge_of_error h

/-- A bad escape in a chunk has a place. -/
theorem Placed.chunk_fault {allowOctal : Bool} {f : Fault} (hc : c.Placed source)
    (hchunk : Token.scanChunk [] c.rest = some (text, ending, rest))
    (h : Token.textFault? allowOctal c.token.span.hi text = some f) :
    Text.IsEdge source f.span.lo := by
  have hrest := hc.isAhead_rest
  rw [← List.nil_append c.rest, ← List.reverse_nil, ← Token.append_eq_of_scanChunk hchunk] at hrest
  obtain ⟨before, behind, rfl, hlo⟩ := Token.exists_of_textFault? h
  rw [hlo]
  rw [List.append_assoc] at hrest
  exact hrest.drop.isEdge

end Chunks

end Cursor

namespace Rule

open Std.Do Reading Text

set_option mvcgen.warning false

variable [Reading]

@[spec]
theorem gives_isAtArrow : Gives isAtArrow fun _ => True := by
  unfold isAtArrow
  mvcgen
  all_goals grind

/-- Expressions that turn out to be parameters. -/
@[spec]
theorem gives_toParameters {items : List Tree} (h : ∀ t ∈ items, t.Placed source) :
    Gives (toParameters items) fun ps => ∀ p ∈ ps, p.Placed source := by
  unfold toParameters
  induction items with
  | nil =>
      rw [List.mapM_nil]
      mvcgen
  | cons t items ih =>
      rw [List.forall_mem_cons] at h
      have hrest := ih h.2
      rw [List.mapM_cons]
      mvcgen [hrest]
      all_goals grind [→ Tree.placed_toPattern, → Tree.start_of_toPattern_eq_none]

@[spec]
theorem gives_regex :
    ⦃fun c => ⌜c.Placed source ∧
      (c.token.kind = .punctuator "/" ∨ c.token.kind = .punctuator "/=")⌝⦄
    regex ⦃post⟨fun t c => ⌜t.Rooted source ∧ c.Placed source⌝,
      fun f => ⌜IsEdge source f.span.lo⌝⟩⦄ := by
  unfold regex
  mvcgen
  all_goals grind [→ Cursor.Placed.regex, → Token.lo_of_scanRegex_fault]

@[spec]
theorem gives_endsYield : Gives endsYield fun _ => True := by
  unfold endsYield
  mvcgen
  all_goals grind

section Goals

variable {self : Self} (hself : ∀ goal ctx, Gives (self goal ctx) (Tree.Rooted source))

include hself

@[spec]
theorem gives_arguments (ctx : Context) :
    Gives (arguments self ctx) fun ts => ∀ t ∈ ts, t.Placed source := by
  unfold arguments
  mvcgen [hself]
  all_goals grind

@[spec]
theorem gives_arrowRest (ctx : Context) {start : Nat} (isAsync : Bool) {ps : List Tree}
    (hstart : IsEdge source start) (hps : ∀ p ∈ ps, p.Placed source) :
    Gives (arrowRest self ctx start isAsync ps) (Tree.Rooted source) := by
  unfold arrowRest finish
  mvcgen [hself]
  all_goals grind

@[spec]
theorem gives_parenthesized (ctx : Context) :
    Gives (parenthesized self ctx) (Tree.Rooted source) := by
  have hitems : ∀ item, Gives item (Tree.Rooted source) →
      Gives (commaList ")" true item) fun ts => ∀ t ∈ ts, t.Rooted source :=
    fun _ => gives_commaList_of
  unfold parenthesized
  mvcgen [hself, hitems, -gives_commaList]
  all_goals grind [Span.through]

/-- The chunks of a template start behind a mark, and so do the expressions between them. -/
@[spec]
theorem gives_templateParts (ctx : Context) (isTagged : Bool) (n : Nat) :
    Gives (templateParts self ctx isTagged n) fun ts => ∀ t ∈ ts, t.Placed source := by
  induction n with
  | zero =>
      unfold templateParts
      mvcgen
      all_goals grind
  | succ n ih =>
      unfold templateParts
      mvcgen [hself, ih]
      all_goals grind [→ Cursor.Placed.chunk, → Cursor.Placed.chunk_error,
        → Cursor.Placed.chunk_fault, → Cursor.Placed.finish_rest, Token.ChunkEnd.byteLength_written]

@[spec]
theorem gives_template (ctx : Context) (isTagged : Bool) :
    Gives (template self ctx isTagged) (Tree.Rooted source) := by
  unfold template
  mvcgen [hself]
  all_goals grind

@[spec]
theorem gives_classNode (ctx : Context) (isDeclaration : Bool) :
    Gives (classNode self ctx isDeclaration) (Tree.Rooted source) := by
  unfold classNode
  mvcgen [hself]
  all_goals grind

@[spec]
theorem gives_newNode (ctx : Context) : Gives (newNode self ctx) (Tree.Rooted source) := by
  unfold newNode
  mvcgen [hself]
  all_goals grind

@[spec]
theorem gives_asyncNode (ctx : Context) : Gives (asyncNode self ctx) (Tree.Rooted source) := by
  unfold asyncNode
  mvcgen [hself]
  all_goals grind

/-- A link of a chain starts where the chain does. -/
@[spec]
theorem gives_link (ctx : Context) (allowCall : Bool) {t : Tree} (ht : t.Rooted source) :
    Gives (link self ctx allowCall t) fun o => ∀ u ∈ o, u.Rooted source := by
  unfold link
  mvcgen [hself]
  all_goals grind

@[spec]
theorem gives_primary (ctx : Context) : Gives (primary self ctx) (Tree.Rooted source) := by
  unfold primary current
  mvcgen [hself, -gives_current]
  all_goals grind

@[spec]
theorem gives_chain (ctx : Context) (allowCall : Bool) :
    Gives (chain self ctx allowCall) (Tree.Rooted source) := by
  unfold chain
  mvcgen [hself]
  all_goals grind

omit hself in
@[spec]
theorem gives_checkUpdated (ctx : Context) {operand : Tree} (h : operand.Rooted source) :
    Gives (checkUpdated ctx operand) fun _ => True := by
  unfold checkUpdated
  mvcgen
  all_goals grind

@[spec]
theorem gives_unary (ctx : Context) : Gives (unary self ctx) (Tree.Rooted source) := by
  unfold unary
  mvcgen [hself]
  all_goals grind

@[spec]
theorem gives_operands (ctx : Context) (n : Nat) :
    Gives (operands self ctx n) fun ps => ∀ p ∈ ps, p.2.Rooted source := by
  induction n with
  | zero =>
      unfold operands
      mvcgen
      all_goals grind
  | succ n ih =>
      unfold operands
      mvcgen [hself, ih]
      all_goals grind

@[spec]
theorem gives_binary (ctx : Context) : Gives (binary self ctx) (Tree.Rooted source) := by
  unfold binary
  mvcgen [hself]
  all_goals grind [rooted_climb, → isEdge_mixedOperands_climb]

@[spec]
theorem gives_conditional (ctx : Context) : Gives (conditional self ctx) (Tree.Rooted source) := by
  unfold conditional
  mvcgen [hself]
  all_goals grind

@[spec]
theorem gives_yield (ctx : Context) : Gives (yield self ctx) (Tree.Rooted source) := by
  unfold yield
  mvcgen [hself]
  all_goals grind

@[spec]
theorem gives_assignment (ctx : Context) : Gives (assignment self ctx) (Tree.Rooted source) := by
  unfold assignment
  mvcgen [hself]
  all_goals grind [→ Tree.rooted_toTarget]

@[spec]
theorem gives_expression (ctx : Context) : Gives (expression self ctx) (Tree.Rooted source) := by
  unfold expression
  mvcgen [hself]
  all_goals grind

end Goals

end Rule

end Contracts
