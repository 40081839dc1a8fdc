import Contracts.Syntax.Token.Gap

/-!
# Where comments stand

A position of a text goes together with the characters that follow there
(`Text.IsAhead`). A gap is read from the front of them, and at its end the two
still go together. Its comments stand in the text where their spans say, marks
included, and none begins before the one before it has ended. They are met in the
order of the file, so they are kept as a list with the latest first, all of them
before a position (`MarksBefore`).
-/

namespace Contracts

namespace Text

/-- The characters `rest` are what is left of a text from a position on. -/
def IsAhead (source : List Char) (position : Nat) (rest : List Char) : Prop :=
  ∃ before, source = before ++ rest ∧ position = byteLength before + 1

theorem isAhead_start (source : List Char) : IsAhead source 1 source :=
  ⟨[], rfl, rfl⟩

theorem IsAhead.one_le {source rest : List Char} {position : Nat}
    (h : IsAhead source position rest) : 1 ≤ position := by
  obtain ⟨before, -, rfl⟩ := h
  exact Nat.le_add_left 1 _

/-- Behind characters that were taken the position is higher by their width. -/
theorem IsAhead.drop {source taken rest : List Char} {position : Nat}
    (h : IsAhead source position (taken ++ rest)) :
    IsAhead source (position + byteLength taken) rest := by
  obtain ⟨before, rfl, rfl⟩ := h
  refine ⟨before ++ taken, by rw [List.append_assoc], ?_⟩
  rw [byteLength_append]
  omega

/-- A position at which a character of a text starts, or its end. -/
def IsEdge (source : List Char) (position : Nat) : Prop :=
  ∃ rest, IsAhead source position rest

theorem IsAhead.isEdge {source rest : List Char} {position : Nat}
    (h : IsAhead source position rest) : IsEdge source position :=
  ⟨rest, h⟩

theorem IsEdge.one_le {source : List Char} {position : Nat} (h : IsEdge source position) :
    1 ≤ position := by
  obtain ⟨rest, hahead⟩ := h
  exact hahead.one_le

theorem isEdge_one (source : List Char) : IsEdge source 1 :=
  (isAhead_start source).isEdge

end Text

/-- The characters `written` stand in a text at a span. -/
def Span.Covers (s : Span) (source written : List Char) : Prop :=
  ∃ after, Text.IsAhead source s.lo (written ++ after) ∧ s.hi = s.lo + Text.byteLength written

/-- A comment as it is written, with its marks. -/
def CommentKind.written (kind : CommentKind) (text : List Char) : List Char :=
  match kind with
  | .line => '/' :: '/' :: text
  | .block => '/' :: '*' :: text ++ ['*', '/']

def LooseComment.mark (c : LooseComment) : Span × List Char :=
  (c.span, c.kind.written c.text.toList)

def Comment.mark (c : Comment) : Span × List Char :=
  (c.span, c.kind.written c.text.toList)

/-- Characters with their spans, the latest first, that stand in a text one after the other and
before a position. -/
structure MarksBefore (source : List Char) (position : Nat) (marks : List (Span × List Char)) :
    Prop where
  covers : ∀ m ∈ marks, m.1.Covers source m.2
  stop : ∀ m ∈ marks, m.1.hi ≤ position
  order : marks.Pairwise fun later earlier => earlier.1.hi ≤ later.1.lo

namespace MarksBefore

variable {source : List Char} {position position' : Nat} {marks : List (Span × List Char)}

theorem nil : MarksBefore source position [] :=
  ⟨by simp, by simp, .nil⟩

theorem mono (h : MarksBefore source position marks) (hle : position ≤ position') :
    MarksBefore source position' marks :=
  ⟨h.covers, fun m hm => Nat.le_trans (h.stop m hm) hle, h.order⟩

theorem cons (h : MarksBefore source position marks) {written after : List Char}
    (hwritten : Text.IsAhead source position (written ++ after)) {finish : Nat}
    (hfinish : finish = position + Text.byteLength written) :
    MarksBefore source finish ((⟨position, finish⟩, written) :: marks) := by
  refine ⟨?_, ?_, ?_⟩
  · rw [List.forall_mem_cons]
    exact ⟨⟨after, hwritten, hfinish⟩, h.covers⟩
  · rw [List.forall_mem_cons]
    exact ⟨Nat.le_refl _, fun m hm => Nat.le_trans (h.stop m hm) (by omega)⟩
  · rw [List.pairwise_cons]
    exact ⟨h.stop, h.order⟩

end MarksBefore

namespace Gap

/-- The characters that were read of a comment that is still open. -/
def Mode.taken : Mode → List Char
  | .space => []
  | .line _ text => '/' :: '/' :: text.reverse
  | .block _ text => '/' :: '*' :: text.reverse

/-- Where an open comment starts; without one, the position of the reader. -/
def Mode.origin (position : Nat) : Mode → Nat
  | .space => position
  | .line start _ | .block start _ => start

/-- What holds of the reader of a gap at each step: the characters taken for an open comment and
those ahead are what the text has there, and the comments before it are in place. -/
structure Follows (source : List Char) (marks : List (Span × List Char))
    (seen : List LooseComment) (position : Nat) (mode : Mode) (cs : List Char) : Prop where
  ahead : Text.IsAhead source (mode.origin position) (mode.taken ++ cs)
  position_eq : position = mode.origin position + Text.byteLength mode.taken
  seen : MarksBefore source (mode.origin position) (seen.map LooseComment.mark ++ marks)

/-- A gap that was read: its rest is what is ahead of its end, its comments are in place, and so is
what is wrong with it. -/
structure InPlace (source : List Char) (marks : List (Span × List Char)) (g : Gap) : Prop where
  ahead : Text.IsAhead source g.position g.rest
  comments : MarksBefore source g.position ((g.comments.map LooseComment.mark).reverse ++ marks)
  minor : ∀ f ∈ g.minor, Text.IsEdge source f.span.lo

section Reading

variable {source : List Char} {marks : List (Span × List Char)} {seen : List LooseComment}
  {position start : Nat} {text cs : List Char} {c : Char}

theorem Follows.skip (h : Follows source marks seen position .space (c :: cs)) :
    Follows source marks seen (position + c.utf8Size) .space cs := by
  have hahead : Text.IsAhead source position ([c] ++ cs) := h.ahead
  exact ⟨hahead.drop, rfl, h.seen.mono (Nat.le_add_right _ _)⟩

theorem Follows.openLine (h : Follows source marks seen position .space ('/' :: '/' :: cs)) :
    Follows source marks seen (position + 2) (.line position []) cs :=
  ⟨h.ahead, rfl, h.seen⟩

theorem Follows.openBlock (h : Follows source marks seen position .space ('/' :: '*' :: cs)) :
    Follows source marks seen (position + 2) (.block position []) cs :=
  ⟨h.ahead, rfl, h.seen⟩

/-- A character that does not end a comment is added to what was read of it. -/
theorem Follows.push {mode mode' : Mode} (h : Follows source marks seen position mode (c :: cs))
    (horigin : mode'.origin (position + c.utf8Size) = mode.origin position)
    (htaken : mode'.taken = mode.taken ++ [c]) :
    Follows source marks seen (position + c.utf8Size) mode' cs := by
  obtain ⟨hahead, hposition, hseen⟩ := h
  refine ⟨?_, ?_, ?_⟩
  · rw [horigin, htaken, List.append_assoc]
    exact hahead
  · rw [horigin, htaken, Text.byteLength_append, Text.byteLength_cons, Text.byteLength_nil]
    omega
  · rw [horigin]
    exact hseen

/-- A line comment ends where the line does. -/
theorem Follows.closeLine (h : Follows source marks seen position (.line start text) cs)
    (isBroken : Bool) (rest : List Char) :
    Follows source marks (close .line start position text isBroken rest :: seen) position .space
      cs := by
  have hahead : Text.IsAhead source start ('/' :: '/' :: text.reverse ++ cs) := h.ahead
  have hposition : position = start + Text.byteLength ('/' :: '/' :: text.reverse) :=
    h.position_eq
  refine ⟨?_, rfl, ?_⟩
  · rw [Mode.origin, hposition]
    exact hahead.drop
  · have hmarks := h.seen.cons hahead hposition
    simpa [close, LooseComment.mark, CommentKind.written, Mode.origin] using hmarks

/-- A block comment ends behind its closing mark. -/
theorem Follows.closeBlock
    (h : Follows source marks seen position (.block start text) ('*' :: '/' :: cs))
    (isBroken : Bool) (rest : List Char) :
    Follows source marks (close .block start (position + 2) text isBroken rest :: seen)
      (position + 2) .space cs := by
  have hahead : Text.IsAhead source start ('/' :: '*' :: text.reverse ++ ['*', '/'] ++ cs) := by
    simpa [Mode.taken, Mode.origin] using h.ahead
  have hposition : position + 2 =
      start + Text.byteLength ('/' :: '*' :: text.reverse ++ ['*', '/']) := by
    have hopen : position = start + Text.byteLength ('/' :: '*' :: text.reverse) := h.position_eq
    rw [Text.byteLength_append, ← Nat.add_assoc, ← hopen]
    rfl
  refine ⟨?_, rfl, ?_⟩
  · rw [Mode.origin, hposition]
    exact hahead.drop
  · have hmarks := h.seen.cons hahead hposition
    simpa [close, LooseComment.mark, CommentKind.written, Mode.origin] using hmarks

theorem Follows.inPlace (h : Follows source marks seen position .space cs) (isBroken : Bool) :
    InPlace source marks ⟨seen.reverse, isBroken, position, cs, none⟩ :=
  ⟨h.ahead, by simpa [Mode.origin] using h.seen, by simp⟩

/-- A block comment that is not closed is given up, with all that was read of it, and reported where
the text ends. -/
theorem Follows.giveUp (h : Follows source marks seen position (.block start text) [])
    (isBroken : Bool) (cause : Cause) (finish : Nat) :
    InPlace source marks
      ⟨seen.reverse, isBroken, position, [], some ⟨cause, ⟨position, finish⟩⟩⟩ := by
  have hopen : Text.IsAhead source start ('/' :: '*' :: text.reverse ++ []) := h.ahead
  have hposition : position = start + Text.byteLength ('/' :: '*' :: text.reverse) :=
    h.position_eq
  have hahead : Text.IsAhead source position [] := by
    rw [hposition]
    exact hopen.drop
  refine ⟨hahead, ?_, ?_⟩
  · have hmarks : MarksBefore source position (seen.map LooseComment.mark ++ marks) :=
      h.seen.mono (Nat.le.intro hposition.symm)
    simpa using hmarks
  · rintro f ⟨⟩
    exact hahead.isEdge

end Reading

theorem inPlace_readFrom {source : List Char} {marks : List (Span × List Char)}
    {seen : List LooseComment} {isBroken : Bool} {position : Nat} {mode : Mode} {cs : List Char}
    (h : Follows source marks seen position mode cs) :
    InPlace source marks (readFrom seen isBroken position mode cs) := by
  fun_induction readFrom seen isBroken position mode cs with
  | case1 seen isBroken position cs ih => exact ih h.openLine
  | case2 seen isBroken position cs ih => exact ih h.openBlock
  | case3 seen isBroken position c cs _ _ _ ih => exact ih h.skip
  | case4 seen isBroken position c cs _ _ _ _ ih => exact ih h.skip
  | case5 seen isBroken position c cs => exact h.inPlace isBroken
  | case6 seen isBroken position => exact h.inPlace isBroken
  | case7 seen isBroken position start text c cs _ ih => exact ih (h.closeLine isBroken cs).skip
  | case8 seen isBroken position start text c cs _ ih =>
      exact ih (h.push rfl (by simp [Mode.taken]))
  | case9 seen isBroken position start text => exact (h.closeLine isBroken []).inPlace isBroken
  | case10 seen isBroken position start text cs ih => exact ih (h.closeBlock isBroken cs)
  | case11 seen isBroken position start text c cs _ ih =>
      exact ih (h.push rfl (by simp [Mode.taken]))
  | case12 seen isBroken position start text => exact h.giveUp isBroken _ _

theorem inPlace_read {source : List Char} {marks : List (Span × List Char)} {position : Nat}
    {cs : List Char} (hahead : Text.IsAhead source position cs)
    (hmarks : MarksBefore source position marks) (isBroken : Bool) :
    InPlace source marks (read isBroken position cs) :=
  inPlace_readFrom ⟨hahead, rfl, hmarks⟩

theorem mark_attach (before : Option TokenKind) (finish : Nat) (next : Token)
    (comments : List LooseComment) :
    (attach before finish next comments).map Comment.mark = comments.map LooseComment.mark := by
  rw [attach, List.map_map]
  rfl

end Gap

end Contracts
