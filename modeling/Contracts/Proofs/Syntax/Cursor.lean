import Contracts.Proofs.Syntax.Placed
import Contracts.Proofs.Syntax.Standing
import Contracts.Proofs.Syntax.Widths
import Mathlib

/-!
# Reading stays within the file

A cursor is placed in a text if its token and the comments so far stand there
where their spans say, and what it holds besides, the token before and the minor
faults, starts where a character does. It is so at the start of a file, and every
move keeps it: a gap starts where the token before it ends, and a token where the
gap before it does.

`Rule.Gives r P` says of a rule that from a placed cursor it comes to a placed
one, with a result that has the property `P`, or fails with a fault that starts
where a character of the text does. The rules of the
grammar are put together from a few others, and so are the proofs: what each
rule gives is tagged as a specification, and `mvcgen` follows a rule through its
definition with the specifications of those it calls.
-/

namespace Contracts

/-- A computation that succeeds has succeeded in its first part. -/
theorem exists_of_bind_eq_ok {ε α β : Type} {x : Except ε α} {f : α → Except ε β} {b : β}
    (h : x >>= f = .ok b) : ∃ a, x = .ok a ∧ f a = .ok b := by
  cases x with
  | error e => exact absurd h (by simp [bind, Except.bind])
  | ok a => exact ⟨a, rfl, h⟩

/-- A computation that fails does so in its first part or in what follows. -/
theorem error_or_of_bind_eq_error {ε α β : Type} {x : Except ε α} {f : α → Except ε β} {e : ε}
    (h : x >>= f = .error e) : x = .error e ∨ ∃ a, x = .ok a ∧ f a = .error e := by
  cases x with
  | error e' => exact .inl (congrArg Except.error (Except.error.inj h))
  | ok a => exact .inr ⟨a, rfl, h⟩

/-- What is wrong with a token has a place. -/
theorem Text.IsAhead.isEdge_of_scan_fault {source cs : List Char} {position : Nat}
    {afterBreak : Bool} {f : Fault} (hahead : Text.IsAhead source position cs)
    (h : Token.scan position afterBreak cs = .error f ∨
      ∃ found, Token.scan position afterBreak cs = .ok found ∧ found.minor = some f) :
    Text.IsEdge source f.span.lo := by
  obtain ⟨before, rest, rfl, hlo⟩ := Token.exists_of_scan_fault h
  rw [hlo]
  exact hahead.drop.isEdge

namespace Cursor

open Text (IsEdge)

variable {source : List Char}

/-- The token that is looked at stands in the text where its span says, with the rest behind it, the
comments so far are in place before it, and all that faults are reported at has a place. -/
structure Placed (source : List Char) (c : Cursor) : Prop where
  token : ∃ taken, Text.IsAhead source c.token.span.lo (taken ++ c.rest) ∧
    c.token.StandsAt c.token.span.lo taken
  comments : MarksBefore source c.token.span.lo (c.comments.map Comment.mark)
  last : ∀ t ∈ c.last, IsEdge source t.span.lo
  finish : IsEdge source (max 1 c.finish)
  minor : ∀ f ∈ c.minor, IsEdge source f.span.lo

theorem Placed.start {c : Cursor} (h : c.Placed source) : IsEdge source c.token.span.lo := by
  obtain ⟨taken, hahead, -⟩ := h.token
  exact hahead.isEdge

/-- The rest of a text is what is ahead of the end of the token. -/
theorem Placed.isAhead_rest {c : Cursor} (h : c.Placed source) :
    Text.IsAhead source c.token.span.hi c.rest := by
  obtain ⟨taken, hahead, hspan, -⟩ := h.token
  have hstop : c.token.span.hi = c.token.span.lo + Text.byteLength taken :=
    congrArg Span.hi hspan
  rw [hstop]
  exact hahead.drop

theorem Placed.stop {c : Cursor} (h : c.Placed source) : IsEdge source c.token.span.hi :=
  h.isAhead_rest.isEdge

theorem Placed.comments_stop {c : Cursor} (h : c.Placed source) :
    MarksBefore source c.token.span.hi (c.comments.map Comment.mark) := by
  obtain ⟨taken, -, hspan, -⟩ := h.token
  have hstop : c.token.span.hi = c.token.span.lo + Text.byteLength taken :=
    congrArg Span.hi hspan
  exact h.comments.mono (Nat.le.intro hstop.symm)

/-- At the end of a text the token before has a place, or there is none. -/
theorem Placed.last_getD {c : Cursor} (h : c.Placed source) :
    IsEdge source ((c.last.map Token.span).getD c.token.span).lo := by
  cases hlast : c.last with
  | none => exact h.start
  | some t => exact h.last t hlast

attribute [grind →] Placed.start Placed.stop

/-- The cursor can move over the gap at `position`: the text ahead of it and the comments before it
are in place, and so are the token `last`, its end, and the minor faults so far. -/
structure Move (source : List Char) (c : Cursor) (last : Option Token) (position finish : Nat)
    (cs : List Char) : Prop where
  ahead : Text.IsAhead source position cs
  comments : MarksBefore source position (c.comments.map Comment.mark)
  last : ∀ t ∈ last, IsEdge source t.span.lo
  finish : IsEdge source (max 1 finish)
  minor : ∀ f ∈ c.minor, IsEdge source f.span.lo

theorem Move.placed {c d : Cursor} {last : Option Token} {position finish : Nat}
    {isBroken : Bool} {cs : List Char} (hc : c.Move source last position finish cs)
    (h : c.moveFrom last position finish isBroken cs = .ok d) : d.Placed source := by
  obtain ⟨found, hfound, hd⟩ := exists_of_bind_eq_ok h
  obtain rfl := Except.ok.inj hd
  have hgap := Gap.inPlace_read hc.ahead hc.comments isBroken
  obtain ⟨taken, hcs, hstands⟩ := Token.exists_taken_of_scan hfound
  have hlo : found.token.span.lo = (Gap.read isBroken position cs).position :=
    congrArg Span.lo hstands.1
  refine ⟨⟨taken, ?_, ?_⟩, ?_, hc.last, hc.finish, ?_⟩
  · change Text.IsAhead source found.token.span.lo (taken ++ found.rest)
    rw [hlo, ← hcs]
    exact hgap.ahead
  · change found.token.StandsAt found.token.span.lo taken
    rw [hlo]
    exact hstands
  · change MarksBefore source found.token.span.lo _
    rw [hlo, List.map_append, List.map_reverse, Gap.mark_attach]
    exact hgap.comments
  · intro f hf
    obtain (hf | hf) | hf := (List.mem_append.mp hf).imp_left List.mem_append.mp
    · have hminor : found.minor = some f := Option.mem_toList.mp hf
      exact hgap.ahead.isEdge_of_scan_fault (.inr ⟨found, hfound, hminor⟩)
    · exact hgap.minor f (Option.mem_toList.mp hf)
    · exact hc.minor f hf

/-- A move that fails does so at the token it comes to. -/
theorem Move.isEdge_of_error {c : Cursor} {last : Option Token} {position finish : Nat}
    {isBroken : Bool} {cs : List Char} {f : Fault} (hc : c.Move source last position finish cs)
    (h : c.moveFrom last position finish isBroken cs = .error f) : IsEdge source f.span.lo := by
  have hgap := Gap.inPlace_read hc.ahead hc.comments isBroken
  have hscan : Token.scan (Gap.read isBroken position cs).position
      (Gap.read isBroken position cs).isBroken (Gap.read isBroken position cs).rest = .error f := by
    obtain h | ⟨found, -, h⟩ := error_or_of_bind_eq_error h
    · exact h
    · exact absurd h (by simp [pure, Except.pure])
  exact hgap.ahead.isEdge_of_scan_fault (.inl hscan)

theorem Placed.move {c : Cursor} (hc : c.Placed source) :
    c.Move source (some c.token) c.token.span.hi c.token.span.hi c.rest where
  ahead := hc.isAhead_rest
  comments := hc.comments_stop
  last := by rintro t ⟨⟩; exact hc.start
  finish := by rw [Nat.max_eq_right hc.stop.one_le]; exact hc.stop
  minor := hc.minor

theorem Placed.next {c d : Cursor} (hc : c.Placed source) (h : c.next = .ok d) : d.Placed source :=
  hc.move.placed h

theorem Placed.next_error {c : Cursor} {f : Fault} (hc : c.Placed source) (h : c.next = .error f) :
    IsEdge source f.span.lo :=
  hc.move.isEdge_of_error h

/-- Reading starts with a move from the first position, or from the end of a line that is stepped
over. -/
theorem exists_move_of_start (cs : List Char) :
    ∃ (blank : Cursor) (position finish : Nat) (rest : List Char) (interpreter : Option String),
      blank.Move cs none position finish rest ∧
        start cs = blank.moveFrom none position finish true rest >>=
          fun c => .ok (interpreter, c) := by
  unfold start
  split
  next tail =>
      refine ⟨_, _, _, _, _, ?_, rfl⟩
      have hline : Text.IsAhead ('#' :: '!' :: tail) 1
          ('#' :: '!' :: tail.takeWhile (fun c => !Text.isLineBreak c) ++
            tail.dropWhile fun c => !Text.isLineBreak c) := by
        rw [List.cons_append, List.cons_append, List.takeWhile_append_dropWhile]
        exact Text.isAhead_start _
      have hrest := hline.drop
      rw [Text.byteLength_cons, Text.byteLength_cons, ← Nat.add_assoc, ← Nat.add_assoc] at hrest
      refine ⟨hrest, .nil, by simp, ?_, by simp⟩
      rw [Nat.max_eq_right (Nat.le_trans (by decide : 1 ≤ 3) (Nat.le_add_right 3 _))]
      exact hrest.isEdge
  next =>
      have hstart : IsEdge cs (max 1 0) := Text.isEdge_one cs
      exact ⟨_, _, _, _, _, ⟨Text.isAhead_start cs, .nil, by simp, hstart, by simp⟩, rfl⟩

theorem placed_start {cs : List Char} {interpreter : Option String} {c : Cursor}
    (h : start cs = .ok (interpreter, c)) : c.Placed cs := by
  obtain ⟨blank, position, finish, rest, line, hmove, hstart⟩ := exists_move_of_start cs
  rw [hstart] at h
  obtain ⟨d, hd, heq⟩ := exists_of_bind_eq_ok h
  obtain ⟨-, rfl⟩ := Prod.mk.inj (Except.ok.inj heq)
  exact hmove.placed hd

theorem isEdge_of_start_error {cs : List Char} {f : Fault} (h : start cs = .error f) :
    IsEdge cs f.span.lo := by
  obtain ⟨blank, position, finish, rest, line, hmove, hstart⟩ := exists_move_of_start cs
  rw [hstart] at h
  obtain h | ⟨d, -, h⟩ := error_or_of_bind_eq_error h
  · exact hmove.isEdge_of_error h
  · exact absurd h (by simp)

end Cursor

namespace Rule

open Std.Do

set_option mvcgen.warning false

/-- The text that is read. It stays the same for all rules, so that none of them has to name it. -/
class Reading where
  source : List Char

variable [Reading]

open Reading Text

/-- From a placed cursor the rule comes to a placed one, and to a result that has the property `P`,
or it fails with a fault that has a place. -/
abbrev Gives {α : Type} (r : Rule α) (P : α → Prop) : Prop :=
  ⦃fun c => ⌜c.Placed source⌝⦄ r
  ⦃post⟨fun a c => ⌜P a ∧ c.Placed source⌝, fun f => ⌜IsEdge source f.span.lo⌝⟩⦄

theorem gives_iff {α : Type} {r : Rule α} {P : α → Prop} :
    Gives r P ↔ ∀ c, c.Placed source →
      (∀ a c', r c = .ok (a, c') → P a ∧ c'.Placed source) ∧
        ∀ f, r c = .error f → IsEdge source f.span.lo := by
  have hwp : ∀ c, (wp⟦r⟧ (post⟨fun a c => ⌜P a ∧ c.Placed source⌝,
        fun f => ⌜IsEdge source f.span.lo⌝⟩) c).down ↔
      (∀ a c', r c = .ok (a, c') → P a ∧ c'.Placed source) ∧
        ∀ f, r c = .error f → IsEdge source f.span.lo := by
    intro c
    change (wp⟦r c⟧ (fun p => ⌜P p.1 ∧ p.2.Placed source⌝,
      fun f => ⌜IsEdge source f.span.lo⌝, ())).down ↔ _
    cases r c with
    | error e =>
        constructor
        · intro h
          refine ⟨by simp, ?_⟩
          rintro f ⟨⟩
          exact h
        · exact fun h => h.2 e rfl
    | ok p =>
        constructor
        · intro h
          refine ⟨?_, by simp⟩
          rintro a c' ⟨⟩
          exact h
        · exact fun h => h.1 _ _ rfl
  constructor
  · intro h c hc
    exact (hwp c).mp (h c hc)
  · intro h c hc
    exact (hwp c).mpr (h c hc)

section Steps

@[spec]
theorem gives_fault {α : Type} {cause : Cause} {span : Span} (hspan : IsEdge source span.lo) :
    Gives (fault cause span : Rule α) fun _ => False := by
  refine gives_iff.mpr fun c _ => ?_
  have hrun : (fault cause span : Rule α) c = .error ⟨cause, span⟩ := rfl
  rw [hrun]
  refine ⟨by simp, ?_⟩
  rintro f ⟨⟩
  exact hspan

@[spec]
theorem gives_note {cause : Cause} {span : Span} (hspan : IsEdge source span.lo) :
    Gives (note cause span) fun _ => True := by
  refine gives_iff.mpr fun c hc => ?_
  have hrun : note cause span c = .ok ((), { c with minor := ⟨cause, span⟩ :: c.minor }) := rfl
  rw [hrun]
  refine ⟨?_, by simp⟩
  rintro a c' ⟨⟩
  exact ⟨trivial, { hc with minor := List.forall_mem_cons.mpr ⟨hspan, hc.minor⟩ }⟩

@[spec]
theorem gives_current : Gives current fun t => IsEdge source t.span.lo := by
  unfold current
  mvcgen
  all_goals grind

@[spec]
theorem gives_kind : Gives kind fun _ => True := by
  unfold kind
  mvcgen

@[spec]
theorem gives_here : Gives here (IsEdge source) := by
  unfold here
  mvcgen
  all_goals grind [→ Cursor.Placed.finish]

/-- A computation without a cursor keeps the one that is there. -/
@[spec]
theorem gives_liftM {α : Type} {x : Except Fault α}
    (hx : ∀ f, x = .error f → IsEdge source f.span.lo) :
    Gives (liftM x : Rule α) fun a => x = .ok a := by
  refine gives_iff.mpr fun c hc => ?_
  cases x with
  | error e =>
      have hrun : (liftM (Except.error e) : Rule α) c = .error e := rfl
      rw [hrun]
      refine ⟨by simp, ?_⟩
      rintro f ⟨⟩
      exact hx e rfl
  | ok b =>
      have hrun : (liftM (Except.ok b : Except Fault α) : Rule α) c = .ok (b, c) := rfl
      rw [hrun]
      refine ⟨?_, by simp⟩
      rintro a c' ⟨⟩
      exact ⟨rfl, hc⟩

/-- A rule that fails is given up for another, which starts at the same cursor. -/
@[spec]
theorem gives_tryCatch {r : Rule Unit} {handler : Fault → Rule Unit}
    (hr : Gives r fun _ => True) (hhandler : ∀ e, Gives (handler e) fun _ => True) :
    Gives (tryCatch r handler) fun _ => True := by
  refine gives_iff.mpr fun c hc => ?_
  have hrun : tryCatch r handler c = tryCatch (r c) fun e => handler e c := rfl
  rw [hrun]
  cases hfirst : r c with
  | ok p =>
      have hkept : tryCatch (.ok p) (fun e => handler e c) = .ok p := rfl
      rw [hkept, ← hfirst]
      exact gives_iff.mp hr c hc
  | error e => exact gives_iff.mp (hhandler e) c hc

@[spec]
theorem gives_advance : Gives advance fun _ => True := by
  unfold advance
  mvcgen
  all_goals grind [Cursor.Placed.next, Cursor.Placed.next_error]

@[spec]
theorem gives_peek : Gives peek fun _ => True := by
  unfold peek
  mvcgen

@[spec]
theorem gives_atEnd : Gives atEnd fun _ => True := by
  unfold atEnd
  mvcgen

@[spec]
theorem gives_isAt (text : String) : Gives (isAt text) fun _ => True := by
  unfold isAt
  mvcgen

@[spec]
theorem gives_isAtWord (text : String) : Gives (isAtWord text) fun _ => True := by
  unfold isAtWord
  mvcgen

@[spec]
theorem gives_take? (text : String) : Gives (take? text) fun _ => True := by
  unfold take?
  mvcgen
  all_goals grind

@[spec]
theorem gives_takeWord? (text : String) : Gives (takeWord? text) fun _ => True := by
  unfold takeWord?
  mvcgen
  all_goals grind

@[spec]
theorem gives_spanHere : Gives spanHere fun s => IsEdge source s.lo := by
  unfold spanHere
  mvcgen
  all_goals grind [→ Cursor.Placed.last_getD]

@[spec]
theorem gives_faultAtEnd {α : Type} : Gives (faultAtEnd : Rule α) fun _ => False := by
  unfold faultAtEnd
  mvcgen
  all_goals grind

/-- A node is placed if it starts in the file and its children are placed. -/
@[spec]
theorem gives_finishNode {start : Nat} {form : Form} {children : List Tree}
    (hstart : IsEdge source start) (hchildren : ∀ c ∈ children, c.Placed source) :
    Gives (finishNode start form children) (Tree.Rooted source) := by
  unfold finishNode finish
  mvcgen
  all_goals grind

end Steps

section Loops

/-- What every item has, all items of a loop have. -/
theorem gives_manyWithin {stop : Rule Bool} {item : Rule Tree} {P : Tree → Prop}
    (hstop : Gives stop fun _ => True) (hitem : Gives item P) (n : Nat) :
    Gives (manyWithin stop item n) fun ts => ∀ t ∈ ts, P t := by
  induction n with
  | zero =>
      unfold manyWithin
      mvcgen
      all_goals grind
  | succ n ih =>
      unfold manyWithin
      mvcgen [hstop, hitem, ih]
      all_goals grind

theorem gives_many_of {stop : Rule Bool} {item : Rule Tree} {P : Tree → Prop}
    (hstop : Gives stop fun _ => True) (hitem : Gives item P) :
    Gives (many stop item) fun ts => ∀ t ∈ ts, P t := by
  have hpasses := gives_manyWithin hstop hitem
  unfold many
  mvcgen [hpasses]

@[spec]
theorem gives_many {stop : Rule Bool} {item : Rule Tree} (hstop : Gives stop fun _ => True)
    (hitem : Gives item (Tree.Placed source)) :
    Gives (many stop item) fun ts => ∀ t ∈ ts, t.Placed source :=
  gives_many_of hstop hitem

theorem gives_iterateWithin {step : Tree → Rule (Option Tree)}
    (hstep : ∀ t, t.Rooted source → Gives (step t) fun o => ∀ u ∈ o, u.Rooted source) (n : Nat)
    {t : Tree} (ht : t.Rooted source) : Gives (iterateWithin step n t) (Tree.Rooted source) := by
  induction n generalizing t with
  | zero =>
      unfold iterateWithin
      mvcgen
  | succ n ih =>
      unfold iterateWithin
      mvcgen [hstep, ih]
      all_goals grind

@[spec]
theorem gives_iterate {step : Tree → Rule (Option Tree)} {t : Tree}
    (hstep : ∀ t, t.Rooted source → Gives (step t) fun o => ∀ u ∈ o, u.Rooted source)
    (ht : t.Rooted source) : Gives (iterate step t) (Tree.Rooted source) := by
  have hpasses := fun n => gives_iterateWithin hstep n ht
  unfold iterate
  mvcgen [hpasses]

@[spec]
theorem gives_forM {α : Type} {f : α → Rule PUnit} {l : List α}
    (hf : ∀ a ∈ l, Gives (f a) fun _ => True) : Gives (l.forM f) fun _ => True := by
  induction l with
  | nil =>
      unfold List.forM
      mvcgen
  | cons a l ih =>
      rw [List.forall_mem_cons] at hf
      have hfirst := hf.1
      have hrest := ih hf.2
      unfold List.forM
      mvcgen [hfirst, hrest]
      all_goals grind

end Loops

end Rule

end Contracts
