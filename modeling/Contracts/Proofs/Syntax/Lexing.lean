import Contracts.Proofs.Syntax.Scanning
import Contracts.Syntax.Grammar.Cursor

/-!
# Texts made of known tokens

A text that this library prints is put together from words, string literals and
marks, with parts of the file between them. `LexedUpTo tail b cs ks` says that the
text `cs` consists of the tokens `ks` up to its end `tail`, with nothing but blanks
and line feeds between them; there is one lemma for each way in which such a text
begins. Of the end of the text it matters only which token it opens with
(`Text.Opens`), since this token is looked at as soon as the last one in front of it
is taken.

`Cursor.Sees c s` says of a cursor what is ahead of it: some tokens, and a text
behind them. This is all that a rule of the grammar can see.
-/

namespace Contracts

/-- Wherever the text stands, a token of the kind `k` comes first in it, with nothing wrong in front
of it or in it. -/
def Text.Opens (cs : List Char) (k : TokenKind) : Prop :=
  ∀ (c : Cursor) (last : Option Token) (position finish : Nat) (isBroken : Bool),
    ∃ d, c.moveFrom last position finish isBroken cs = .ok d ∧ d.minor = c.minor ∧ d.token.kind = k

/-- The text `cs` consists of the tokens `ks` and of the text `tail` behind them. Each token is given
with whether a line ends in front of it, and there are only blanks and line feeds in front of a
token; `isBroken` says whether a line ended in front of the text. -/
inductive LexedUpTo (tail : List Char) : Bool → List Char → List (TokenKind × Bool) → Prop where
  | done {isBroken : Bool} : LexedUpTo tail isBroken tail []
  | blank {isBroken : Bool} {cs : List Char} {ks : List (TokenKind × Bool)}
      (h : LexedUpTo tail isBroken cs ks) : LexedUpTo tail isBroken (' ' :: cs) ks
  | line {isBroken : Bool} {cs : List Char} {ks : List (TokenKind × Bool)}
      (h : LexedUpTo tail true cs ks) : LexedUpTo tail isBroken ('\n' :: cs) ks
  | token {isBroken : Bool} {c : Char} {cs rest : List Char} {k : TokenKind}
      {ks : List (TokenKind × Bool)}
      (hc : (isSpace c || Text.isLineBreak c || c == '/') = false) (hk : k ≠ .endOfFile)
      (hscan : ∀ position afterBreak, ∃ span, Token.scan position afterBreak (c :: cs ++ rest) =
        .ok ⟨⟨k, span, afterBreak⟩, rest, none⟩)
      (h : LexedUpTo tail false rest ks) :
      LexedUpTo tail isBroken (c :: cs ++ rest) ((k, isBroken) :: ks)

/-- The text `cs` consists of the tokens `ks`. -/
abbrev Lexed : Bool → List Char → List (TokenKind × Bool) → Prop :=
  LexedUpTo []

namespace LexedUpTo

theorem not_isGap_of_isNameStart {c : Char} (h : Token.isNameStart c = true) :
    (isSpace c || Text.isLineBreak c || c == '/') = false := by
  rw [Bool.eq_false_iff]
  intro hgap
  simp only [Bool.or_eq_true, beq_iff_eq] at hgap
  rcases hgap with (hspace | hbreak) | rfl
  · rw [Token.isSpace_of_isNameStart h] at hspace
    exact absurd hspace (by simp)
  · simp only [Text.isLineBreak, Bool.or_eq_true, beq_iff_eq] at hbreak
    rcases hbreak with ((rfl | rfl) | rfl) | rfl
    all_goals exact absurd h (by decide)
  · exact absurd h (by decide)

variable {tail rest : List Char} {isBroken : Bool} {ks : List (TokenKind × Bool)}

theorem blanks (n : Nat) (h : LexedUpTo tail isBroken rest ks) :
    LexedUpTo tail isBroken (List.replicate n ' ' ++ rest) ks := by
  induction n with
  | zero => exact h
  | succ n ih => exact .blank ih

theorem word {text : String} (htext : Token.IsWord text)
    (hrest : Token.EndsWord rest)
    (h : LexedUpTo tail false rest ks) :
    LexedUpTo tail isBroken (text.toList ++ rest) ((.word text false, isBroken) :: ks) := by
  obtain ⟨c, cs, rfl, hc, hcs⟩ := htext
  rw [String.toList_ofList]
  exact .token (not_isGap_of_isNameStart hc) (by simp)
    (fun position afterBreak => ⟨_, Token.scan_word hc hcs hrest position afterBreak⟩) h

theorem literal {text : String} (htext : Text.Quoted.isReadable text = true)
    (h : LexedUpTo tail false rest ks) :
    LexedUpTo tail isBroken (Text.Quoted.encode text.toList ++ rest)
      ((.string (String.ofList (Text.Quoted.encode text.toList)), isBroken) :: ks) := by
  have hscan := Token.scan_encode htext rest
  have hquote := Token.quoteFor_cases text.toList
  refine .token ?_ (by simp) (fun position afterBreak => ⟨_, hscan position afterBreak⟩) h
  rcases hquote with hquote | hquote
  all_goals
    rw [hquote]
    decide

theorem point (hrest : ∀ c ∈ rest.head?, Token.isNameStart c = true)
    (h : LexedUpTo tail false rest ks) :
    LexedUpTo tail isBroken ('.' :: rest) ((.punctuator ".", isBroken) :: ks) := by
  change LexedUpTo tail isBroken ('.' :: [] ++ rest) _
  exact .token (by decide) (by simp) (fun position afterBreak =>
    ⟨_, Token.scan_point hrest position afterBreak⟩) h

theorem mark {c : Char} (hc : c ∈ Token.soleMarks) (h : LexedUpTo tail false rest ks) :
    LexedUpTo tail isBroken (c :: rest) ((.punctuator (String.ofList [c]), isBroken) :: ks) := by
  have hgap : Token.soleMarks.all
      (fun c => !(isSpace c || Text.isLineBreak c || c == '/')) = true := by
    decide
  change LexedUpTo tail isBroken (c :: [] ++ rest) _
  refine .token ?_ (by simp) (fun position afterBreak =>
    ⟨_, Token.scan_mark hc rest position afterBreak⟩) h
  exact (Bool.not_eq_true' _).mp (List.all_eq_true.mp hgap c hc)

theorem operator {text : String} (htext : text = "=" ∨ text = "||")
    (h : LexedUpTo tail false rest ks) :
    LexedUpTo tail isBroken (text.toList ++ ' ' :: rest) ((.punctuator text, isBroken) :: ks) := by
  have hscan := Token.scan_operator htext rest
  rcases htext with rfl | rfl
  all_goals
    exact .token (by decide) (by simp) (fun position afterBreak =>
      ⟨_, hscan position afterBreak⟩) (.blank h)

/-- Every token takes a character at least. -/
theorem length_le {cs : List Char} (h : LexedUpTo tail isBroken cs ks) :
    ks.length + tail.length ≤ cs.length := by
  induction h with
  | done => simp
  | blank h ih => exact Nat.le_succ_of_le ih
  | line h ih => exact Nat.le_succ_of_le ih
  | token hc hk hscan h ih =>
      rw [List.cons_append, List.length_cons, List.length_cons, List.length_append]
      omega

end LexedUpTo

namespace Cursor

/-- The cursor is at the first token of the text. -/
def On (c : Cursor) (cs : List Char) : Prop :=
  ∃ (b : Cursor) (last : Option Token) (position finish : Nat) (isBroken : Bool),
    b.moveFrom last position finish isBroken cs = .ok c

/-- The tokens from the current one on are of the kinds `ks`, each given with whether a line
ends in front of it, nothing is noted on the way, and the text `tail` comes after them. -/
inductive Ahead (tail : List Char) : Cursor → List (TokenKind × Bool) → Prop where
  | done {c : Cursor} (h : c.On tail) : Ahead tail c []
  | more {c d : Cursor} {ks : List (TokenKind × Bool)} (h : c.token.kind ≠ .endOfFile)
      (hnext : c.next = .ok d) (hminor : d.minor = c.minor) (hlimit : d.limit = c.limit)
      (hd : Ahead tail d ks) : Ahead tail c ((c.token.kind, c.token.afterBreak) :: ks)

end Cursor

theorem Gap.read_token {c : Char} (hc : (isSpace c || Text.isLineBreak c || c == '/') = false)
    (isBroken : Bool) (position : Nat) (cs : List Char) :
    read isBroken position (c :: cs) = ⟨[], isBroken, position, c :: cs, none⟩ := by
  simp only [Bool.or_eq_false_iff, beq_eq_false_iff_ne] at hc
  obtain ⟨⟨hspace, hbreak⟩, hslash⟩ := hc
  rw [read, readFrom]
  · simp [hspace, hbreak]
  · simp [hslash]
  · simp [hslash]

namespace Cursor

theorem moveFrom_eq {c : Cursor} {isBroken : Bool} {position start : Nat} {cs rest : List Char}
    {next : Token.Scanned}
    (hgap : Gap.read isBroken position cs = ⟨[], isBroken, start, rest, none⟩)
    (hscan : Token.scan start isBroken rest = .ok next) (hminor : next.minor = none)
    (last : Option Token) (finish : Nat) :
    c.moveFrom last position finish isBroken cs =
      .ok ⟨next.token, next.rest, last, finish, c.comments, c.minor, c.limit⟩ := by
  unfold moveFrom
  simp only [hgap, hscan, bind, Except.bind]
  simp [hminor, Gap.attach, pure, Except.pure]

theorem limit_of_moveFrom {c d : Cursor} {last : Option Token} {position finish : Nat}
    {isBroken : Bool} {cs : List Char} (h : c.moveFrom last position finish isBroken cs = .ok d) :
    d.limit = c.limit := by
  unfold moveFrom at h
  cases hscan : Token.scan (Gap.read isBroken position cs).position
      (Gap.read isBroken position cs).isBroken (Gap.read isBroken position cs).rest with
  | error fault =>
      simp only [hscan] at h
      exact absurd h (by simp [bind, Except.bind])
  | ok next =>
      simp only [hscan] at h
      rw [← Except.ok.inj h]

/-- A move to the beginning of a text of known tokens. -/
theorem exists_moveFrom_of_lexed {tail cs : List Char} {isBroken : Bool}
    {ks : List (TokenKind × Bool)} (h : LexedUpTo tail isBroken cs ks) {k : TokenKind}
    (htail : Text.Opens tail k) (c : Cursor) (last : Option Token) (position finish : Nat) :
    ∃ d, c.moveFrom last position finish isBroken cs = .ok d ∧ d.minor = c.minor ∧
      d.limit = c.limit ∧ d.Ahead tail ks := by
  induction h generalizing c last position finish with
  | done =>
      obtain ⟨d, hd, hminor, -⟩ := htail c last position finish _
      exact ⟨d, hd, hminor, limit_of_moveFrom hd, .done ⟨c, last, position, finish, _, hd⟩⟩
  | blank h ih => exact ih c last (position + 1) finish
  | line h ih => exact ih c last (position + 1) finish
  | token hc hk hscan h ih =>
      obtain ⟨span, hscan⟩ := hscan position _
      have hmove := moveFrom_eq (c := c) (Gap.read_token hc _ position _) hscan rfl last finish
      refine ⟨_, hmove, rfl, rfl, ?_⟩
      obtain ⟨d, hd, hminor, hlimit, hahead⟩ := ih _ _ _ _
      exact .more hk hd hminor hlimit hahead

end Cursor

namespace Text.Opens

variable {cs tail : List Char} {k : TokenKind}

theorem nil : Opens [] .endOfFile :=
  fun _ _ _ _ _ => ⟨_, rfl, rfl, rfl⟩

theorem line (h : Opens cs k) : Opens ('\n' :: cs) k :=
  fun c last position finish _ => h c last (position + 1) finish true

theorem blank (h : Opens cs k) : Opens (' ' :: cs) k :=
  fun c last position finish isBroken => h c last (position + 1) finish isBroken

theorem kind_eq (h : Opens cs k) {c : Cursor} (hc : c.On cs) : c.token.kind = k := by
  obtain ⟨b, last, position, finish, isBroken, hmove⟩ := hc
  obtain ⟨d, hd, -, hk⟩ := h b last position finish isBroken
  obtain rfl : d = c := Except.ok.inj (hd.symm.trans hmove)
  exact hk

theorem unique (h : Opens cs k) {k' : TokenKind} (h' : Opens cs k') : k = k' := by
  obtain ⟨d, hd, -, hk⟩ := h' ⟨⟨.endOfFile, ⟨1, 1⟩, true⟩, [], none, 0, [], [], 0⟩ none 1 0 true
  rw [← hk]
  exact (h.kind_eq ⟨_, _, _, _, _, hd⟩).symm

/-- A text of known tokens opens with the first of them. -/
theorem of_lexed {ks : List (TokenKind × Bool)} {k' : TokenKind}
    (h : ∀ isBroken, ∃ b, LexedUpTo tail isBroken cs ((k, b) :: ks)) (htail : Opens tail k') :
    Opens cs k := by
  intro c last position finish isBroken
  obtain ⟨b, hlexed⟩ := h isBroken
  obtain ⟨d, hd, hminor, -, hahead⟩ :=
    Cursor.exists_moveFrom_of_lexed hlexed htail c last position finish
  cases hahead with
  | more => exact ⟨d, hd, hminor, rfl⟩

end Text.Opens

/-- What is ahead of a cursor: the tokens from the current one on, each with whether a line ends in
front of it, and the text behind them. -/
abbrev Stream := List (TokenKind × Bool) × List Char

/-- A bound for the tokens of a stream. -/
def Stream.size (s : Stream) : Nat :=
  s.1.length + s.2.length

/-- The stream is ahead, no fault was noted, and every loop may go on longer than there are tokens. -/
structure Cursor.Sees (c : Cursor) (s : Stream) : Prop where
  ahead : c.Ahead s.2 s.1
  minor : c.minor = []
  limit : s.size + 2 ≤ c.limit

namespace Cursor

/-- The tokens of a text can be seen one by one. -/
theorem Sees.of_lexed {c : Cursor} {tail cs : List Char} {ks : Bool → List (TokenKind × Bool)}
    (hc : c.Sees ([], cs)) (h : ∀ isBroken, LexedUpTo tail isBroken cs (ks isBroken))
    {k : TokenKind} (htail : Text.Opens tail k) : ∃ isBroken, c.Sees (ks isBroken, tail) := by
  cases hc.ahead with
  | done hon =>
      obtain ⟨b, last, position, finish, isBroken, hmove⟩ := hon
      obtain ⟨d, hd, -, -, hahead⟩ :=
        exists_moveFrom_of_lexed (h isBroken) htail b last position finish
      obtain rfl : d = c := Except.ok.inj (hd.symm.trans hmove)
      have hlength := (h isBroken).length_le
      have hlimit := hc.limit
      refine ⟨isBroken, hahead, hc.minor, ?_⟩
      simp only [Stream.size, List.length_nil] at hlimit ⊢
      omega

/-- Blanks and line feeds can be passed over. -/
theorem Sees.skip {c : Cursor} {d : Char} (hd : d = ' ' ∨ d = '\n') {cs : List Char}
    (hc : c.Sees ([], d :: cs)) : c.Sees ([], cs) := by
  have hlimit := hc.limit
  refine ⟨?_, hc.minor, ?_⟩
  · cases hc.ahead with
    | done hon =>
        obtain ⟨b, last, position, finish, isBroken, hmove⟩ := hon
        rcases hd with rfl | rfl
        · exact .done ⟨b, last, position + 1, finish, isBroken, hmove⟩
        · exact .done ⟨b, last, position + 1, finish, true, hmove⟩
  · simp only [Stream.size, List.length_nil, List.length_cons] at hlimit ⊢
    omega

/-- The start of a text without a line for an interpreter. -/
theorem exists_start_of_opens {cs : List Char} {k : TokenKind} (h : Text.Opens cs k)
    (hcs : cs.head? ≠ some '#') : ∃ c, start cs = .ok (none, c) ∧ c.Sees ([], cs) := by
  obtain ⟨c, hmove, hminor, -⟩ := h
    ⟨⟨.endOfFile, ⟨1, 1⟩, true⟩, [], none, 0, [], [], cs.length + 2⟩ none 1 0 true
  refine ⟨c, ?_, .done ⟨_, _, _, _, _, hmove⟩, hminor, ?_⟩
  · unfold start
    split
    · exact absurd rfl hcs
    · simp only [hmove]
      rfl
  · rw [limit_of_moveFrom hmove]
    simp [Stream.size]

end Cursor

end Contracts
