import Contracts.Directive.Insertion
import Contracts.Proofs.Directive.Reading
import Contracts.Proofs.Layout.Printed

/-!
# The statements of directives in print

The statement of a directive is printed on one line, or on several ones where it
has fields. `DirectiveKind.line` is its text and `DirectiveKind.argumentTokens` the
tokens of its arguments. It is read as a statement in every place, as long as its
literals can be read; only the instances of a name are declared by something that the
place may refuse (`Directive.isStatement`).
-/

namespace Contracts

namespace Build

/-- A path of names is printed without marks and line ends. -/
theorem exists_text_of_mem_lookup (path : String) :
    ∀ piece ∈ (lookup path).pieces, ∃ s, piece = .text s := by
  have hmembers : ∀ (names : List String) (t : Tree), (∀ piece ∈ t.pieces, ∃ s, piece = .text s) →
      ∀ piece ∈ (names.foldl member t).pieces, ∃ s, piece = .text s := by
    intro names
    induction names with
    | nil => exact fun t ht => ht
    | cons name names ih =>
        intro t ht
        refine ih _ fun piece hpiece => ?_
        rw [pieces_member, List.mem_append] at hpiece
        rcases hpiece with hpiece | hpiece
        · exact ht piece hpiece
        · simp only [List.mem_cons, List.not_mem_nil, or_false] at hpiece
          rcases hpiece with rfl | rfl
          all_goals exact ⟨_, rfl⟩
  have hname : ∀ text : String, ∀ piece ∈ (identifier text).pieces, ∃ s, piece = .text s := by
    intro text piece hpiece
    exact ⟨text, List.mem_singleton.mp hpiece⟩
  rw [lookup]
  split
  next => exact hname ""
  next head rest _ => exact hmembers rest _ (hname head)

end Build

/-- Texts are printed one after the other, and something is on the line after one that is not
empty. -/
theorem Piece.chars_texts {ps : List Piece} (h : ∀ piece ∈ ps, ∃ s, piece = .text s)
    (isBlank : Bool) (depth : Nat) {last : String} (hlast : last ≠ "") (qs : List Piece) :
    chars isBlank depth (ps ++ .text last :: qs) =
      chars isBlank depth (ps ++ [Piece.text last]) ++ chars false depth qs := by
  induction ps generalizing isBlank with
  | nil =>
      have hempty : last.isEmpty = false := by simpa using hlast
      simp [chars, hempty]
  | cons piece ps ih =>
      rw [List.forall_mem_cons] at h
      obtain ⟨⟨s, rfl⟩, hps⟩ := h
      rw [List.cons_append, List.cons_append, chars, chars]
      split
      next => exact ih hps isBlank
      next =>
          rw [ih hps false]
          simp only [List.append_assoc]

namespace Directive.IsName

theorem isWord {name : String} (h : IsName name) : Token.IsWord name := by
  obtain ⟨c, cs, rfl, hc, hcs⟩ := h
  refine ⟨c, cs, rfl, ?_, fun d hd => ?_⟩
  · rw [isNameStart, Bool.or_eq_true] at hc
    rcases hc with hc | hc
    all_goals simp [Token.isNameStart, hc]
  · have hd := hcs d hd
    rw [isNamePart, Char.isAlphanum, Bool.or_eq_true, Bool.or_eq_true] at hd
    rcases hd with (hd | hd) | hd
    all_goals simp [Token.isNamePart, Token.isNameStart, hd]

theorem not_mem_backslash {name : String} (h : IsName name) : '\\' ∉ name.toList := by
  obtain ⟨c, cs, rfl, hc, hcs⟩ := h
  rw [String.toList_ofList, List.mem_cons, not_or]
  constructor
  · rintro rfl
    exact absurd hc (by decide)
  · intro hmem
    exact absurd (hcs _ hmem) (by decide)

theorem not_hasHalfEscape {name : String} (h : IsName name) :
    Text.Quoted.hasHalfEscape name.toList = false :=
  Text.Quoted.hasHalfEscape_of_not_mem h.not_mem_backslash

theorem isReadable {name : String} (h : IsName name) : Text.Quoted.isReadable name = true :=
  Text.Quoted.isReadable_of_not_hasHalfEscape h.not_hasHalfEscape

end Directive.IsName

namespace DirectiveKind

open Text.Quoted (encode isReadable)

/-- The line of a field, as it is printed behind `margin` blanks. -/
def fieldLine (margin : Nat) (field : String × String) : List Char :=
  List.replicate margin ' ' ++ (encode field.1.toList ++ (':' :: ' ' :: encode field.2.toList))

/-- Fields on lines of their own. -/
def fieldLines (margin : Nat) : List (String × String) → List Char
  | [] => []
  | [field] => fieldLine margin field
  | field :: fields => fieldLine margin field ++ (',' :: '\n' :: fieldLines margin fields)

/-- The second argument of the call for a directive, as it is printed in a line at a level. -/
def valueText (depth : Nat) : DirectiveKind → List Char
  | .synonym _ definition => encode definition.toList
  | .instances name => name.toList
  | .choice _ fields =>
    '\x7b' :: ((if fields.isEmpty then []
      else '\n' :: (fieldLines (4 * (depth + 1)) fields ++
        '\n' :: List.replicate (4 * depth) ' ')) ++ ['\x7d'])

/-- The arguments of the call for a directive, as they are printed. -/
def argumentText (depth : Nat) (kind : DirectiveKind) : List Char :=
  encode kind.name.toList ++ (',' :: ' ' :: kind.valueText depth)

/-- The statement for a directive, as it is printed. -/
def line (depth : Nat) (kind : DirectiveKind) : List Char :=
  "global".toList ++ ('.' :: ("__typify".toList ++ ('.' :: (kind.method.toList ++
    ('(' :: (kind.argumentText depth ++ [')', ';']))))))

/-- A statement ends with its semicolon. -/
theorem getLast?_line (depth : Nat) (kind : DirectiveKind) :
    (kind.line depth).getLast? = some ';' := by
  have htext : kind.line depth = "global".toList ++ '.' :: "__typify".toList ++ '.' ::
      kind.method.toList ++ '(' :: kind.argumentText depth ++ [')', ';'] := by
    unfold line
    simp
  rw [htext, List.getLast?_append]
  rfl

/-- The second argument of the call for a directive. -/
def value : DirectiveKind → Tree
  | .synonym _ definition => Build.string definition
  | .instances name => Build.identifier name
  | .choice _ fields => Build.literal (.object (fields.map fun (k, t) => (k, .string t)))

theorem arguments_eq (kind : DirectiveKind) :
    kind.arguments = [Build.string kind.name, kind.value] := by
  cases kind <;> rfl

theorem properties_eq (fields : List (String × String)) :
    Build.properties (fields.map fun (k, t) => (k, .string t)) =
      fields.map fun f => Build.make .property [Build.string f.1, Build.string f.2] := by
  induction fields with
  | nil => rfl
  | cons field fields ih =>
      rw [List.map_cons, List.map_cons, Build.properties, ih]
      rfl

theorem encode_ne_nil (cs : List Char) : encode cs ≠ [] := by
  simp [encode]

theorem pieces_string (text : String) :
    (Build.string text).pieces = [Piece.text (String.ofList (encode text.toList))] :=
  rfl

/-- The pieces of a field. -/
def fieldPieces (field : String × String) : List Piece :=
  [Piece.text (String.ofList (encode field.1.toList)), .text ": ",
    .text (String.ofList (encode field.2.toList))]

theorem pieces_object (fields : List (String × String)) :
    (Build.literal (.object (fields.map fun (k, t) => (k, .string t)))).pieces =
      [Piece.text "\x7b"] ++ (if fields.isEmpty then []
        else Printer.deeper [Piece.text ",", .newline] (fields.map fieldPieces)) ++
          [Piece.text "\x7d"] := by
  have hfields : (fields.map fun f => Build.make .property [Build.string f.1, Build.string f.2]).map
      Tree.pieces = fields.map fieldPieces := by
    rw [List.map_map]
    rfl
  have hnone : Span.none.startMark = [] ∧ Span.none.lastMark = [] := ⟨rfl, rfl⟩
  rw [Build.literal, properties_eq, Build.make, Tree.pieces_node, hfields]
  change Span.none.startMark ++ [Piece.text "\x7b"] ++ (if List.isEmpty _ then [] else _) ++
    Span.none.lastMark ++ [Piece.text "\x7d"] = _
  rw [hnone.1, hnone.2, List.nil_append, List.append_nil, List.isEmpty_map]

theorem chars_field (depth : Nat) (field : String × String) (ps : List Piece) :
    Piece.chars true depth (fieldPieces field ++ ps) =
      fieldLine (4 * depth) field ++ Piece.chars false depth ps := by
  have hcolon : ": ".toList = [':', ' '] := rfl
  rw [fieldPieces, fieldLine, List.cons_append, List.cons_append, List.singleton_append,
    Piece.chars_ofList_blank depth (encode_ne_nil _), Piece.chars_text, Piece.chars_ofList, hcolon]
  simp only [List.append_assoc, List.cons_append, List.nil_append]

theorem chars_fields (depth : Nat) (field : String × String) (fields : List (String × String))
    (ps : List Piece) :
    Piece.chars true depth
        (Printer.between [Piece.text ",", .newline] ((field :: fields).map fieldPieces) ++ ps) =
      fieldLines (4 * depth) (field :: fields) ++ Piece.chars false depth ps := by
  induction fields generalizing field with
  | nil => exact chars_field depth field ps
  | cons next fields ih =>
      have hcomma : ∀ qs, Piece.chars false depth ([Piece.text ",", .newline] ++ qs) =
          ',' :: '\n' :: Piece.chars true depth qs := fun _ => rfl
      have hbetween : Printer.between [Piece.text ",", .newline]
          ((field :: next :: fields).map fieldPieces) = fieldPieces field ++
            ([Piece.text ",", .newline] ++
              Printer.between [Piece.text ",", .newline] ((next :: fields).map fieldPieces)) :=
        List.append_assoc _ _ _
      rw [hbetween, List.append_assoc, List.append_assoc, chars_field, hcomma, ih]
      simp only [fieldLines, List.append_assoc, List.cons_append]

theorem chars_value (depth : Nat) (kind : DirectiveKind) (ps : List Piece) :
    Piece.chars false depth (kind.value.pieces ++ ps) =
      kind.valueText depth ++ Piece.chars false depth ps := by
  cases kind with
  | synonym name definition =>
      rw [value, pieces_string, List.singleton_append, Piece.chars_ofList]
      rfl
  | instances name => exact Piece.chars_text depth name ps
  | choice name fields =>
      rw [value, pieces_object]
      cases fields with
      | nil => exact Piece.chars_text depth "\x7b" _
      | cons field fields =>
          have hinside := chars_fields (depth + 1) field fields
            ([Piece.dedent, .newline] ++ .text "\x7d" :: ps)
          have hclose : ∀ qs, Piece.chars false (depth + 1) ([Piece.dedent, .newline] ++ qs) =
              '\n' :: Piece.chars true depth qs := fun _ => rfl
          have hopen : ∀ qs, Piece.chars false depth
              ([Piece.text "\x7b", .newline, .indent] ++ qs) =
                '\x7b' :: '\n' :: Piece.chars true (depth + 1) qs := fun _ => rfl
          have hpieces : [Piece.text "\x7b"] ++ (if (field :: fields).isEmpty then []
              else Printer.deeper [Piece.text ",", .newline] ((field :: fields).map fieldPieces)) ++
                [Piece.text "\x7d"] ++ ps = [Piece.text "\x7b", .newline, .indent] ++
                  (Printer.between [Piece.text ",", .newline] ((field :: fields).map fieldPieces) ++
                    ([Piece.dedent, .newline] ++ .text "\x7d" :: ps)) := by
            simp [Printer.deeper]
          rw [hpieces, hopen, hinside, hclose, Piece.chars_text_of_ne (by decide), Piece.margin,
            if_pos rfl]
          simp [valueText]

theorem chars_callee (checker method : String) (isBlank : Bool) (depth : Nat) (ps : List Piece) :
    Piece.chars isBlank depth ((Build.member (Build.lookup checker) method).pieces ++ ps) =
      Piece.chars isBlank depth (Build.member (Build.lookup checker) method).pieces ++
        Piece.chars false depth ps := by
  have htexts := Build.exists_text_of_mem_lookup checker
  have hpoint : Printer.point (Build.lookup checker) ≠ "" := by
    unfold Printer.point
    split
    next => split <;> decide
    next => decide
  have hmember : ∀ qs, Piece.chars isBlank depth
      ((Build.lookup checker).pieces ++
        .text (Printer.point (Build.lookup checker)) :: .text method :: qs) =
      Piece.chars isBlank depth
        ((Build.lookup checker).pieces ++ [Piece.text (Printer.point (Build.lookup checker))]) ++
        (method.toList ++ Piece.chars false depth qs) := by
    intro qs
    rw [Piece.chars_texts htexts isBlank depth hpoint, Piece.chars_text]
  have hnil : Piece.chars false depth [] = [] := rfl
  rw [Build.pieces_member, List.append_assoc, List.cons_append, List.cons_append, List.nil_append,
    hmember, hmember, hnil, List.append_nil, List.append_assoc]

/-- A statement for a directive stands on lines of its own: the member of the checker, and the
arguments in parentheses. -/
theorem chars_statement_of_checker (d : Directive) (checker : String) (isBlank : Bool) (depth : Nat)
    (ps : List Piece) :
    Piece.chars isBlank depth ((d.statement checker).pieces ++ ps) =
      Piece.chars isBlank depth (Build.member (Build.lookup checker) d.kind.method).pieces ++
        '(' :: (d.kind.argumentText depth ++
          (");".toList ++ '\n' :: Piece.chars true depth ps)) := by
  have hargs : Printer.commas (d.kind.arguments.map Tree.pieces) =
      [Piece.text (String.ofList (encode d.kind.name.toList)), .text ", "] ++
        d.kind.value.pieces := by
    rw [arguments_eq]
    rfl
  have hend : Piece.chars false depth (.newline :: ps) = '\n' :: Piece.chars true depth ps := rfl
  have hcomma : ", ".toList = [',', ' '] := rfl
  rw [Directive.statement, Tree.pieces_node, List.map_singleton, Build.pieces_call, hargs]
  change Piece.chars isBlank depth
    (Printer.commented d.span (_ ++ [Piece.text ";"]) ++ [Piece.newline] ++ ps) = _
  rw [List.append_assoc, Piece.chars_commented]
  simp only [List.append_assoc, List.cons_append, List.nil_append]
  rw [chars_callee, Piece.chars_text, Piece.chars_ofList, Piece.chars_text, chars_value,
    Piece.chars_text, Piece.chars_text, hend, argumentText, hcomma]
  simp only [List.append_assoc, List.cons_append, List.nil_append]
  rfl

/-- The statement for a directive with the path of the checker that is the default. -/
theorem printsAs_statement (d : Directive) (isBlank : Bool) (depth : Nat) :
    (d.statement "global.__typify").PrintsAs isBlank depth
      (Piece.margin isBlank depth ++ d.kind.line depth ++ ['\n']) true := by
  intro ps
  have hcallee : Piece.chars isBlank depth
      (Build.member (Build.lookup "global.__typify") d.kind.method).pieces =
        Piece.margin isBlank depth ++ ("global".toList ++ ('.' :: ("__typify".toList ++
          ('.' :: d.kind.method.toList)))) := by
    have hpoint : Printer.point (Build.lookup "global.__typify") = "." := by
      rw [Build.lookup, splitOn_checker]
      rfl
    have hnil : Piece.chars false depth [] = [] := rfl
    rw [Build.pieces_member, Build.pieces_lookup_checker, hpoint]
    simp only [List.cons_append, List.nil_append]
    rw [Piece.chars_text_of_ne (by decide)]
    simp only [Piece.chars_text, hnil, List.append_nil]
    rfl
  rw [chars_statement_of_checker, hcallee]
  unfold line
  simp

section Tokens

/-- The string literal of a text. -/
def quoted (text : String) : String :=
  String.ofList (encode text.toList)

/-- The tokens of the second argument of the call for a directive. -/
def valueTokens : DirectiveKind → List (TokenKind × Bool)
  | .synonym _ definition => [(.string (quoted definition), false)]
  | .instances name => [(.word name false, false)]
  | .choice _ fields => Rule.objectTokens (fields.map fun f => (quoted f.1, quoted f.2))

variable {tail rest : List Char} {ks : List (TokenKind × Bool)} {depth margin : Nat}

theorem lexed_field {field : String × String} (hname : isReadable field.1 = true)
    (htype : isReadable field.2 = true) (h : LexedUpTo tail false rest ks) (margin : Nat) :
    LexedUpTo tail true (fieldLine margin field ++ rest)
      (Rule.fieldTokens (quoted field.1, quoted field.2) ++ ks) := by
  rw [fieldLine, List.append_assoc, List.append_assoc]
  refine LexedUpTo.blanks margin (.literal hname ?_)
  exact .mark (by decide) (.blank (.literal htype h))

theorem lexed_fields {field : String × String} {fields : List (String × String)}
    (hfields : ∀ f ∈ field :: fields, isReadable f.1 = true ∧ isReadable f.2 = true)
    (h : LexedUpTo tail false rest ks) (margin : Nat) :
    LexedUpTo tail true (fieldLines margin (field :: fields) ++ rest)
      (Rule.commaTokens (((field :: fields).map fun f => (quoted f.1, quoted f.2)).map
        Rule.fieldTokens) ++ ks) := by
  induction fields generalizing field with
  | nil =>
      rw [List.forall_mem_cons] at hfields
      exact lexed_field hfields.1.1 hfields.1.2 h margin
  | cons next fields ih =>
      rw [List.forall_mem_cons] at hfields
      have hlines : fieldLines margin (field :: next :: fields) ++ rest =
          fieldLine margin field ++ (',' :: '\n' :: (fieldLines margin (next :: fields) ++ rest)) :=
        List.append_assoc _ _ _
      have htokens : Rule.commaTokens (((field :: next :: fields).map fun f =>
          (quoted f.1, quoted f.2)).map Rule.fieldTokens) ++ ks =
          Rule.fieldTokens (quoted field.1, quoted field.2) ++ ((.punctuator ",", false) ::
            (Rule.commaTokens (((next :: fields).map fun f => (quoted f.1, quoted f.2)).map
              Rule.fieldTokens) ++ ks)) :=
        List.append_assoc _ _ _
      rw [hlines, htokens]
      refine lexed_field hfields.1.1 hfields.1.2 (.mark (by decide) (.line ?_)) margin
      exact ih hfields.2

theorem lexed_object {fields : List (String × String)}
    (hfields : ∀ f ∈ fields, isReadable f.1 = true ∧ isReadable f.2 = true)
    (h : LexedUpTo tail false rest ks) (name : String) (depth : Nat) :
    LexedUpTo tail false ((choice name fields).valueText depth ++ rest)
      ((choice name fields).valueTokens ++ ks) := by
  cases fields with
  | nil => exact .mark (by decide) (.mark (by decide) h)
  | cons field fields =>
      have htext : (choice name (field :: fields)).valueText depth ++ rest =
          '\x7b' :: '\n' :: (fieldLines (4 * (depth + 1)) (field :: fields) ++
            ('\n' :: (List.replicate (4 * depth) ' ' ++ '\x7d' :: rest))) := by
        simp [valueText]
      have htokens : (choice name (field :: fields)).valueTokens ++ ks =
          (.punctuator "\x7b", false) :: (Rule.commaTokens (((field :: fields).map fun f =>
            (quoted f.1, quoted f.2)).map Rule.fieldTokens) ++
              ((.punctuator "\x7d", true) :: ks)) := by
        simp [valueTokens, Rule.objectTokens]
      rw [htext, htokens]
      refine .mark (by decide) (.line (lexed_fields hfields ?_ _))
      exact .line (LexedUpTo.blanks _ (.mark (by decide) h))

/-- The texts that can hold anything: the definition, or the types of the fields. -/
def types : DirectiveKind → List String
  | .synonym _ definition => [definition]
  | .instances _ => []
  | .choice _ fields => fields.map Prod.snd

theorem lexed_value {kind : DirectiveKind} {cs : List Char} (hkind : kind.IsOf cs)
    (htypes : ∀ text ∈ kind.types, isReadable text = true) (hrest : Token.EndsWord rest)
    (h : LexedUpTo tail false rest ks) (depth : Nat) :
    LexedUpTo tail false (kind.valueText depth ++ rest) (kind.valueTokens ++ ks) := by
  cases kind with
  | synonym name definition => exact .literal (htypes definition (by simp [types])) h
  | instances name => exact .word hkind.isWord hrest h
  | choice name fields =>
      refine lexed_object (fun field hfield => ?_) h name depth
      exact ⟨(hkind.2 field hfield).1.isReadable, htypes field.2 (List.mem_map_of_mem hfield)⟩

theorem isName_of_isOf {kind : DirectiveKind} {cs : List Char} (h : kind.IsOf cs) :
    Directive.IsName kind.name := by
  cases kind with
  | synonym name definition => exact h.1
  | instances name => exact h
  | choice name fields => exact h.1

theorem isWord_method (kind : DirectiveKind) : Token.IsWord kind.method := by
  cases kind with
  | synonym name definition => exact Token.isWord_of_all rfl (by decide) (by decide)
  | instances name => exact Token.isWord_of_all rfl (by decide) (by decide)
  | choice name fields => exact Token.isWord_of_all rfl (by decide) (by decide)

/-- The tokens of the arguments of the call for a directive, and of the end of the statement. -/
def argumentTokens (kind : DirectiveKind) : List (TokenKind × Bool) :=
  (.string (quoted kind.name), false) :: (.punctuator ",", false) ::
    (kind.valueTokens ++ [(.punctuator ")", false), (.punctuator ";", false)])

/-- The printed arguments consist of their tokens. -/
theorem lexed_arguments {kind : DirectiveKind} {cs : List Char} (hkind : kind.IsOf cs)
    (htypes : ∀ text ∈ kind.types, isReadable text = true) (h : LexedUpTo tail false rest ks)
    (depth : Nat) :
    LexedUpTo tail false (kind.argumentText depth ++ (");".toList ++ rest))
      (kind.argumentTokens ++ ks) := by
  have htokens : kind.argumentTokens ++ ks = (.string (quoted kind.name), false) ::
      (.punctuator ",", false) ::
      (kind.valueTokens ++ (.punctuator ")", false) :: (.punctuator ";", false) :: ks) := by
    simp [argumentTokens]
  rw [argumentText, htokens, List.append_assoc, List.cons_append, List.cons_append]
  refine .literal (isName_of_isOf hkind).isReadable (.mark (by decide) (.blank ?_))
  refine lexed_value hkind htypes (Token.endsWord_cons (by decide) _) ?_ depth
  exact .mark (by decide) (.mark (by decide) h)

/-- The printed statement for a directive consists of its tokens. -/
theorem lexed_line {kind : DirectiveKind} {cs : List Char} (hkind : kind.IsOf cs)
    (htypes : ∀ text ∈ kind.types, isReadable text = true) (follow : List Char) (depth : Nat)
    (isBroken : Bool) :
    LexedUpTo follow isBroken (kind.line depth ++ follow)
      ((.word "global" false, isBroken) :: (Rule.pathTokens ["__typify", kind.method] ++
        (.punctuator "(", false) :: kind.argumentTokens)) := by
  have htext : kind.line depth ++ follow = "global".toList ++ ('.' :: ("__typify".toList ++ ('.' ::
      (kind.method.toList ++ ('(' :: (kind.argumentText depth ++ (");".toList ++ follow))))))) := by
    unfold line
    simp
  have hdone : LexedUpTo follow false follow [] := .done
  have hargs := lexed_arguments hkind htypes hdone depth
  rw [List.append_nil] at hargs
  rw [htext]
  refine .word Rule.isWord_global (Token.endsWord_cons (by decide) _)
    (.point (Rule.isWord_typify.head?_append _) ?_)
  refine .word Rule.isWord_typify (Token.endsWord_cons (by decide) _)
    (.point (kind.isWord_method.head?_append _) ?_)
  exact .word kind.isWord_method (Token.endsWord_cons (by decide) _) (.mark (by decide) hargs)

end Tokens

end DirectiveKind

namespace Rule

variable {pl : Place} {ctx : Context} {kind : DirectiveKind} {cs follow : List Char}
  {k : TokenKind} {n : Nat}

/-- The name in a directive for instances is not refused by the place. -/
def IsAllowed (pl : Place) : DirectiveKind → Prop
  | .instances name => pl.refuses name = false
  | _ => True

/-- The second argument of the call for a directive is an argument. -/
theorem takes_valueTokens (hkind : kind.IsOf cs)
    (htypes : ∀ text ∈ kind.types, Text.Quoted.isReadable text = true)
    (hallowed : IsAllowed pl kind) (hctx : ctx.Within pl) {ks : List (TokenKind × Bool)} :
    Takes (atDepth (n + 4) .assignment ctx)
      (kind.valueTokens ++ (.punctuator ")", false) :: ks, follow)
      ((.punctuator ")", false) :: ks, follow) (·.isUseStrict = false) := by
  have hend : IsClosing (.punctuator ")") := .inr (.inl rfl)
  cases kind with
  | synonym name definition =>
      have hdefinition : Text.Quoted.isReadable definition = true :=
        htypes definition (by simp [DirectiveKind.types])
      exact (takes_atDepth_string (isSound_encode hdefinition) Stream.heads_token hend).imp
        fun _ ht => ht.isUseStrict_eq
  | instances name => exact takes_word hctx hallowed Stream.heads_token
  | choice name fields =>
      refine (takes_atDepth_assignment Stream.heads_token (begins_brace ctx) Stream.heads_token hend
        (fun _ ht => ht) (takes_chain_end Stream.heads_token (.inl hend)
          (takes_primary_object ?_))).imp fun _ ht => ht.isUseStrict_eq
      rw [List.forall_mem_map]
      intro field hfield
      exact ⟨isSound_encode (hkind.2 field hfield).1.isReadable,
        isSound_encode (htypes field.2 (List.mem_map_of_mem hfield))⟩

theorem exists_valueTokens_eq (kind : DirectiveKind) :
    ∃ k b ks, kind.valueTokens = (k, b) :: ks ∧ opensItem k = true := by
  cases kind with
  | synonym name definition => exact ⟨_, _, _, rfl, rfl⟩
  | instances name => exact ⟨_, _, _, rfl, rfl⟩
  | choice name fields => exact ⟨_, _, _, rfl, rfl⟩

/-- The arguments of the call for a directive are taken. -/
theorem takes_argumentTokens (hkind : kind.IsOf cs)
    (htypes : ∀ text ∈ kind.types, Text.Quoted.isReadable text = true)
    (hallowed : IsAllowed pl kind) (hctx : ctx.Within pl) :
    Takes (arguments (atDepth (n + 4)) ctx)
      ((.punctuator "(", false) :: kind.argumentTokens, follow) ([(.punctuator ";", false)], follow)
      fun _ => True := by
  have hname : IsSound (DirectiveKind.quoted kind.name) :=
    isSound_encode (DirectiveKind.isName_of_isOf hkind).isReadable
  have hvalue : Takes (atDepth (n + 4) .assignment ctx.withIn)
      (kind.valueTokens ++ [(.punctuator ")", false), (.punctuator ";", false)], follow)
      ([(.punctuator ")", false), (.punctuator ";", false)], follow) (·.isUseStrict = false) :=
    takes_valueTokens hkind htypes hallowed hctx.withIn
  obtain ⟨k, b, ks, heq, hopen⟩ := exists_valueTokens_eq kind
  rw [DirectiveKind.argumentTokens]
  rw [heq] at hvalue ⊢
  exact takes_arguments_pair Stream.heads_token rfl
    (takes_atDepth_string hname Stream.heads_token (.inl rfl)) Stream.heads_token hopen hvalue
    Stream.heads_token (takes_expect ")")

/-- The call for a directive is a statement. -/
theorem readsStatement_line (hkind : kind.IsOf cs)
    (htypes : ∀ text ∈ kind.types, Text.Quoted.isReadable text = true)
    (hallowed : IsAllowed pl kind) (depth : Nat) :
    ReadsStatement (·.Within pl) (kind.line depth) := by
  have hlexed : ∀ follow isBroken, LexedUpTo follow isBroken (kind.line depth ++ follow)
      ((.word "global" false, isBroken) :: (pathTokens ["__typify", kind.method] ++
        (.punctuator "(", false) :: kind.argumentTokens)) :=
    fun follow => DirectiveKind.lexed_line hkind htypes follow depth
  constructor
  · intro follow k hfollow _
    exact ⟨_, .of_lexed (fun isBroken => ⟨_, hlexed follow isBroken⟩) hfollow, rfl⟩
  · intro follow k hfollow _ ctx n hctx hn
    obtain ⟨n, rfl⟩ : ∃ m, n = m + 8 := ⟨n - 8, by omega⟩
    refine Takes.of_lexed (hlexed follow) hfollow fun isBroken => ?_
    have hend : IsClosing (.punctuator ";") := .inr (.inr (.inr rfl))
    have hargs : Takes (arguments (atDepth (n + 4)) ctx.withIn)
        ((.punctuator "(", false) :: kind.argumentTokens, follow)
        ([(.punctuator ";", false)], follow) fun _ => True :=
      takes_argumentTokens hkind htypes hallowed hctx.withIn
    have hnames : ["__typify", kind.method] ≠ [] := by simp
    have hcall := takes_chain_checker hnames hargs Stream.heads_token (.inl hend) isBroken
    have hassignment := takes_atDepth_assignment Stream.heads_token
      (begins_variable (isVariable_global ctx.withIn)) Stream.heads_token hend
      (fun t (ht : t.form = .call) => .of_form ht rfl) hcall
    exact takes_statement_name (by decide) (takes_expressionStatement
      (takes_expression hassignment Stream.heads_token rfl) takes_endStatement
      fun e he text => by simp [he])

end Rule

namespace Directive

/-- The statement for a directive is a statement in every place that does not refuse the name in
it. -/
theorem isStatement {pl : Place} {d : Directive} {cs : List Char} (hkind : d.kind.IsOf cs)
    (htypes : ∀ text ∈ d.kind.types, Text.Quoted.isReadable text = true)
    (hallowed : Rule.IsAllowed pl d.kind) :
    (d.statement "global.__typify").IsStatement pl := by
  intro isBlank depth
  refine ⟨_, DirectiveKind.printsAs_statement d isBlank depth, rfl, ?_,
    Rule.readsStatement_line hkind htypes hallowed depth⟩
  rw [DirectiveKind.getLast?_line]
  simp

end Directive

end Contracts
