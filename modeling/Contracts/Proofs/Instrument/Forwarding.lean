import Contracts.Proofs.Directive.Printing
import Contracts.Proofs.Wrap.Labels

/-!
# What reaches the checker

The texts that a script hands to the checker come from its comments: definitions and types of
fields in the calls for directives, and signatures in the labels of checked functions. Each of them
is printed as one string literal. `Passed.ofTokens?` reads the arguments of a printed call back,
with the units that its literals denote.

All of this gives the texts back just if none of them has a backslash that starts the escape of half
a surrogate pair; the names in front are never in the way.
-/

namespace Contracts

open Text.Quoted (hasHalfEscape)

namespace Text.Quoted

/-- The string literal denotes the text. -/
def Denotes (literal text : String) : Prop :=
  decode? literal.toList = some (units text.toList)

instance (literal text : String) : Decidable (Denotes literal text) :=
  inferInstanceAs (Decidable (_ = _))

end Text.Quoted

open Text.Quoted (Denotes)

/-- What is read from the arguments of a call for a directive. Texts are given by their units. -/
inductive Passed where
  | definition (name text : List Nat)
  | value (name : List Nat) (word : String)
  | fields (name : List Nat) (fields : List (List Nat × List Nat))
  deriving DecidableEq, Repr

namespace Passed

def literal? (text : String) : Option (List Nat) :=
  Text.Quoted.decode? text.toList

/-- The fields of an object, from the tokens between its opening brace and the end of the call. -/
def fields? : List TokenKind → Option (List (List Nat × List Nat))
  | [.punctuator "\x7d", .punctuator ")", .punctuator ";"] => some []
  | [.string name, .punctuator ":", .string type, .punctuator "\x7d", .punctuator ")",
      .punctuator ";"] => do
    return [(← literal? name, ← literal? type)]
  | .string name :: .punctuator ":" :: .string type :: .punctuator "," :: ks => do
    return (← literal? name, ← literal? type) :: (← fields? ks)
  | _ => none

/-- What is passed on, from the tokens between the opening parenthesis of a call and the end of its
statement. -/
def ofTokens? : List TokenKind → Option Passed
  | [.string name, .punctuator ",", .string text, .punctuator ")", .punctuator ";"] => do
    return .definition (← literal? name) (← literal? text)
  | [.string name, .punctuator ",", .word text false, .punctuator ")", .punctuator ";"] => do
    return .value (← literal? name) text
  | .string name :: .punctuator "," :: .punctuator "\x7b" :: ks => do
    return .fields (← literal? name) (← fields? ks)
  | _ => none

end Passed

namespace DirectiveKind

/-- What a directive is to pass on. -/
def passed : DirectiveKind → Passed
  | .synonym name definition =>
    .definition (Text.units name.toList) (Text.units definition.toList)
  | .instances name => .value (Text.units name.toList) name
  | .choice name fields =>
    .fields (Text.units name.toList)
      (fields.map fun f => (Text.units f.1.toList, Text.units f.2.toList))

/-- The literal of a text denotes it, unless the text has the escape of half a surrogate pair. -/
theorem denotes_quoted_iff (text : String) :
    Denotes (quoted text) text ↔ hasHalfEscape text.toList = false := by
  rw [Denotes, quoted, String.toList_ofList]
  exact Text.Quoted.decode?_encode_iff text.toList

theorem literal?_quoted {text : String} (h : hasHalfEscape text.toList = false) :
    Passed.literal? (quoted text) = some (Text.units text.toList) :=
  (denotes_quoted_iff text).mpr h

/-- The tokens of fields are read back one after the other. -/
theorem fields?_tokens {field : String × String} {fields : List (String × String)}
    (h : ∀ f ∈ field :: fields,
      hasHalfEscape f.1.toList = false ∧ hasHalfEscape f.2.toList = false) :
    Passed.fields? ((Rule.commaTokens (((field :: fields).map fun f =>
        (quoted f.1, quoted f.2)).map Rule.fieldTokens)).map Prod.fst ++
        [.punctuator "\x7d", .punctuator ")", .punctuator ";"]) =
      some ((field :: fields).map fun f => (Text.units f.1.toList, Text.units f.2.toList)) := by
  induction fields generalizing field with
  | nil =>
      rw [List.forall_mem_cons] at h
      simp [Rule.commaTokens, Rule.fieldTokens, Passed.fields?, literal?_quoted h.1.1,
        literal?_quoted h.1.2]
  | cons next fields ih =>
      rw [List.forall_mem_cons] at h
      have htokens : (Rule.commaTokens (((field :: next :: fields).map fun f =>
          (quoted f.1, quoted f.2)).map Rule.fieldTokens)).map Prod.fst =
          .string (quoted field.1) :: .punctuator ":" :: .string (quoted field.2) ::
            .punctuator "," :: (Rule.commaTokens (((next :: fields).map fun f =>
              (quoted f.1, quoted f.2)).map Rule.fieldTokens)).map Prod.fst := by
        simp [Rule.commaTokens, Rule.fieldTokens]
      rw [htokens]
      simp only [List.cons_append, Passed.fields?, literal?_quoted h.1.1, literal?_quoted h.1.2,
        ih h.2]
      rfl

/-- The arguments of the call for a directive are read back. -/
theorem ofTokens?_argumentTokens {kind : DirectiveKind} {cs : List Char} (hkind : kind.IsOf cs)
    (htypes : ∀ text ∈ kind.types, hasHalfEscape text.toList = false) :
    Passed.ofTokens? (kind.argumentTokens.map Prod.fst) = some kind.passed := by
  have hname := literal?_quoted (isName_of_isOf hkind).not_hasHalfEscape
  cases kind with
  | synonym name definition =>
      have hdefinition := literal?_quoted (htypes definition (by simp [types]))
      simp only [argumentTokens, valueTokens, List.cons_append, List.nil_append, List.map_cons,
        List.map_nil, Passed.ofTokens?, hname, hdefinition]
      rfl
  | instances name =>
      simp only [argumentTokens, valueTokens, List.cons_append, List.nil_append, List.map_cons,
        List.map_nil, Passed.ofTokens?, hname]
      rfl
  | choice name fields =>
      have hfields : Passed.fields? ((Rule.commaTokens ((fields.map fun f =>
          (quoted f.1, quoted f.2)).map Rule.fieldTokens)).map Prod.fst ++
          [.punctuator "\x7d", .punctuator ")", .punctuator ";"]) =
          some (fields.map fun f => (Text.units f.1.toList, Text.units f.2.toList)) := by
        cases fields with
        | nil => rfl
        | cons field fields =>
            refine fields?_tokens fun f hf => ⟨(hkind.2 f hf).1.not_hasHalfEscape, ?_⟩
            exact htypes f.2 (List.mem_map_of_mem hf)
      have htokens : (choice name fields).argumentTokens.map Prod.fst =
          .string (quoted name) :: .punctuator "," :: .punctuator "\x7b" ::
            ((Rule.commaTokens ((fields.map fun f =>
              (quoted f.1, quoted f.2)).map Rule.fieldTokens)).map Prod.fst ++
              [.punctuator "\x7d", .punctuator ")", .punctuator ";"]) := by
        simp [argumentTokens, valueTokens, Rule.objectTokens, DirectiveKind.name]
      have hchoice : Passed.literal? (quoted name) = some (Text.units name.toList) := hname
      rw [htokens]
      simp only [Passed.ofTokens?, hchoice, hfields]
      rfl

end DirectiveKind

/-- The code of the statement for a directive alone. -/
theorem Directive.code_statement (d : Directive) (checker : String) (source : Source)
    (comments : List Comment) (sourceMap : Bool) :
    ((Build.script [d.statement checker]).generate source comments ⟨false, sourceMap⟩).code =
      String.ofList (Piece.chars true 0
        (Build.member (Build.lookup checker) d.kind.method).pieces ++
          '(' :: (d.kind.argumentText 0 ++ ");".toList)) := by
  have hpieces : (Build.script [d.statement checker]).pieces =
      .leading 0 :: ((d.statement checker).pieces ++ []) := rfl
  have hnil : Piece.chars true 0 [] = [] := rfl
  have hend : ∀ cs ds : List Char, cs ++ '(' :: (ds ++ (");".toList ++ ['\n'])) =
      cs ++ '(' :: (ds ++ [')']) ++ [';'] ++ ['\n'] := by
    simp
  rw [Script.code_generate, hpieces, Piece.chars, DirectiveKind.chars_statement_of_checker, hnil,
    hend, List.rdropWhile_concat_pos _ _ _ (by decide),
    List.rdropWhile_concat_neg _ _ _ (by decide)]
  simp

/-- A check is printed as a call with the literal of its label in front. -/
theorem Wrap.pieces_handed (config : Config) (label : String) (function : Tree) :
    (handed config label function).pieces =
      (callee config).pieces ++ [.text "(", .text (DirectiveKind.quoted label), .text ", "] ++
        function.pieces ++ [.text ")"] := by
  rw [handed, Build.pieces_call]
  simp [Printer.commas, Printer.between, DirectiveKind.pieces_string, DirectiveKind.quoted]

/-- Texts reach the checker as they are, as long as no backslash in them starts the escape of half
a surrogate pair: the literal of any text denotes it just then; the arguments of the printed call
for a directive are read back as its name and its definition, or its fields in their order; and a
function with a signature is handed over with a literal for the label made of its name and its
signature. -/
theorem forwarded_verbatim (config : Config) (source : Source) (comments : List Comment) :
    (∀ text : String, (Build.string text).pieces = [.text (DirectiveKind.quoted text)] ∧
      (Denotes (DirectiveKind.quoted text) text ↔ hasHalfEscape text.toList = false)) ∧
    (∀ (cs : List Char) (span : Span) (d : Directive), Directive.read cs span = .ok (some d) →
      (∀ text ∈ d.kind.types, hasHalfEscape text.toList = false) →
      ∃ rest ks, ((Build.script [d.statement config.checker]).generate source comments
          ⟨false, config.sourceMap⟩).code =
          String.ofList (Piece.chars true 0
            (Build.member (Build.lookup config.checker) d.kind.method).pieces ++ '(' :: rest) ∧
        Lexed false rest ks ∧ Passed.ofTokens? (ks.map Prod.fst) = some d.kind.passed) ∧
    (∀ (script : Script) (n : Tree) (kind : SiteKind) (position : Nat) (signature : String),
      n ∈ script.nodes → n.site? = some (kind, position) →
      Wrap.signature? comments position = some signature →
      ∃ h, n.handover? = some h ∧
        let label := h.label signature
        let check := Wrap.handed config label (Wrap.wrapped config comments h.function)
        check ∈ (script.wrapFunctions comments config .standard).1.nodes ∧
        check.pieces = (Wrap.callee config).pieces ++
          [.text "(", .text (DirectiveKind.quoted label), .text ", "] ++
            (Wrap.wrapped config comments h.function).pieces ++ [.text ")"] ∧
        (Denotes (DirectiveKind.quoted label) label ↔ hasHalfEscape label.toList = false)) := by
  refine ⟨fun text => ⟨rfl, DirectiveKind.denotes_quoted_iff text⟩, ?_, ?_⟩
  · intro cs span d hread htypes
    have hkind := Directive.isOf_of_read hread
    have hreadable : ∀ text ∈ d.kind.types, Text.Quoted.isReadable text = true := fun text htext =>
      Text.Quoted.isReadable_of_not_hasHalfEscape (htypes text htext)
    have hdone : Lexed false [] [] := .done
    have hlexed := DirectiveKind.lexed_arguments hkind hreadable hdone 0
    rw [List.append_nil, List.append_nil] at hlexed
    exact ⟨_, _, d.code_statement config.checker source comments config.sourceMap, hlexed,
      DirectiveKind.ofTokens?_argumentTokens hkind htypes⟩
  · intro script n kind position signature hn hsite hsignature
    obtain ⟨h, hh, rfl⟩ := Tree.exists_handover? hsite
    exact ⟨h, hh, Script.handed_mem_nodes_wrapFunctions hn hh hsignature,
      Wrap.pieces_handed config _ _, DirectiveKind.denotes_quoted_iff _⟩

/-- Quotes, backslashes and what looks like an escape come back from the types of fields. -/
theorem forwarded_verbatim_fields :
    let text := "typify: adt T\n a: \\d \"b\"\n c: '\\u0041'"
    let checker := Config.default.checker
    ∃ d rest ks, Directive.read text.toList Span.none = .ok (some d) ∧
      ((Build.script [d.statement checker]).generate (Source.ofContents "a.js" "") []
        .default).code = String.ofList (Piece.chars true 0
          (Build.member (Build.lookup checker) d.kind.method).pieces ++ '(' :: rest) ∧
      Lexed false rest ks ∧ Passed.ofTokens? (ks.map Prod.fst) =
        some (.fields [84] [([97], [92, 100, 32, 34, 98, 34]),
          ([99], [39, 92, 117, 48, 48, 52, 49, 39])]) := by
  intro text checker
  have hread : Directive.read text.toList Span.none =
      .ok (some ⟨.choice "T" [("a", "\\d \"b\""), ("c", "'\\u0041'")], Span.none⟩) := by
    decide +kernel
  obtain ⟨-, hforwarded, -⟩ := forwarded_verbatim .default (Source.ofContents "a.js" "") []
  obtain ⟨rest, ks, hcode, hlexed, hpassed⟩ := hforwarded _ _ _ hread (by decide)
  exact ⟨_, rest, ks, hread, hcode, hlexed, hpassed⟩

/-- A definition that looks like half of a surrogate pair is passed on as this half. -/
theorem not_forwarded_half :
    ∃ d, Directive.read "typify: type A = \\uD800".toList Span.none = .ok (some d) ∧
      d.kind = .synonym "A" "\\uD800" ∧
      Passed.ofTokens? (d.kind.argumentTokens.map Prod.fst) = some (.definition [65] [0xD800]) ∧
      ¬ Denotes (DirectiveKind.quoted "\\uD800") "\\uD800" :=
  ⟨⟨.synonym "A" "\\uD800", Span.none⟩, rfl, rfl, by decide, by decide⟩

end Contracts
