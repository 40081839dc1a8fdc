import Contracts.Proofs.Layout.Lines
import Contracts.Proofs.Syntax.Forwarders
import Contracts.Proofs.Wrap.Step

/-!
# What printed trees are read as

`Tree.PrintsAs` gives the text that a tree is printed as, whatever is printed behind
it. A tree is a statement, a value or an argument in a place if this text is read as
one there, at every indentation.

The call that hands a function to the checker is a value wherever the function is an
argument, and the declaration that forwards to the checked function is a statement.
-/

namespace Contracts

namespace Tree

theorem pieces_node (f : Form) (s : Span) (cs : List Tree) :
    (node f s cs).pieces = Printer.nodePieces f s cs (cs.map pieces) :=
  fold_node _ f s cs

/-- The text of a tree on a line that is still empty or not, and whether the line is empty behind
it. -/
def PrintsAs (t : Tree) (isBlank : Bool) (depth : Nat) (cs : List Char) (isBlank' : Bool) : Prop :=
  ∀ ps, Piece.chars isBlank depth (t.pieces ++ ps) = cs ++ Piece.chars isBlank' depth ps

/-- The tree is printed as a statement of the place, with a word at its beginning and a line feed
behind it. -/
def IsStatement (pl : Place) (t : Tree) : Prop :=
  ∀ isBlank depth, ∃ cs,
    t.PrintsAs isBlank depth (Piece.margin isBlank depth ++ cs ++ ['\n']) true ∧
      cs.head?.any Token.isNameStart = true ∧ cs.getLast? ≠ some '\n' ∧
      Rule.ReadsStatement (·.Within pl) cs

/-- The tree is there, and printed as a value of the place with a word at its beginning. -/
def IsValue (pl : Place) (t : Tree) : Prop :=
  t.isAbsent = false ∧ ∀ depth, ∃ cs, t.PrintsAs false depth cs false ∧
    cs.head?.any Token.isNameStart = true ∧ Rule.ReadsValue pl cs

/-- The tree is printed as an argument of the place. -/
def IsArgument (pl : Place) (t : Tree) : Prop :=
  ∀ depth, ∃ cs, t.PrintsAs false depth cs false ∧ Rule.ReadsArgument pl cs

end Tree

namespace Build

theorem pieces_member (object : Tree) (property : String) :
    (member object property).pieces =
      object.pieces ++ [Piece.text (Printer.point object), .text property] := by
  rw [member, make, Tree.pieces_node]
  change [] ++ object.pieces ++ [Piece.text (Printer.point object)] ++ [Piece.text property] ++
    [] = _
  simp

theorem pieces_call (function : Tree) (args : List Tree) :
    (call function args).pieces =
      function.pieces ++ [Piece.text "("] ++ Printer.commas (args.map Tree.pieces) ++
        [Piece.text ")"] := by
  rw [call, make, Tree.pieces_node]
  rfl

end Build

theorem splitOnAux_skip {s : String} {b i : String.Pos.Raw} {parts : List String}
    (hend : i.atEnd s = false) (hget : (i.get s == '.') = false) :
    s.splitOnAux "." b i 0 parts = s.splitOnAux "." b (i.next s) 0 parts := by
  have hpoint : String.Pos.Raw.get "." 0 = '.' := by
    decide
  rw [String.splitOnAux, if_neg (by simp [hend]), hpoint, if_neg (by simp [hget])]
  rfl

/-- The path of the checker has six letters before its point and eight after it. -/
theorem splitOn_checker : "global.__typify".splitOn "." = ["global", "__typify"] := by
  rw [String.splitOn, if_neg (by decide)]
  iterate 6 rw [splitOnAux_skip (by decide) (by decide)]
  rw [String.splitOnAux, if_neg (by decide), if_pos (by decide), if_pos (by decide)]
  iterate 8 rw [splitOnAux_skip (by decide) (by decide)]
  rw [String.splitOnAux, if_pos (by decide)]
  decide

theorem Build.pieces_lookup_checker :
    (lookup "global.__typify").pieces = [Piece.text "global", .text ".", .text "__typify"] := by
  rw [lookup, splitOn_checker]
  rfl

namespace Piece

theorem chars_startMark (isBlank : Bool) (depth : Nat) (s : Span) (ps : List Piece) :
    chars isBlank depth (s.startMark ++ ps) = chars isBlank depth ps := by
  rw [Span.startMark]
  split <;> rfl

theorem chars_lastMark (isBlank : Bool) (depth : Nat) (s : Span) (ps : List Piece) :
    chars isBlank depth (s.lastMark ++ ps) = chars isBlank depth ps := by
  rw [Span.lastMark]
  split <;> rfl

theorem chars_text_of_ne {text : String} (h : text ≠ "") (isBlank : Bool) (depth : Nat)
    (ps : List Piece) :
    chars isBlank depth (.text text :: ps) =
      margin isBlank depth ++ (text.toList ++ chars false depth ps) := by
  rw [chars, if_neg (by simpa using h), List.append_assoc]

end Piece

namespace Tree

/-- Statements are printed as texts that end with a line each. -/
def PrintAsLines (depth : Nat) (ts : List Tree) (css : List (List Char)) : Prop :=
  List.Forall₂ (fun t cs => t.PrintsAs true depth cs true) ts css

theorem chars_lines {depth : Nat} {ts : List Tree} {css : List (List Char)}
    (h : PrintAsLines depth ts css) (ps : List Piece) :
    Piece.chars true depth (Printer.between [Piece.newline] (ts.map pieces) ++ ps) =
      css.flatten ++ Piece.chars true depth ps := by
  induction h with
  | nil => rfl
  | @cons t cs ts css ht hts ih =>
      cases ts with
      | nil =>
          cases hts
          simpa [Printer.between] using ht ps
      | cons u us =>
          have hbetween : Printer.between [Piece.newline] ((t :: u :: us).map pieces) ++ ps =
              t.pieces ++ (.newline ::
                (Printer.between [Piece.newline] ((u :: us).map pieces) ++ ps)) := by
            simp [Printer.between]
          have hnewline : ∀ qs, Piece.chars true depth (.newline :: qs) =
              Piece.chars true depth qs := fun _ => rfl
          rw [hbetween, ht, hnewline, ih, List.flatten_cons, List.append_assoc]

theorem pieces_block (s : Span) (ts : List Tree) :
    (node (.block false) s ts).pieces = s.startMark ++ ([Piece.text "\x7b"] ++
      ((if ts.isEmpty then [] else Printer.deeper [Piece.newline] (ts.map pieces)) ++
        (s.lastMark ++ [Piece.text "\x7d"]))) := by
  have hpieces : (node (.block false) s ts).pieces = s.startMark ++ [Piece.text "\x7b"] ++
      (if ts.isEmpty then [] else Printer.deeper [Piece.newline] (ts.map pieces)) ++ s.lastMark ++
        [Piece.text "\x7d"] := by
    rw [pieces_node]
    rfl
  rw [hpieces]
  simp only [List.append_assoc]

/-- The body of a function in print. -/
theorem chars_body {depth : Nat} {ts : List Tree} {css : List (List Char)}
    (h : PrintAsLines (depth + 1) ts css) (s : Span) (ps : List Piece) :
    Piece.chars false depth (Printer.bare (node (.block false) s ts).pieces ++ ps) =
      Rule.bodyText css (4 * depth) ++ Piece.chars false depth ps := by
  have hbare : ∀ qs, Printer.bare (s.startMark ++ .text "\x7b" :: qs) = .text "\x7b" :: qs := by
    intro qs
    rw [Span.startMark]
    split <;> rfl
  rw [pieces_block, List.singleton_append, hbare, List.cons_append, Piece.chars_text]
  cases h with
  | nil =>
      rw [List.isEmpty_nil, if_pos rfl, List.nil_append, List.append_assoc, Piece.chars_lastMark,
        List.singleton_append, Piece.chars_text]
      rfl
  | @cons t cs ts css ht hts =>
      have hlines := chars_lines (.cons ht hts)
      have hclose : ∀ qs, Piece.chars true (depth + 1) ([Piece.dedent, .newline] ++ qs) =
          Piece.chars true depth qs := fun _ => rfl
      have hopen : ∀ qs, Piece.chars false depth ([Piece.newline, .indent] ++ qs) =
          '\n' :: Piece.chars true (depth + 1) qs := fun _ => rfl
      rw [if_neg (by simp), Printer.deeper]
      simp only [List.append_assoc]
      rw [hopen, hlines, hclose, Piece.chars_lastMark, List.singleton_append,
        Piece.chars_text_of_ne (by decide)]
      simp [Rule.bodyText, Piece.margin]

/-- A function ends with the brace of its body. -/
theorem getLast?_declaration (name : String) (css : List (List Char)) (margin : Nat) :
    ("function".toList ++ (' ' :: (name.toList ++
      ("() ".toList ++ Rule.bodyText css margin)))).getLast? ≠ some '\n' := by
  obtain ⟨cs, hbody⟩ : ∃ cs, Rule.bodyText css margin = cs ++ ['\x7d'] := ⟨'\x7b' :: _, rfl⟩
  have htext : "function".toList ++ (' ' :: (name.toList ++
      ("() ".toList ++ Rule.bodyText css margin))) = "function".toList ++ [' '] ++
        name.toList ++ "() ".toList ++ cs ++ ['\x7d'] := by
    rw [hbody]
    simp only [List.append_assoc, List.cons_append, List.nil_append]
  rw [htext, List.getLast?_append]
  simp

/-- A function without parameters, from its keyword to the end of its line. -/
theorem printsAs_declaration {depth : Nat} {ts : List Tree} {css : List (List Char)}
    (h : PrintAsLines (depth + 1) ts css) (isBlank : Bool) (s r q b : Span) (name : String)
    (ds : List Tree) :
    (node (.functionDeclaration .plain) s
      [node (.name name) r ds, node .parameters q [], node (.block false) b ts]).PrintsAs
        isBlank depth (Piece.margin isBlank depth ++ ("function".toList ++ (' ' :: (name.toList ++
          ("() ".toList ++ Rule.bodyText css (4 * depth))))) ++ ['\n']) true := by
  intro ps
  have hpieces : (node (.functionDeclaration .plain) s
      [node (.name name) r ds, node .parameters q [], node (.block false) b ts]).pieces =
        Printer.commented s (s.startMark ++ [] ++ [Piece.text "function "] ++
          (r.startMark ++ [Piece.text name]) ++ [Piece.text "(", .text ")"] ++ [Piece.text " "] ++
            Printer.bare (node (.block false) b ts).pieces) ++ [Piece.newline] := by
    rw [pieces_node]
    rfl
  have hname : ∀ qs, Piece.chars false depth (r.startMark ++ (.text name :: qs)) =
      name.toList ++ Piece.chars false depth qs := by
    intro qs
    rw [Piece.chars_startMark, Piece.chars_text]
  have hend : Piece.chars false depth (.newline :: ps) = '\n' :: Piece.chars true depth ps := rfl
  rw [hpieces, List.append_assoc, Piece.chars_commented]
  simp only [List.append_assoc, List.nil_append, List.cons_append]
  rw [Piece.chars_startMark, Piece.chars_text_of_ne (by decide), hname]
  simp only [Piece.chars_text]
  rw [chars_body h, hend]
  rfl

/-- A function without a name and without parameters. -/
theorem printsAs_function {depth : Nat} {ts : List Tree} {css : List (List Char)}
    (h : PrintAsLines (depth + 1) ts css) (s q b : Span) :
    (node (.functionExpression .plain) s
      [absent, node .parameters q [], node (.block false) b ts]).PrintsAs false depth
        ("function".toList ++ ("() ".toList ++ Rule.bodyText css (4 * depth))) false := by
  intro ps
  have hpieces : (node (.functionExpression .plain) s
      [absent, node .parameters q [], node (.block false) b ts]).pieces =
        Printer.commented s (s.startMark ++ [] ++ [Piece.text "function"] ++ [] ++ [] ++
          [Piece.text "(", .text ")"] ++ [Piece.text " "] ++
            Printer.bare (node (.block false) b ts).pieces) := by
    rw [pieces_node]
    rfl
  rw [hpieces, Piece.chars_commented]
  simp only [List.append_assoc, List.nil_append, List.cons_append]
  rw [Piece.chars_startMark]
  simp only [Piece.chars_text]
  rw [chars_body h]
  rfl

/-- Statements of a place are printed as lines that are read there. -/
theorem exists_lines {pl : Place} {ts : List Tree} (h : ∀ t ∈ ts, t.IsStatement pl) (depth : Nat) :
    ∃ css, PrintAsLines depth ts css ∧ ∀ cs ∈ css, Rule.ReadsStatement (·.Within pl) cs := by
  induction ts with
  | nil => exact ⟨[], .nil, by simp⟩
  | cons t ts ih =>
      rw [List.forall_mem_cons] at h
      obtain ⟨cs, hprints, -, -, hreads⟩ := h.1 true depth
      obtain ⟨css, hlines, hcss⟩ := ih h.2
      exact ⟨_ :: css, .cons hprints hlines,
        List.forall_mem_cons.mpr ⟨(hreads.blanks (4 * depth)).line, hcss⟩⟩

section Functions

variable {pl : Place} {ts : List Tree} (h : ∀ t ∈ ts, t.IsStatement (pl.enter .plain))

include h

theorem isStatement_function {name : String} (hname : Token.IsWord name)
    (hreserved : name ∉ reservedWords) (hbinds : pl.binds name = true) (s r q b : Span)
    (ds : List Tree) :
    (node (.functionDeclaration .plain) s [node (.name name) r ds, node .parameters q [],
      node (.block false) b ts]).IsStatement pl := by
  intro isBlank depth
  obtain ⟨css, hlines, hcss⟩ := exists_lines h (depth + 1)
  exact ⟨_, printsAs_declaration hlines isBlank s r q b name ds, rfl,
    getLast?_declaration name css (4 * depth),
    Rule.readsStatement_function hname hreserved hbinds hcss (fun ctx hctx => hctx.enter .plain) _⟩

theorem isArgument_function (s q b : Span) :
    (node (.functionExpression .plain) s
      [absent, node .parameters q [], node (.block false) b ts]).IsArgument pl := by
  intro depth
  obtain ⟨css, hlines, hcss⟩ := exists_lines h (depth + 1)
  exact ⟨_, printsAs_function hlines s q b,
    Rule.readsArgument_function hcss (fun ctx hctx => hctx.enter .plain) _⟩

end Functions

end Tree

namespace Wrap

open Text.Quoted (encode isReadable)

variable {pl : Place} {function : Tree} {label name : String}

theorem pieces_handed_default (label : String) (function : Tree) (ps : List Piece) :
    (handed .default label function).pieces ++ ps =
      .text "global" :: .text "." :: .text "__typify" :: .text "(" ::
        .text (String.ofList (encode label.toList)) :: .text ", " ::
          (function.pieces ++ .text ")" :: ps) := by
  have hcallee : (callee .default).pieces = [Piece.text "global", .text ".", .text "__typify"] :=
    Build.pieces_lookup_checker
  have hstring : (Build.string label).pieces =
      [Piece.text (String.ofList (encode label.toList))] := rfl
  rw [handed, Build.pieces_call, hcallee, List.map_cons, List.map_singleton, hstring]
  simp [Printer.commas, Printer.between]

theorem printsAs_handed {depth : Nat} {cs : List Char}
    (h : function.PrintsAs false depth cs false) :
    (handed .default label function).PrintsAs false depth (Rule.handedText label cs) false := by
  intro ps
  rw [pieces_handed_default, Rule.handedText_append]
  simp only [Piece.chars_text, String.toList_ofList, h (.text ")" :: ps)]
  rfl

/-- The call that hands a function over is a value. -/
theorem isValue_handed (hlabel : isReadable label = true) (h : function.IsArgument pl) :
    (handed .default label function).IsValue pl := by
  refine ⟨rfl, fun depth => ?_⟩
  obtain ⟨cs, hprints, hreads⟩ := h depth
  exact ⟨_, printsAs_handed hprints, rfl, Rule.readsValue_handed hlabel hreads⟩

/-- The pieces of the property in which a function keeps what the checker gives. -/
def cachePieces (name : String) : List Piece :=
  [Piece.text name, .text ".", .text "__typify__"]

theorem pieces_fill (name : String) (checked : Tree) :
    let cache := Build.member (Build.identifier name) Config.default.cacheProperty
    (Build.expressionStatement (Build.assignment cache (Build.binary "||" cache checked))).pieces =
      cachePieces name ++ [Piece.text " = "] ++ cachePieces name ++ [Piece.text " || "] ++
        checked.pieces ++ [Piece.text ";", .newline] := by
  intro cache
  have hcache : cache.pieces = cachePieces name := rfl
  have hbinary : (Build.binary "||" cache checked).pieces =
      cache.pieces ++ [Piece.text " || "] ++ checked.pieces := by
    rw [Build.binary, Build.make, Tree.pieces_node]
    rfl
  have htarget : (Build.target cache).pieces = cache.pieces := rfl
  have hassignment : (Build.assignment cache (Build.binary "||" cache checked)).pieces =
      cache.pieces ++ [Piece.text " = "] ++ (Build.binary "||" cache checked).pieces := by
    rw [Build.assignment, Build.make, Tree.pieces_node, List.map_cons, List.map_singleton, htarget]
    rfl
  have hstatement : (Build.expressionStatement
      (Build.assignment cache (Build.binary "||" cache checked))).pieces =
        (Build.assignment cache (Build.binary "||" cache checked)).pieces ++ [Piece.text ";"] ++
          [Piece.newline] := by
    rw [Build.expressionStatement, Build.make, Tree.pieces_node, List.map_singleton]
    rfl
  rw [hstatement, hassignment, hbinary, hcache]
  simp

theorem pieces_forward (name : String) :
    let cache := Build.member (Build.identifier name) Config.default.cacheProperty
    (Build.returnStatement (some (Build.call (Build.member cache "apply")
      [Build.this, Build.identifier "arguments"]))).pieces =
      [Piece.text "return", .text " "] ++ cachePieces name ++
        [Piece.text ".", .text "apply", .text "(", .text "this", .text ", ", .text "arguments",
          .text ")", .text ";", .newline] := by
  intro cache
  have hcache : cache.pieces = cachePieces name := rfl
  have hpoint : Printer.point cache = "." := rfl
  have hargs : Printer.commas ([Build.this, Build.identifier "arguments"].map Tree.pieces) =
      [Piece.text "this", .text ", ", .text "arguments"] := rfl
  have hreturn : ∀ value : Tree, value.isAbsent = false →
      (Build.returnStatement (some value)).pieces =
        [Piece.text "return", .text " "] ++ value.pieces ++ [Piece.text ";", .newline] := by
    intro value hvalue
    rw [Build.returnStatement, Build.make, Tree.pieces_node]
    change [Piece.text "return"] ++ Printer.optional value ([Piece.text " "] ++ value.pieces) ++
      [Piece.text ";"] ++ [Piece.newline] = _
    rw [Printer.optional, hvalue]
    simp
  rw [hreturn _ rfl, Build.pieces_call, Build.pieces_member, hcache, hpoint, hargs]
  simp

/-- The lines in the body of a function that forwards to a checked one. -/
theorem printAsLines_forwarding (hname : name ≠ "") {depth : Nat} {checked : Tree} {cs : List Char}
    (h : checked.PrintsAs false depth (Rule.handedText label cs) false) :
    let cache := Build.member (Build.identifier name) Config.default.cacheProperty
    Tree.PrintAsLines depth
      [Build.expressionStatement (Build.assignment cache (Build.binary "||" cache checked)),
        Build.returnStatement (some (Build.call (Build.member cache "apply")
          [Build.this, Build.identifier "arguments"]))]
      [List.replicate (4 * depth) ' ' ++ Rule.fillText name label cs ++ ['\n'],
        List.replicate (4 * depth) ' ' ++ Rule.forwardText name ++ ['\n']] := by
  intro cache
  refine .cons (fun ps => ?_) (.cons (fun ps => ?_) .nil)
  · rw [pieces_fill]
    simp only [cachePieces, List.append_assoc, List.cons_append, List.nil_append]
    rw [Piece.chars_text_of_ne hname]
    simp only [Piece.chars_text]
    rw [h (.text ";" :: .newline :: ps)]
    unfold Rule.fillText Rule.cacheText
    simp only [List.append_assoc, List.cons_append, List.nil_append]
    rfl
  · rw [pieces_forward]
    simp only [cachePieces, List.append_assoc, List.cons_append, List.nil_append]
    rw [Piece.chars_text_of_ne (by decide)]
    simp only [Piece.chars_text]
    unfold Rule.forwardText Rule.cacheText
    simp only [List.append_assoc, List.cons_append, List.nil_append]
    rfl

/-- The declaration that forwards to a checked function is a statement. -/
theorem isStatement_forwarding (hname : Token.IsWord name) (hreserved : name ∉ reservedWords)
    (hbinds : pl.binds name = true) (hlabel : isReadable label = true)
    (h : function.IsArgument (pl.enter .plain)) (s r : Span) (ds : List Tree) :
    (forwarding .default name s (.node (.name name) r ds)
      (handed .default label function)).IsStatement pl := by
  have hne : name ≠ "" := by
    obtain ⟨c, cs, rfl, -⟩ := hname
    simp
  intro isBlank depth
  obtain ⟨cs, hprints, hreads⟩ := h (depth + 1)
  have hhanded : (handed .default label function).PrintsAs false (depth + 1)
      (Rule.handedText label cs) false := printsAs_handed hprints
  have hstatement := Rule.readsStatement_forwarder hname hreserved hbinds hlabel hreads
    (4 * depth) (4 * (depth + 1))
  exact ⟨_, Tree.printsAs_declaration (printAsLines_forwarding hne hhanded) isBlank s r Span.none
    Span.none name ds, rfl, Tree.getLast?_declaration _ _ _, hstatement⟩

end Wrap

end Contracts
