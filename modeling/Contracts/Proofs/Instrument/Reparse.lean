import Contracts.Proofs.Directive.Printing
import Contracts.Proofs.Instrument.Grafts
import Contracts.Proofs.Instrument.Unchanged

/-!
# Reading instrumented code again

Instrumented code is read again, whatever the comments say, with two exceptions
(`Session.parse_instrumented`). The name of a directive for instances becomes a
variable, and it can be a word that is no variable in its scope. And a literal cannot
be read if a backslash of its text starts an escape without an end.

That printed scripts are read again is taken for granted, for scripts that were read:
`Parsed.Reprints` says so of such a script with any trees put in, whoever made them,
that are read by themselves at their places. That the trees of the two passes are of
this kind is proved: the statements of directives (`Directive.isStatement`), the calls
of the checker (`Wrap.isValue_handed`) and the functions that forward
(`Wrap.isStatement_forwarding`).
-/

namespace Contracts

/-- Line feeds at the end are found behind what is left without them, if anything is left. -/
theorem rdropWhile_append (cs ds : List Char) :
    (cs ++ ds).rdropWhile (· == '\n') =
      if ds.rdropWhile (· == '\n') = [] then cs.rdropWhile (· == '\n')
      else cs ++ ds.rdropWhile (· == '\n') := by
  have hempty : (ds.reverse.dropWhile (· == '\n')).isEmpty = true ↔
      ds.rdropWhile (· == '\n') = [] := by
    rw [List.isEmpty_iff, List.rdropWhile, List.reverse_eq_nil_iff]
  rw [List.rdropWhile, List.reverse_append, List.dropWhile_append]
  simp only [hempty]
  split
  next => rfl
  next => rw [List.reverse_append, List.reverse_reverse, ← List.rdropWhile]

theorem rdropWhile_line {cs : List Char} (h : cs.getLast? ≠ some '\n') :
    (cs ++ ['\n']).rdropWhile (· == '\n') = cs := by
  rw [List.rdropWhile_concat_pos _ _ _ rfl, List.rdropWhile_eq_self_iff]
  intro hne hnewline
  refine h ?_
  rw [List.getLast?_eq_some_getLast hne, beq_iff_eq.mp hnewline]

namespace Tree

/-- The text of statements without the line feed at its end is made of texts that are read. -/
theorem exists_texts {pl : Place} {ts : List Tree} (h : ∀ t ∈ ts, t.IsStatement pl) :
    ∃ css : List (List Char),
      (Piece.chars true 0 (ts.flatMap pieces)).rdropWhile (· == '\n') = css.flatten ∧
        (∀ cs ∈ css, Rule.ReadsStatement (·.Within pl) cs) ∧
        ∀ c ∈ css.flatten.head?, Token.isNameStart c = true := by
  induction ts with
  | nil => exact ⟨[], rfl, by simp, by simp⟩
  | cons t ts ih =>
      rw [List.forall_mem_cons] at h
      obtain ⟨cs, hprints, hhead, hlast, hreads⟩ := h.1 true 0
      obtain ⟨css, htext, hcss, -⟩ := ih h.2
      have hfirst : ∀ rest : List Char, ∀ c ∈ (cs ++ rest).head?, Token.isNameStart c = true := by
        obtain ⟨c, cs, rfl⟩ := List.exists_cons_of_ne_nil hreads.ne_nil
        rintro rest _ ⟨⟩
        simpa using hhead
      rw [List.flatMap_cons, hprints, rdropWhile_append, htext]
      split
      next =>
          refine ⟨[cs], ?_, List.forall_mem_singleton.mpr hreads, ?_⟩
          · rw [List.flatten_singleton]
            exact rdropWhile_line hlast
          · rw [List.flatten_singleton, ← List.append_nil cs]
            exact hfirst []
      next =>
          refine ⟨(cs ++ ['\n']) :: css, rfl, List.forall_mem_cons.mpr ⟨hreads.line, hcss⟩, ?_⟩
          rw [List.flatten_cons, List.append_assoc]
          exact hfirst _

end Tree

theorem Source.ofContents_ofList {cs : List Char} (h : cs.head? ≠ some '\ufeff') (file : String) :
    ofContents file (String.ofList cs) = .ofText file cs := by
  unfold ofContents
  rw [String.toList_ofList]
  split
  next => exact absurd rfl h
  next => rfl

namespace Script

theorem chars_pieces {script : Script} (h : script.interpreter = none) :
    Piece.chars true 0 script.pieces = Piece.chars true 0 (script.body.flatMap Tree.pieces) := by
  have hmark : ∀ ps, Piece.chars true 0 ([.leading script.span.lo] ++
      ((if script.body.isEmpty then script.span.startMark else []) ++ ps)) =
        Piece.chars true 0 ps := by
    intro ps
    split
    next => exact Piece.chars_startMark true 0 script.span ps
    next => rfl
  rw [pieces, h, List.append_assoc, List.append_assoc, hmark]
  rfl

/-- A script of statements is read again. -/
theorem exists_parse_of_isStatement {script : Script} (hinterpreter : script.interpreter = none)
    (h : ∀ t ∈ script.body, t.IsStatement .outermost) (source : Source) (comments : List Comment)
    (file : String) :
    ∃ q, (Source.ofContents file (script.generate source comments .default).code).parse = .ok q := by
  obtain ⟨css, htext, hcss, hhead⟩ := Tree.exists_texts h
  have hcode : (script.generate source comments .default).code = String.ofList css.flatten := by
    rw [GenerateOptions.default, code_generate, chars_pieces hinterpreter, htext]
  obtain ⟨k, hopens, -⟩ := Rule.exists_opens_statements hcss Text.Opens.nil
  rw [List.append_nil] at hopens
  have hmark : css.flatten.head? ≠ some '#' := fun heq => absurd (hhead '#' heq) (by decide)
  have hfeff : css.flatten.head? ≠ some '\ufeff' :=
    fun heq => absurd (hhead '\ufeff' heq) (by decide)
  obtain ⟨c, hstart, hc⟩ := Cursor.exists_start_of_opens hopens hmark
  have hctx : (Context.outermost).Within .outermost := ⟨rfl, rfl, rfl, rfl, id⟩
  have hend : Stream.Heads ([], []) .endOfFile := Stream.heads_text Text.Opens.nil
  have hstatements : Rule.Takes (Rule.statements (4 * css.flatten.length + 16))
      ([], css.flatten ++ []) ([], []) _ :=
    Rule.takes_statements hcss hctx (by omega) Text.Opens.nil (Rule.stops_atEnd hend)
  rw [List.append_nil] at hstatements
  obtain ⟨body, finish, hrun, hfinish, -⟩ := hstatements c hc
  rw [hcode, Source.ofContents_ofList hfeff]
  have hread : ∃ q, ParsedScript.read css.flatten = .ok q := by
    have hrun' : (Rule.statements (4 * css.flatten.length + 16)).run c = .ok (body, finish) := hrun
    unfold ParsedScript.read
    simp only [hstart, hrun', hfinish.minor, bind, Except.bind]
    exact ⟨_, rfl⟩
  obtain ⟨q, hq⟩ := hread
  simp only [Source.parse, Source.ofText, hq]
  exact ⟨_, rfl⟩

/-- In a script without statements there is only the statement of a directive. -/
theorem code_directive {script : Script} (hinterpreter : script.interpreter = none)
    (hbody : script.body = []) (d : Directive) (source : Source) (comments : List Comment) :
    (((script.insertDirectives [d] "global.__typify").wrapFunctions comments .default
      .standard).1.generate source comments .default).code = String.ofList (d.kind.line 0) := by
  obtain ⟨span, interpreter, body⟩ := script
  obtain rfl : interpreter = none := hinterpreter
  obtain rfl : body = [] := hbody
  have htarget : Scope.target (Scope.ofScript ⟨span, none, []⟩) d.span = 0 :=
    Nat.lt_one_iff.mp (Scope.target_lt (List.cons_ne_nil _ _) d.span)
  have hpending : Insertion.pending "global.__typify"
      (Insertion.plan (Scope.ofScript ⟨span, none, []⟩) [d]) 0 = [d.statement "global.__typify"] := by
    rw [Insertion.pending_plan, Directive.byStart, List.mergeSort_singleton]
    simp [htarget]
  have hscript : ((insertDirectives ⟨span, none, []⟩ [d] "global.__typify").wrapFunctions comments
      .default .standard).1 = ⟨span, none, [d.statement "global.__typify"]⟩ := by
    rw [insertDirectives_eq_spliced, wrapFunctions_standard, hpending]
    exact congrArg (Script.mk span none) (Wrap.map_wrapped_statement [d])
  have hpieces : Piece.chars true 0 ([d.statement "global.__typify"].flatMap Tree.pieces) =
      d.kind.line 0 ++ ['\n'] := by
    have hprints := DirectiveKind.printsAs_statement d true 0 []
    rw [List.flatMap_singleton, ← List.append_nil (Tree.pieces _), hprints]
    exact List.append_nil _
  have hline : (d.kind.line 0).getLast? ≠ some '\n' := by
    rw [d.kind.getLast?_line]
    simp
  rw [hscript, GenerateOptions.default, code_generate, chars_pieces rfl, hpieces,
    rdropWhile_line hline]

end Script

namespace Parsed

/-- The printer prints what the reader reads. The printed script is read again, also with statements
and values put in that are read by themselves at their places. And a function that is to be handed
over is read as an argument where it is handed over, whatever is put into it. -/
structure Reprints (p : Parsed) : Prop where
  script : ∀ body, GraftedBody p.script.place p.script.body body → ∀ file, ∃ q,
    (Source.ofContents file
      ({ p.script with body := body }.generate p.source p.comments .default).code).parse = .ok q
  function : ∀ n ∈ Tree.allNodesIn p.script.placedBody, ∀ h ∈ n.2.handover?, ∀ u,
    Graft (n.1.ofHandover n.2) h.function u → u.IsArgument (n.1.ofHandover n.2)

/-- The texts of the comments that become string literals, beside names: the definitions and the types
of fields in directives, and the labels of functions. -/
def forwarded (p : Parsed) : List String :=
  (p.comments.filterMap Directive.ofComment?).flatMap (fun d => d.kind.types) ++
    (p.script.nodes.filterMap Tree.handover?).flatMap fun h =>
      ((Wrap.signature? p.comments h.position).map h.label).toList

variable {p : Parsed}

theorem handsOver (hprint : p.Reprints)
    (htexts : ∀ text ∈ p.forwarded, Text.Quoted.isReadable text = true) :
    HandsOver p.comments p.script.placedBody := by
  refine ⟨fun n hn h hh signature hsignature => ?_, hprint.function⟩
  obtain ⟨q, hq, hn⟩ := List.mem_flatMap.mp hn
  obtain ⟨t, ht, rfl⟩ := List.mem_map.mp hq
  have hnode : n.2 ∈ p.script.nodes :=
    List.mem_flatMap.mpr ⟨t, ht, Tree.mem_nodes_of_mem_nodesIn hn⟩
  refine htexts _ (List.mem_append_right _ (List.mem_flatMap.mpr
    ⟨h, List.mem_filterMap.mpr ⟨n.2, hnode, hh⟩, ?_⟩))
  rw [Option.mem_toList]
  exact Option.mem_map_of_mem h.label hsignature

/-- The statement of a directive is one of the scope that its comment belongs to. -/
theorem isStatement_of_ofComment? {c : Comment} {d : Directive} (hc : c ∈ p.comments)
    (hread : Directive.ofComment? c = some d)
    (hnames : ∀ c ∈ p.comments, ∀ name span, Directive.ofComment? c = some ⟨.instances name, span⟩ →
      (p.script.placeOf span).refuses name = false)
    (htexts : ∀ text ∈ p.forwarded, Text.Quoted.isReadable text = true) :
    (d.statement "global.__typify").IsStatement (p.script.placeOf d.span) := by
  have htypes : ∀ text ∈ d.kind.types, Text.Quoted.isReadable text = true := by
    intro text htext
    exact htexts text (List.mem_append_left _ (List.mem_flatMap.mpr
      ⟨d, List.mem_filterMap.mpr ⟨c, hc, hread⟩, htext⟩))
  refine Directive.isStatement (Directive.isOf_of_read (Directive.ofComment?_eq_some_iff.mp hread))
    htypes ?_
  obtain ⟨kind, span⟩ := d
  cases kind with
  | synonym name definition => trivial
  | choice name fields => trivial
  | instances name => exact hnames c hc name span hread

end Parsed

/-- With the default configuration, a file that is read is instrumented. -/
theorem Session.exists_code_eq {s : Session} (hs : s.config = .default)
    {contents file : String} {p : Parsed}
    (hparse : (Source.ofContents file contents).parse = .ok p) :
    ∃ out, (s.instrument contents file).1 = .ok out ∧
      out.code = (Script.generate ((p.script.insertDirectives
        (p.comments.filterMap Directive.ofComment?) "global.__typify").wrapFunctions p.comments
          .default .standard).1 p.source p.comments .default).code := by
  have hstrict : s.config.strictDirectives = false := by
    rw [hs]
    rfl
  obtain ⟨out, hout⟩ := s.exists_instrument_eq_ok hstrict hparse
  have hwork : (Work.ofParsed s.config p (Directive.collect p.comments)).result = .ok out := by
    rw [← hout, instrument, Work.onFile, hparse]
  obtain ⟨⟨hcode, -⟩, -⟩ := Work.ofParsed_of_eq_ok hwork
  rw [hs, Directive.directives_collect] at hcode
  exact ⟨out, hout, hcode⟩

/-- With the default configuration, the code of an instrumented file is read again, provided that the
printer prints what the reader reads, if no directive declares the instances of a word that its
scope refuses, and the literals of all texts that are passed on can be read. -/
theorem Session.parse_instrumented (s : Session) (hs : s.config = .default)
    (contents file file' : String) (p : Parsed)
    (hparse : (Source.ofContents file contents).parse = .ok p) (hprint : p.Reprints)
    (hnames : ∀ c ∈ p.comments, ∀ name span, Directive.ofComment? c = some ⟨.instances name, span⟩ →
      (p.script.placeOf span).refuses name = false)
    (htexts : ∀ text ∈ p.forwarded, Text.Quoted.isReadable text = true) :
    ∃ out q, (s.instrument contents file).1 = .ok out ∧
      (Source.ofContents file' out.code).parse = .ok q := by
  obtain ⟨out, hout, hcode⟩ := exists_code_eq hs hparse
  have hstatements : ∀ d ∈ p.comments.filterMap Directive.ofComment?,
      (d.statement "global.__typify").IsStatement (p.script.placeOf d.span) := by
    intro d hd
    obtain ⟨c, hc, hread⟩ := List.mem_filterMap.mp hd
    exact Parsed.isStatement_of_ofComment? hc hread hnames htexts
  obtain ⟨body, hmade, hbody⟩ :=
    Script.graftedBody_wrapFunctions hstatements (Parsed.handsOver hprint htexts)
  obtain ⟨q, hq⟩ := hprint.script body hbody file'
  refine ⟨out, q, hout, ?_⟩
  rw [hcode, hmade]
  exact hq

/-- A function without parameters that holds only functions of this kind. -/
inductive Tree.IsNest : Tree → Prop
  | function {name : String} {ts : List Tree} (s r q b : Span)
      (hname : Place.outermost.Declares name) (hts : ∀ t ∈ ts, t.IsNest) :
      IsNest (.node (.functionDeclaration .plain) s
        [.node (.name name) r [], .node .parameters q [], .node (.block false) b ts])

section Nests

variable {ts us : List Tree} {t u : Tree} {q b : Span}

theorem Place.ofBody_of_isNest (hts : ∀ t ∈ ts, t.IsNest) :
    Place.outermost.ofBody ts = .outermost := by
  cases ts with
  | nil => rfl
  | cons t ts =>
      obtain ⟨s, r, q, b, hname, h⟩ := hts t List.mem_cons_self
      rfl

/-- What stands in a nest is outside of strict mode, as the nest is. -/
theorem Place.children_of_isNest (hts : ∀ t ∈ ts, t.IsNest) {f : Form}
    (hf : f = .functionDeclaration .plain ∨ f = .functionExpression .plain) (called : Tree) :
    Place.outermost.children f [called, .node .parameters q [], .node (.block false) b ts] =
      [(.outermost, called), (.outermost, .node .parameters q []),
        (.outermost, .node (.block false) b ts)] := by
  have hinside : Place.ofRest .outermost f
      [called, .node .parameters q [], .node (.block false) b ts] = .outermost := by
    rcases hf with rfl | rfl
    all_goals exact ofBody_of_isNest hts
  have houtside : Place.ofFirst .outermost f = .outermost := by
    rcases hf with rfl | rfl <;> rfl
  rw [children, hinside, houtside]
  rfl

theorem GraftedBody.forall_isStatement {pl : Place} (h : GraftedBody pl ts us)
    (hts : ∀ t ∈ ts, ∀ u, Graft pl t u → u.IsStatement pl) : ∀ u ∈ us, u.IsStatement pl := by
  induction us generalizing ts with
  | nil => simp
  | cons u us ih =>
      cases h with
      | keep hu h =>
          rw [List.forall_mem_cons] at hts
          exact List.forall_mem_cons.mpr ⟨hts.1 u hu, ih h hts.2⟩
      | insert hu h => exact List.forall_mem_cons.mpr ⟨hu, ih h hts⟩

theorem Grafts.exists_body {pl : Place}
    (h : Grafts [(pl, .node .parameters q []), (pl, .node (.block false) b ts)] us)
    (hts : ∀ t ∈ ts, ∀ u, Graft pl t u → u.IsStatement pl) :
    ∃ vs, us = [.node .parameters q [], .node (.block false) b vs] ∧
      ∀ v ∈ vs, v.IsStatement pl := by
  cases h with
  | cons hparams hgrafts =>
  cases hgrafts with
  | cons hbody hgrafts =>
  cases hgrafts
  obtain ⟨ps, rfl, hps⟩ := hparams.exists_copy rfl rfl
  cases hps
  cases hbody with
  | copy hf => exact absurd hf (by simp [Form.isScope])
  | scope _ hbody => exact ⟨_, rfl, hbody.forall_isStatement hts⟩

namespace Tree.IsNest

theorem isStatement_of_graft (h : t.IsNest) (hu : Graft .outermost t u) :
    u.IsStatement .outermost := by
  induction h generalizing u with
  | function s r q b hname hts ih =>
      cases hu with
      | scope hf => exact absurd hf (by simp [Form.isScope])
      | declaration hv => exact hv hname
      | copy _ hgrafts =>
          rw [Place.children_of_isNest hts (.inl rfl)] at hgrafts
          cases hgrafts with
          | cons hcalled hgrafts =>
          obtain ⟨ds, rfl, hds⟩ := hcalled.exists_copy rfl rfl
          cases hds
          obtain ⟨vs, rfl, hvs⟩ := hgrafts.exists_body fun t ht u hu => ih t ht hu
          exact isStatement_function hvs hname.word hname.unreserved hname.binds s r q b []

theorem isArgument_of_graft {s : Span} (hts : ∀ t ∈ ts, t.IsNest)
    (hu : Graft .outermost (.node (.functionExpression .plain) s
      [Tree.absent, .node .parameters q [], .node (.block false) b ts]) u) :
    u.IsArgument .outermost := by
  obtain ⟨us, rfl, hgrafts⟩ := hu.exists_copy rfl rfl
  rw [Place.children_of_isNest hts (.inr rfl)] at hgrafts
  cases hgrafts with
  | cons habsent hgrafts =>
  obtain ⟨ds, rfl, hds⟩ := habsent.exists_copy rfl rfl
  cases hds
  obtain ⟨vs, rfl, hvs⟩ := hgrafts.exists_body fun t ht u hu => (hts t ht).isStatement_of_graft hu
  exact isArgument_function hvs s q b

/-- The functions of a nest are all that is handed over in it. -/
theorem exists_function (h : t.IsNest) {n : Place × Tree} (hn : n ∈ t.nodesIn .outermost)
    {found : Handover} (hfound : found ∈ n.2.handover?) :
    n.1.ofHandover n.2 = .outermost ∧ ∃ s q b ts, (∀ t ∈ ts, IsNest t) ∧
      found.function = .node (.functionExpression .plain) s
        [Tree.absent, .node .parameters q [], .node (.block false) b ts] := by
  induction h with
  | @function name ts s r q b hname hts ih =>
      have hleaf : ∀ (f : Form) (s : Span), (node f s []).nodesIn .outermost =
          [(.outermost, node f s [])] := fun f s => nodesIn_node f s [] .outermost
      have hblock : (node (.block false) b ts).nodesIn .outermost =
          (.outermost, node (.block false) b ts) :: ts.flatMap fun t => t.nodesIn .outermost := by
        rw [nodesIn_node, Place.children_of_isScope rfl, List.flatMap_map]
      rw [nodesIn_node, Place.children_of_isNest hts (.inl rfl)] at hn
      simp only [List.flatMap_cons, List.flatMap_nil, hleaf, hblock, List.mem_cons, List.mem_append,
        List.mem_flatMap, List.not_mem_nil, or_false] at hn
      rcases hn with rfl | rfl | rfl | rfl | ⟨t, ht, hn⟩
      · obtain rfl : _ = found := by simpa [handover?] using hfound
        exact ⟨rfl, s, q, b, ts, hts, rfl⟩
      · exact absurd hfound (by simp [handover?])
      · exact absurd hfound (by simp [handover?])
      · exact absurd hfound (by simp [handover?])
      · exact ih t ht hn

end Tree.IsNest

/-- Scripts of nests are printed as they are read. -/
theorem Parsed.reprints_of_isNest {p : Parsed} (hinterpreter : p.script.interpreter = none)
    (hbody : ∀ t ∈ p.script.body, t.IsNest) : p.Reprints := by
  have hplace : p.script.place = .outermost := Place.ofBody_of_isNest hbody
  constructor
  · intro body hgrafted file
    rw [hplace] at hgrafted
    refine Script.exists_parse_of_isStatement ?_ ?_ p.source p.comments file
    · exact hinterpreter
    · exact hgrafted.forall_isStatement fun t ht u hu => (hbody t ht).isStatement_of_graft hu
  · intro n hn h hh u hu
    rw [Script.placedBody, hplace, Tree.allNodesIn, List.flatMap_map] at hn
    obtain ⟨t, ht, hn⟩ := List.mem_flatMap.mp hn
    obtain ⟨houtermost, s, q, b, ts, hts, hfunction⟩ := (hbody t ht).exists_function hn hh
    rw [houtermost] at hu ⊢
    rw [hfunction] at hu
    exact Tree.IsNest.isArgument_of_graft hts hu

end Nests

namespace Session

/-- A function in a function, both with signatures, and a directive in each of the two scopes. -/
theorem parse_instrumented_nest :
    let contents := "// typify: type A = B\n// :: A -> A\nfunction f() \x7b\n" ++
      "  // typify: instance A\n  // :: B\n  function g() \x7b\x7d\n\x7d"
    ∃ p, (Source.ofContents "a.js" contents).parse = .ok p ∧ p.Reprints ∧
      p.comments.filterMap Directive.ofComment? =
        [⟨.synonym "A" "B", ⟨1, 22⟩⟩, ⟨.instances "A", ⟨53, 74⟩⟩] ∧
      (p.script.placeOf ⟨53, 74⟩).refuses "A" = false ∧
      p.forwarded = ["B", "f :: A -> A", "g :: B"] ∧
      ∃ out q, ((start .default).instrument contents "a.js").1 = .ok out ∧
        (Source.ofContents "b.js" out.code).parse = .ok q := by
  intro contents
  have hread : ((Source.ofContents "a.js" contents).parse.toOption.any fun p =>
      p.script == ⟨⟨36, 104⟩, none, [.node (.functionDeclaration .plain) ⟨36, 104⟩
        [.node (.name "f") ⟨45, 46⟩ [], .node .parameters ⟨46, 48⟩ [],
          .node (.block false) ⟨49, 104⟩ [.node (.functionDeclaration .plain) ⟨87, 102⟩
            [.node (.name "g") ⟨96, 97⟩ [], .node .parameters ⟨97, 99⟩ [],
              .node (.block false) ⟨100, 102⟩ []]]]]⟩ &&
      p.comments.filterMap Directive.ofComment? ==
        [⟨.synonym "A" "B", ⟨1, 22⟩⟩, ⟨.instances "A", ⟨53, 74⟩⟩] &&
      p.forwarded == ["B", "f :: A -> A", "g :: B"]) = true := by
    decide +kernel
  obtain ⟨p, hparse, htest⟩ := Source.exists_parse_eq_ok hread
  simp only [Bool.and_eq_true, beq_iff_eq] at htest
  obtain ⟨⟨hscript, hdirectives⟩, hforwarded⟩ := htest
  have hprint : p.Reprints := by
    refine Parsed.reprints_of_isNest (by rw [hscript]) ?_
    rw [hscript, List.forall_mem_singleton]
    refine .function _ _ _ _ ⟨⟨'f', [], rfl, rfl, by simp⟩, by decide, by decide⟩ ?_
    rw [List.forall_mem_singleton]
    exact .function _ _ _ _ ⟨⟨'g', [], rfl, rfl, by simp⟩, by decide, by decide⟩ (by simp)
  have hplace : (p.script.placeOf ⟨53, 74⟩).refuses "A" = false := by
    rw [hscript]
    decide
  have hnames : ∀ c ∈ p.comments, ∀ name span,
      Directive.ofComment? c = some ⟨.instances name, span⟩ →
        (p.script.placeOf span).refuses name = false := by
    intro c hc name span hd
    have hmem := List.mem_filterMap.mpr ⟨c, hc, hd⟩
    rw [hdirectives] at hmem
    simp only [List.mem_cons, List.not_mem_nil, or_false, Directive.mk.injEq, reduceCtorEq, false_and,
      false_or, DirectiveKind.instances.injEq] at hmem
    obtain ⟨rfl, rfl⟩ := hmem
    exact hplace
  have htexts : ∀ text ∈ p.forwarded, Text.Quoted.isReadable text = true := by
    rw [hforwarded]
    decide
  refine ⟨p, hparse, hprint, hdirectives, hplace, hforwarded, ?_⟩
  exact parse_instrumented (start .default) rfl contents "a.js" "b.js" p hparse hprint hnames htexts

/-- The instances of `class` are declared by a call that is not read again. -/
theorem not_parse_instrumented :
    ∃ out e, ((start .default).instrument "// typify: instance class\n" "a.js").1 = .ok out ∧
      (Source.ofContents "a.js" out.code).parse = .error e := by
  have hread : ((Source.ofContents "a.js" "// typify: instance class\n").parse.toOption.any
      fun p => p.script.interpreter == none && p.script.body == [] &&
        p.comments.filterMap Directive.ofComment? == [⟨.instances "class", ⟨1, 26⟩⟩]) = true := by
    decide +kernel
  obtain ⟨p, hparse, htest⟩ := Source.exists_parse_eq_ok hread
  simp only [Bool.and_eq_true, beq_iff_eq] at htest
  obtain ⟨⟨hinterpreter, hbody⟩, hdirectives⟩ := htest
  obtain ⟨out, hout, hcode⟩ := exists_code_eq (s := start .default) rfl hparse
  rw [hdirectives, Script.code_directive hinterpreter hbody] at hcode
  have hrefused : (Source.ofContents "a.js"
      (String.ofList ((DirectiveKind.instances "class").line 0))).parse.toOption.isNone = true := by
    decide +kernel
  rw [← hcode] at hrefused
  cases hparse' : (Source.ofContents "a.js" out.code).parse with
  | ok q => exact absurd hrefused (by simp [hparse', Except.toOption])
  | error e => exact ⟨out, e, hout, hparse'⟩

end Session

end Contracts
