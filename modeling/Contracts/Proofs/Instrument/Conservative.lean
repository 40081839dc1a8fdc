import Contracts.Proofs.Directive.Removal
import Contracts.Proofs.Syntax.Statements
import Contracts.Proofs.Wrap.Erasure

/-!
# Instrumenting a script only adds to it

A script that was read can be found again in what becomes of it: `Script.erase`
takes out the checks, the forwarding declarations and the directives, and gives
back the script as it was. The eraser knows nothing of the script. It tells what
was made from what was read by the place in the file that only the latter has,
and so everything depends on all nodes of a script having one.
-/

namespace Contracts

namespace Wrap

variable {config : Config}

/-- A node with a place was not made by the pass. -/
theorem clean_of_start {t : Tree} (h : t.form = .absent ∨ 1 ≤ t.span.lo) :
    isCheck config t = false ∧ forwarded? t = none := by
  have hspan : 1 ≤ t.span.lo → t.span.isNone = false := by
    intro hstart
    rw [Span.isNone, beq_eq_false_iff_ne]
    intro hnone
    rw [hnone] at hstart
    exact absurd hstart (by simp [Span.none])
  constructor
  · unfold isCheck
    split
    next => simp_all
    next => rfl
  · unfold forwarded?
    split
    next => simp_all
    next => rfl

theorem isFunction_of_isPlain {t : Tree} (h : t.form.isPlain = true) : t.isFunction = false := by
  rw [Bool.eq_false_iff]
  intro hfunction
  obtain ⟨m, hm⟩ := Tree.isFunction_iff.mp hfunction
  obtain ⟨f, s, cs⟩ := t
  have hparen : f ≠ .paren := by
    rintro rfl
    exact absurd h (by simp [Form.isPlain, Form.isReference])
  rw [Tree.unparen_eq_self fun hf => absurd hf hparen] at hm
  obtain rfl : f = .functionExpression m := hm
  exact absurd h (by simp [Form.isPlain, Form.isReference])

/-- Nothing that is made of plain productions is given a function. -/
theorem clean_of_isPlain {t : Tree} (h : t.Everywhere fun n => n.form.isPlain = true) :
    Clean config t := by
  induction t using Tree.induction with
  | h f s cs ih =>
      obtain ⟨hf, hcs⟩ := Tree.everywhere_node.mp h
      refine Tree.everywhere_node.mpr ⟨⟨?_, ?_⟩, fun c hc => ih c hc (hcs c hc)⟩
      · unfold isCheck
        split
        next r function label value heq =>
            obtain ⟨-, -, rfl⟩ := Tree.node.inj heq
            have hvalue : value.form.isPlain = true := by
              obtain ⟨g, q, ds⟩ := value
              exact (Tree.everywhere_node.mp (hcs _ (by simp))).1
            simp [isFunction_of_isPlain hvalue]
        next => rfl
      · unfold forwarded?
        split
        next heq =>
            obtain ⟨rfl, -, -⟩ := Tree.node.inj heq
            exact absurd hf (by simp [Form.isPlain, Form.isReference])
        next => rfl

theorem clean_of_isDirective {t : Tree} (h : Insertion.IsDirective t) : Clean config t := by
  obtain ⟨d, checker, rfl⟩ := h
  exact clean_of_isPlain (d.everywhere_statement checker)

/-- Nothing in a placed tree that directives were inserted into was made by the pass. -/
theorem clean_of_grown {source : List Char} {t u : Tree} (ht : t.Placed source)
    (h : Insertion.Grown t u) : Clean config u := by
  induction t using Tree.induction generalizing u with
  | h f s cs ih =>
      have hcs := Tree.children_of_placed ht
      have hnode : ∀ ds, isCheck config (.node f s ds) = false ∧ forwarded? (.node f s ds) = none :=
        fun ds => clean_of_start ((Tree.placed_node.mp ht).1.imp_right Text.IsEdge.one_le)
      have hbelow : ∀ c ∈ cs, ∀ d, Insertion.Grown c d → Clean config d :=
        fun c hc d hd => ih c hc (hcs c hc) hd
      cases h with
      | copy hf hgrown =>
          exact Tree.everywhere_node.mpr ⟨hnode _, Insertion.Grown.forall_of_forall₂ hbelow hgrown⟩
      | scope hf hgrown hwoven =>
          refine Tree.everywhere_node.mpr ⟨hnode _, fun e he => ?_⟩
          rcases hwoven.mem_or_isDirective he with he | he
          · exact Insertion.Grown.forall_of_forall₂ hbelow hgrown e he
          · exact clean_of_isDirective he

end Wrap

namespace Script

/-- The script without the checks, the forwarding declarations and the directives. -/
def erase (script : Script) (config : Config) : Script :=
  { script with
    body := ((script.body.map (Wrap.unwrap config)).map Tree.dropDirectives).filter
      fun t => !Insertion.isInserted t }

theorem erase_wrapFunctions {source : List Char} {script : Script}
    (hscript : ∀ t ∈ script.body, t.Placed source) (ds : List Directive) (checker : String)
    (comments : List Comment) (config : Config) :
    ((script.insertDirectives ds checker).wrapFunctions comments config .standard).1.erase config =
      script := by
  obtain ⟨body, body', hgrown, hwoven, heq⟩ := script.exists_grown_insertDirectives ds checker
  have hclean : ∀ t ∈ body', Wrap.Clean config t := by
    intro t ht
    rcases hwoven.mem_or_isDirective ht with ht | ht
    · exact Insertion.Grown.forall_of_forall₂
        (fun c hc d => Wrap.clean_of_grown (hscript c hc)) hgrown t ht
    · exact Wrap.clean_of_isDirective ht
  have hunwrapped :
      (body'.map (Wrap.wrapped config comments)).map (Wrap.unwrap config) = body' := by
    rw [List.map_map]
    exact (List.map_congr_left fun t ht => Wrap.unwrap_wrapped (hclean t ht)).trans (List.map_id _)
  -- The checks are gone by now, and so the directives stand where they were put.
  have hdropped := Insertion.filter_dropDirectives hscript (Insertion.map_dropDirectives
    (fun c hc d => Insertion.Grown.dropDirectives_eq (hscript c hc)) hgrown) hwoven
  rw [wrapFunctions_standard, heq, erase]
  dsimp only
  rw [hunwrapped, hdropped]

end Script

/-- Instrumenting a script only adds nodes to it: whatever directives are inserted and
whatever functions are wrapped, erasing what was made gives the script that was read. -/
theorem Source.erase_instrumented (s : Source) (p : Parsed) (h : s.parse = .ok p)
    (ds : List Directive) (checker : String) (comments : List Comment) (config : Config) :
    ((p.script.insertDirectives ds checker).wrapFunctions comments config .standard).1.erase
      config = p.script :=
  Script.erase_wrapFunctions (fun t ht => (rooted_of_parse h t ht).placed) ds checker comments
    config

/-- A declaration with a signature, and a directive in front of it. -/
theorem Source.erase_instrumented_declaration :
    let s := Source.ofText "a.js" "//f::x\nfunction f(){}".toList
    let made (p : Parsed) :=
      ((p.script.insertDirectives [⟨.instances "f", ⟨1, 7⟩⟩] "c").wrapFunctions p.comments
        .default .standard).1
    ∃ p, s.parse = .ok p ∧ made p ≠ p.script ∧ (made p).erase .default = p.script := by
  intro s made
  have hread : (s.parse.toOption.any fun p => made p != p.script) = true := by decide +kernel
  cases hparse : s.parse with
  | error e =>
      rw [hparse] at hread
      exact absurd hread (by simp [Except.toOption])
  | ok p =>
      rw [hparse] at hread
      refine ⟨p, rfl, by simpa [Except.toOption] using hread, ?_⟩
      exact s.erase_instrumented p hparse _ _ _ _

end Contracts
