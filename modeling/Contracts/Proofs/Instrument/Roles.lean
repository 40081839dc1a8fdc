import Contracts.Proofs.Directive.Marks
import Contracts.Proofs.Instrument.Unchanged
import Contracts.Proofs.Syntax.Statements
import Contracts.Proofs.Wrap.Labels

/-!
# Which comments are directives and which are signatures

All comments of a file are read for directives, and the comments in front of a function for its
signature. The two readings do not know of each other. A comment that is read as a directive is the
signature of a function as well if its mark is the first one in front of the function, and it has a
mark just if one stands in its definition or in its lines (`Session.instrument_roles`).
-/

namespace Contracts

namespace Insertion

theorem place_perm (statement : Tree) (body : List Tree) :
    (place statement body).Perm (statement :: body) := by
  induction body with
  | nil => exact .refl _
  | cons t ts ih =>
      rw [place]
      split
      next => exact .refl _
      next => exact (ih.cons t).trans (.swap statement t ts)

theorem splice_perm (body statements : List Tree) :
    (splice body statements).Perm (statements ++ body) := by
  induction statements generalizing body with
  | nil => exact .refl _
  | cons t ts ih =>
      have hplaced : (ts ++ place t body).Perm (ts ++ t :: body) :=
        (place_perm t body).append_left ts
      exact ((ih (place t body)).trans hplaced).trans List.perm_middle

theorem Woven.subset {ds es : List Tree} (h : Woven ds es) : ds ⊆ es := by
  induction h with
  | nil => exact fun _ => id
  | keep h ih => exact List.cons_subset_cons _ ih
  | put ht h ih => exact fun t hmem => List.mem_cons_of_mem _ (ih hmem)

theorem Grown.exists_of_forall₂ {cs ds : List Tree} (h : List.Forall₂ Grown cs ds) {c : Tree}
    (hc : c ∈ cs) : ∃ d ∈ ds, Grown c d := by
  induction h with
  | nil => exact absurd hc (by simp)
  | cons hcd _ ih =>
      rw [List.mem_cons] at hc
      rcases hc with rfl | hc
      · exact ⟨_, List.mem_cons_self, hcd⟩
      · obtain ⟨d, hd, hgrown⟩ := ih hc
        exact ⟨d, List.mem_cons_of_mem _ hd, hgrown⟩

/-- Every node of a tree is still there, grown, after directives were inserted. -/
theorem Grown.exists_mem_nodes {t u n : Tree} (h : Grown t u) (hn : n ∈ t.nodes) :
    ∃ m ∈ u.nodes, Grown n m := by
  induction t using Tree.induction generalizing u with
  | h f s cs ih =>
      rw [Tree.nodes_node, List.mem_cons] at hn
      rcases hn with rfl | hn
      · exact ⟨u, u.self_mem_nodes, h⟩
      · obtain ⟨c, hc, hnc⟩ := List.mem_flatMap.mp hn
        cases h with
        | copy hf hcs =>
            obtain ⟨d, hd, hgrown⟩ := exists_of_forall₂ hcs hc
            obtain ⟨m, hm, hnm⟩ := ih c hc hgrown hnc
            exact ⟨m, Tree.mem_nodes_of_mem hd hm, hnm⟩
        | scope hf hcs hes =>
            obtain ⟨d, hd, hgrown⟩ := exists_of_forall₂ hcs hc
            obtain ⟨m, hm, hnm⟩ := ih c hc hgrown hnc
            exact ⟨m, Tree.mem_nodes_of_mem (hes.subset hd) hm, hnm⟩

end Insertion

theorem Tree.nodes_subset_of_mem {t n : Tree} (h : n ∈ t.nodes) : n.nodes ⊆ t.nodes := by
  induction t using Tree.induction with
  | h f s cs ih =>
      rw [nodes_node, List.mem_cons] at h
      rcases h with rfl | h
      · exact fun _ => id
      · obtain ⟨c, hc, hn⟩ := List.mem_flatMap.mp h
        exact fun m hm => mem_nodes_of_mem hc (ih c hc hn hm)

namespace Script

/-- The statements of a scope are nodes of the script. -/
theorem mem_nodes_of_mem_scopeBodies {script : Script} {body : List Tree} {t : Tree}
    (hbody : body ∈ script.scopeBodies) (ht : t ∈ body) : t ∈ script.nodes := by
  rw [scopeBodies, List.mem_cons] at hbody
  rcases hbody with rfl | hbody
  · exact List.mem_flatMap.mpr ⟨t, ht, t.self_mem_nodes⟩
  · obtain ⟨⟨f, s, cs⟩, hblock, rfl⟩ := List.mem_map.mp hbody
    obtain ⟨top, htop, hmem⟩ := List.mem_flatMap.mp hblock
    refine List.mem_flatMap.mpr ⟨top, htop, ?_⟩
    exact Tree.nodes_subset_of_mem (List.mem_filter.mp hmem).1
      (Tree.mem_nodes_of_mem ht t.self_mem_nodes)

theorem exists_grown_mem_nodes {script : Script} {n : Tree} (hn : n ∈ script.nodes)
    (ds : List Directive) (checker : String) :
    ∃ m ∈ (script.insertDirectives ds checker).nodes, Insertion.Grown n m := by
  obtain ⟨body, body', hgrown, hwoven, heq⟩ := script.exists_grown_insertDirectives ds checker
  obtain ⟨t, ht, hnt⟩ := List.mem_flatMap.mp hn
  obtain ⟨u, hu, htu⟩ := Insertion.Grown.exists_of_forall₂ hgrown ht
  obtain ⟨m, hm, hnm⟩ := htu.exists_mem_nodes hnt
  rw [heq]
  exact ⟨m, List.mem_flatMap.mpr ⟨u, hwoven.subset hu, hm⟩, hnm⟩

/-- The statement of every directive is inserted. -/
theorem statement_mem_nodes_insertDirectives (script : Script) {ds : List Directive}
    (checker : String) {d : Directive} (hd : d ∈ ds) :
    d.statement checker ∈ (script.insertDirectives ds checker).nodes := by
  have hlt : Scope.target (Scope.ofScript script) d.span < script.scopeBodies.length := by
    rw [← script.length_ofScript]
    exact Scope.target_lt (by simp [Scope.ofScript]) d.span
  obtain ⟨grown, -, hafter⟩ := script.exists_scopeBody_insertDirectives ds checker
    (List.getElem?_eq_getElem hlt)
  have hpending : d.statement checker ∈ Insertion.pending checker
      (Insertion.plan (Scope.ofScript script) ds)
      (Scope.target (Scope.ofScript script) d.span) := by
    rw [Insertion.pending_plan]
    refine List.mem_map_of_mem (List.mem_filter.mpr ⟨?_, by simp⟩)
    exact (Directive.byStart_perm ds).mem_iff.mpr hd
  refine mem_nodes_of_mem_scopeBodies (List.mem_of_getElem? hafter) ?_
  exact (Insertion.splice_perm grown _).mem_iff.mpr (List.mem_append_left _ hpending)

end Script

namespace Wrap

variable {config : Config} {comments : List Comment}

/-- A call in which nothing is wrapped is still there after the pass. -/
theorem call_mem_nodes_wrapped {t n : Tree} (hn : n ∈ t.nodes) (hcall : n.form = .call)
    (hself : wrapped config comments n = n) : n ∈ (wrapped config comments t).nodes := by
  induction t using Tree.induction with
  | h f s cs ih =>
      rw [Tree.nodes_node, List.mem_cons] at hn
      rcases hn with rfl | hn
      · rw [hself]
        exact Tree.self_mem_nodes _
      · obtain ⟨c, hc, hnc⟩ := List.mem_flatMap.mp hn
        obtain ⟨sites, hstep, -⟩ := step_node config comments (.node f s cs)
        exact hstep.mem_nodes hcall (List.mem_map_of_mem hc) (ih c hc hnc)

/-- Nothing is wrapped in the call of a directive. -/
theorem wrapped_call_directive (d : Directive) (checker : String) {call : Tree}
    (hcall : call ∈ (d.statement checker).children) :
    wrapped config comments call = call := by
  have houtcomes : outcomes comments (d.statement checker) = [] :=
    Insertion.outcomes_of_isDirective ⟨d, checker, rfl⟩
  rw [Directive.statement, outcomes_node, List.append_eq_nil_iff,
    List.flatMap_eq_nil_iff] at houtcomes
  have hnoted := noted_perm config comments call
  rw [houtcomes.2 call hcall, List.perm_nil, List.map_eq_nil_iff] at hnoted
  refine wrapped_eq_self ?_
  rw [hnoted]
  rfl

end Wrap

/-- The call of every directive is in the tree that is printed. -/
theorem Work.call_mem_nodes_transform (config : Config) (p : Parsed) {ds : List Directive}
    {d : Directive} (hd : d ∈ ds) {call : Tree}
    (hcall : call ∈ (d.statement config.checker).children) :
    call ∈ (transform config p ds).1.nodes := by
  obtain ⟨t, ht, hstatement⟩ := List.mem_flatMap.mp
    (p.script.statement_mem_nodes_insertDirectives config.checker hd)
  have hmem : call ∈ t.nodes := Tree.nodes_subset_of_mem hstatement
    (Tree.mem_nodes_of_mem hcall call.self_mem_nodes)
  have hform : call.form = .call := by
    obtain rfl := List.mem_singleton.mp hcall
    rfl
  rw [transform, Script.wrapFunctions_standard]
  exact List.mem_flatMap.mpr ⟨_, List.mem_map_of_mem ht,
    Wrap.call_mem_nodes_wrapped hmem hform (Wrap.wrapped_call_directive d config.checker hcall)⟩

theorem Directive.mem_directives_collect {comments : List Comment} {c : Comment} {d : Directive}
    (hc : c ∈ comments) (hread : read c.text.toList c.span = .ok (some d)) :
    d ∈ (collect comments).directives := by
  rw [directives_collect]
  exact List.mem_filterMap.mpr ⟨c, hc, ofComment?_eq_some_iff.mpr hread⟩

namespace Session

/-- In a file that is accepted, the functions that are wrapped are those with a signature, and it
comes from the first leading comment that is marked. A comment that is read as a directive, whose
call is made in any case, is this comment just if it declares a synonym with a mark in its
definition or a choice with a mark in its lines, and no comment in front of it is marked. -/
theorem instrument_roles (session : Session) (contents file : String) (p : Parsed)
    (hparse : (Source.ofContents file contents).parse = .ok p) (out : Instrumented)
    (h : (session.instrument contents file).1 = .ok out) :
    let config := session.config
    let made := Work.transform config p (Directive.collect p.comments).directives
    (out.code = (made.1.generate p.source p.comments ⟨false, config.sourceMap⟩).code ∧
      (made.2.map Site.outcome).Perm (p.script.nodes.filterMap (Wrap.outcome? p.comments))) ∧
      (∀ n ∈ p.script.nodes, ∀ kind position signature, n.site? = some (kind, position) →
        Wrap.signature? p.comments position = some signature →
        (∃ m found, Insertion.Grown n m ∧ m.handover? = some found ∧
          Wrap.handed config (found.label signature)
            (Wrap.wrapped config p.comments found.function) ∈ made.1.nodes) ∧
        ∃ c ∈ p.comments, Signature.ofComment? c = some signature ∧
          Signature.carrier? (leadingComments p.comments position) = some c) ∧
      ∀ c ∈ p.comments, ∀ d, Directive.read c.text.toList c.span = .ok (some d) →
        (∀ call ∈ (d.statement config.checker).children, call ∈ made.1.nodes) ∧
          ∀ position, Signature.carrier? (leadingComments p.comments position) = some c ↔
            d.kind.IsMarkedIn c.text.toList ∧
              ∃ before after, leadingComments p.comments position = before ++ c :: after ∧
                ∀ b ∈ before, Signature.isMarked b.text.toList = false := by
  intro config made
  refine ⟨⟨?_, ?_⟩, ?_, ?_⟩
  · have hwork : (Work.ofParsed config p (Directive.collect p.comments)).result = .ok out := by
      simp only [instrument, Work.onFile, hparse] at h
      exact h
    exact (Work.ofParsed_of_eq_ok hwork).1.1
  · rw [← p.script.filterMap_nodes_insertDirectives p.comments
      (Directive.collect p.comments).directives config.checker]
    exact Script.wrapFunctions_noted_perm _ p.comments config
  · intro n hn kind position signature hsite hsignature
    obtain ⟨m, hm, hgrown⟩ := Script.exists_grown_mem_nodes hn
      (Directive.collect p.comments).directives config.checker
    obtain ⟨found, hfound, rfl⟩ := Tree.exists_handover? (hgrown.site?_eq.trans hsite)
    refine ⟨⟨m, found, hgrown, hfound, Script.handed_mem_nodes_wrapFunctions hm hfound hsignature⟩,
      ?_⟩
    rw [Wrap.signature?, Signature.find?_eq, Option.bind_eq_some_iff] at hsignature
    obtain ⟨c, hcarrier, hc⟩ := hsignature
    have hmem := List.mem_of_find?_eq_some hcarrier
    exact ⟨c, (List.mem_filter.mp hmem).1, hc, hcarrier⟩
  · intro c hc d hread
    have hd := Directive.mem_directives_collect hc hread
    refine ⟨fun call hcall => Work.call_mem_nodes_transform config p hd hcall, fun position => ?_⟩
    rw [Signature.carrier?_eq_some_iff, Directive.isMarked_iff_of_read hread]

/-- A directive in front of a signature is not in its way. -/
theorem instrument_roles_apart :
    let contents := "//typify: type A = a\n//:: A\nfunction f(){}"
    let made (p : Parsed) := Work.transform .default p (Directive.collect p.comments).directives
    ∃ p out, (Source.ofContents "a.js" contents).parse = .ok p ∧
      ((start .default).instrument contents "a.js").1 = .ok out ∧
      ∃ found c, Wrap.handed .default (Handover.label found "A")
          (Wrap.wrapped .default p.comments found.function) ∈ (made p).1.nodes ∧
        Signature.carrier? (leadingComments p.comments 29) = some c ∧ c.text = ":: A" := by
  intro contents made
  have hread : ((Source.ofContents "a.js" contents).parse.toOption.any fun p =>
      (p.script.nodes.any fun n => n.site? == some (.declaration, 29)) &&
        Wrap.signature? p.comments 29 == some "A" &&
        p.comments.all fun c => Signature.ofComment? c == none || c.text == ":: A") = true := by
    decide +kernel
  obtain ⟨p, hparse, htest⟩ := Source.exists_parse_eq_ok hread
  simp only [Bool.and_eq_true, List.any_eq_true, List.all_eq_true, Bool.or_eq_true,
    beq_iff_eq] at htest
  obtain ⟨⟨⟨n, hn, hsite⟩, hsignature⟩, hcomments⟩ := htest
  obtain ⟨out, hout⟩ := (start .default).exists_instrument_eq_ok rfl hparse
  obtain ⟨-, hwrapped, -⟩ := instrument_roles (start .default) contents "a.js" p hparse out hout
  obtain ⟨⟨m, found, -, -, hcheck⟩, c, hc, hsigned, hcarrier⟩ :=
    hwrapped n hn _ _ _ hsite hsignature
  have htext : c.text = ":: A" := by
    refine (hcomments c hc).resolve_left ?_
    rw [hsigned]
    simp
  exact ⟨p, out, hparse, hout, found, c, hcheck, hcarrier, htext⟩

/-- A synonym with a mark in its definition is a directive and a signature. -/
theorem not_one_role :
    let contents := "// typify: type T = a::b\nfunction f() {}\n"
    ∃ p out, (Source.ofContents "a.js" contents).parse = .ok p ∧
      ((start .default).instrument contents "a.js").1 = .ok out ∧
      ∃ c ∈ p.comments, ∃ d ∈ (Directive.collect p.comments).directives,
        Directive.read c.text.toList c.span = .ok (some d) ∧
        ∃ n ∈ p.script.nodes, ∃ kind position, n.site? = some (kind, position) ∧
          Signature.carrier? (leadingComments p.comments position) = some c ∧
          Wrap.signature? p.comments position = some "b" := by
  intro contents
  have hread : ((Source.ofContents "a.js" contents).parse.toOption.any fun p =>
      (p.script.nodes.any fun n => n.site? == some (.declaration, 26)) &&
        (p.comments.any fun c =>
          Signature.carrier? (leadingComments p.comments 26) == some c &&
            (Directive.ofComment? c).isSome) &&
        Wrap.signature? p.comments 26 == some "b") = true := by
    decide +kernel
  obtain ⟨p, hparse, htest⟩ := Source.exists_parse_eq_ok hread
  simp only [Bool.and_eq_true, List.any_eq_true, beq_iff_eq, Option.isSome_iff_exists] at htest
  obtain ⟨⟨⟨n, hn, hsite⟩, c, hc, hcarrier, d, hd⟩, hsignature⟩ := htest
  obtain ⟨out, hout⟩ := (start .default).exists_instrument_eq_ok rfl hparse
  rw [Directive.ofComment?_eq_some_iff] at hd
  exact ⟨p, out, hparse, hout, c, hc, d, Directive.mem_directives_collect hc hd, hd, n, hn, _, _,
    hsite, hcarrier, hsignature⟩

end Session

end Contracts
