import Contracts.Instrument.Basic
import Contracts.Proofs.Directive.Blocks
import Contracts.Proofs.Wrap.Counting
import Contracts.Proofs.Wrap.Nesting
import Mathlib.Algebra.Order.BigOperators.Group.List
import Mathlib.Algebra.Order.Group.Nat

/-!
# When instrumenting leaves a script as it is

Without directives and without signatures nothing happens to a script: nothing
is inserted, and a step at a site without a signature only puts the new children
in place of the old ones. The converse says that what the two passes do is never
undone. Both of them only make a tree larger, where the size of a tree is the
number of its nodes, and every function that is wrapped makes it larger by at
least one node (`Wrap.size_wrapped`). So a script of the same size as before has
no wrapped function in it; it is then what the first pass made of it, and in this
pass every directive adds a statement to its scope.

A file that is left as it is comes out as its script is printed
(`Session.instrument_unchanged_iff`).
-/

namespace Contracts

namespace Tree

/-- The number of nodes of a tree. -/
def size (t : Tree) : Nat :=
  t.nodes.length

theorem size_node (f : Form) (s : Span) (cs : List Tree) :
    (node f s cs).size = (cs.map size).sum + 1 := by
  rw [size, nodes_node, List.length_cons, List.length_flatMap]
  rfl

end Tree

namespace Insertion

theorem Woven.sum_size_le {ds es : List Tree} (h : Woven ds es) :
    (ds.map Tree.size).sum ≤ (es.map Tree.size).sum := by
  induction h with
  | nil => exact Nat.le_refl _
  | keep h ih =>
      rw [List.map_cons, List.map_cons, List.sum_cons, List.sum_cons]
      exact Nat.add_le_add_left ih _
  | put ht h ih =>
      rw [List.map_cons, List.sum_cons]
      exact Nat.le_add_left_of_le ih

theorem Grown.sum_size_le {cs ds : List Tree} (h : ∀ c ∈ cs, ∀ d, Grown c d → c.size ≤ d.size)
    (hgrown : List.Forall₂ Grown cs ds) : (cs.map Tree.size).sum ≤ (ds.map Tree.size).sum := by
  induction hgrown with
  | nil => exact Nat.le_refl _
  | cons hcd _ ih =>
      rw [List.forall_mem_cons] at h
      rw [List.map_cons, List.map_cons, List.sum_cons, List.sum_cons]
      exact Nat.add_le_add (h.1 _ hcd) (ih h.2)

theorem Grown.size_le {t u : Tree} (h : Grown t u) : t.size ≤ u.size := by
  induction t using Tree.induction generalizing u with
  | h f s cs ih =>
      cases h with
      | copy hf hcs =>
          rw [Tree.size_node, Tree.size_node]
          exact Nat.succ_le_succ (sum_size_le (fun c hc d => ih c hc) hcs)
      | scope hf hcs hes =>
          rw [Tree.size_node, Tree.size_node]
          refine Nat.succ_le_succ ?_
          exact Nat.le_trans (sum_size_le (fun c hc d => ih c hc) hcs) hes.sum_size_le

theorem length_place (statement : Tree) (body : List Tree) :
    (place statement body).length = body.length + 1 := by
  induction body with
  | nil => rfl
  | cons t ts ih =>
      rw [place]
      split
      next => rfl
      next => rw [List.length_cons, ih, List.length_cons]

theorem length_splice (body statements : List Tree) :
    (splice body statements).length = body.length + statements.length := by
  induction statements generalizing body with
  | nil => rfl
  | cons t ts ih =>
      rw [splice, List.foldl_cons]
      refine (ih (place t body)).trans ?_
      rw [length_place, List.length_cons]
      omega

end Insertion

namespace Wrap

section Size

variable (config : Config)

theorem size_handed (label : String) (value : Tree) :
    value.size < (handed config label value).size := by
  rw [handed, Build.call, Build.make, Tree.size_node]
  simp only [List.map_cons, List.sum_cons]
  omega

theorem size_forwardingBody (name : String) (checked : Tree) :
    checked.size < (forwardingBody config name checked).size := by
  simp only [forwardingBody, Build.block, Build.expressionStatement, Build.assignment,
    Build.binary, Build.make, Tree.size_node, List.map_cons, List.sum_cons]
  omega

/-- How many functions of a list of sites were wrapped. -/
def wrappedCount (sites : List Site) : Nat :=
  sites.countP fun site => site.wrapped.isSome

theorem wrappedCount_append (sites sites' : List Site) :
    wrappedCount (sites ++ sites') = wrappedCount sites + wrappedCount sites' :=
  List.countP_append

theorem wrappedCount_flatMap (cs : List Tree) (g : Tree → List Site) :
    wrappedCount (cs.flatMap g) = (cs.map fun c => wrappedCount (g c)).sum := by
  rw [wrappedCount, List.countP_flatMap]
  rfl

theorem wrappedCount_eq_zero_iff {sites : List Site} :
    wrappedCount sites = 0 ↔ ∀ kind, (sites.map Site.outcome).count (kind, true) = 0 := by
  rw [wrappedCount, List.countP_eq_zero]
  simp only [List.count_eq_zero, List.mem_map, not_exists, not_and, Site.outcome, Prod.mk.injEq]
  constructor
  · intro h kind site hsite _
    exact h site hsite
  · intro h site hsite
    exact h site.kind site hsite rfl

variable {config} {comments : List Comment}

/-- A step that wraps a function makes its node larger. -/
theorem Step.size_le {t u : Tree} {cs : List Tree} {sites : List Site}
    (h : Step config comments t cs u sites) :
    (Tree.node t.form t.span cs).size + wrappedCount sites ≤ u.size := by
  have hone : ∀ kind label, wrappedCount [⟨kind, some label⟩] = 1 := fun _ _ => rfl
  have hsize : ∀ f s bs, (Tree.node f s bs).size = (bs.map Tree.size).sum + 1 := Tree.size_node
  cases h with
  | declaration h =>
      rename_i m s r name text ds params body called' params' body'
      have hchecked := size_handed config (name ++ " :: " ++ text)
        (.node (.functionExpression m) s [Tree.absent, params', body'])
      have hbody := size_forwardingBody config name (handed config (name ++ " :: " ++ text)
        (.node (.functionExpression m) s [Tree.absent, params', body']))
      rw [forwarding_eq, hone]
      simp only [hsize, Tree.form_node, List.map_cons, List.map_nil, List.sum_cons, List.sum_nil]
        at hchecked ⊢
      omega
  | initializer h hp hinit =>
      rename_i k s r p init p' init' name text
      have hchecked := size_handed config (init.functionName?.getD name ++ " :: " ++ text) init'
      rw [hone]
      simp only [hsize, List.map_cons, List.map_nil, List.sum_cons, List.sum_nil]
      omega
  | loopInitializer h hp hinit =>
      rename_i k s q r p init p' init' rest rest' name text
      have hchecked := size_handed config (init.functionName?.getD name ++ " :: " ++ text) init'
      rw [hone]
      simp only [hsize, List.map_cons, List.map_nil, List.sum_cons, List.sum_nil]
      omega
  | returned h hvalue =>
      rename_i s value value' text
      have hchecked := size_handed config (value.functionName?.elim text (· ++ " :: " ++ text)) value'
      rw [hone]
      simp only [hsize, List.map_cons, List.map_nil, List.sum_cons, List.sum_nil]
      omega
  | unsigned hsite h => exact Nat.le_refl _
  | elsewhere hsite => exact Nat.le_refl _

/-- Every function that is wrapped makes a tree larger. -/
theorem size_wrapped (t : Tree) :
    t.size + wrappedCount (noted config comments t) ≤ (wrapped config comments t).size := by
  induction t using Tree.induction with
  | h f s cs ih =>
      obtain ⟨sites, hstep, hnoted⟩ := step_node config comments (.node f s cs)
      have hchildren : (cs.map Tree.size).sum +
          (cs.map fun c => wrappedCount (noted config comments c)).sum ≤
            ((cs.map (wrapped config comments)).map Tree.size).sum := by
        rw [← List.sum_map_add, List.map_map]
        exact List.sum_le_sum ih
      have hself := hstep.size_le
      rw [Tree.size_node, Tree.children_node] at hself
      rw [Tree.size_node, hnoted, wrappedCount_append, wrappedCount_flatMap, Tree.children_node]
      omega

/-- Where no function is wrapped, nothing changes. -/
theorem wrapped_eq_self {t : Tree} (h : wrappedCount (noted config comments t) = 0) :
    wrapped config comments t = t := by
  induction t using Tree.induction with
  | h f s cs ih =>
      obtain ⟨sites, hstep, hnoted⟩ := step_node config comments (.node f s cs)
      rw [hnoted, wrappedCount_append, wrappedCount_flatMap, Nat.add_eq_zero_iff,
        List.sum_eq_zero_iff, List.forall_mem_map] at h
      have hchildren : cs.map (wrapped config comments) = cs :=
        (List.map_congr_left fun c hc => ih c hc (h.1 c hc)).trans (List.map_id cs)
      have hcopied := hstep.eq_of_noted_false fun kind =>
        List.count_eq_zero.mp (wrappedCount_eq_zero_iff.mp h.2 kind)
      rw [hcopied, Tree.children_node, hchildren]
      rfl

end Size

end Wrap

namespace Script

/-- The number of nodes of a script. -/
def size (script : Script) : Nat :=
  (script.body.map Tree.size).sum

theorem size_le_insertDirectives (script : Script) (ds : List Directive) (checker : String) :
    script.size ≤ (script.insertDirectives ds checker).size := by
  obtain ⟨body, body', hgrown, hwoven, heq⟩ := script.exists_grown_insertDirectives ds checker
  rw [heq]
  exact Nat.le_trans (Insertion.Grown.sum_size_le (fun _ _ _ h => h.size_le) hgrown)
    hwoven.sum_size_le

theorem size_wrapFunctions (script : Script) (comments : List Comment) (config : Config) :
    script.size + Wrap.wrappedCount (script.wrapFunctions comments config .standard).2 ≤
      (script.wrapFunctions comments config .standard).1.size := by
  rw [wrapFunctions_standard, Wrap.wrappedCount_flatMap, size, size, ← List.sum_map_add,
    List.map_map]
  exact List.sum_le_sum fun t _ => Wrap.size_wrapped t

theorem wrapFunctions_eq_self {script : Script} {comments : List Comment} {config : Config}
    (h : Wrap.wrappedCount (script.wrapFunctions comments config .standard).2 = 0) :
    (script.wrapFunctions comments config .standard).1 = script := by
  rw [wrapFunctions_standard, Wrap.wrappedCount_flatMap, List.sum_eq_zero_iff,
    List.forall_mem_map] at h
  rw [wrapFunctions_standard]
  have hbody : script.body.map (Wrap.wrapped config comments) = script.body :=
    (List.map_congr_left fun t ht => Wrap.wrapped_eq_self (h t ht)).trans (List.map_id _)
  simp only [hbody]

/-- Every directive adds a statement to its scope. -/
theorem insertDirectives_eq_self_iff (script : Script) (ds : List Directive) (checker : String) :
    script.insertDirectives ds checker = script ↔ ds = [] := by
  constructor
  · intro h
    refine List.eq_nil_iff_forall_not_mem.mpr fun d hd => ?_
    have hlt : Scope.target (Scope.ofScript script) d.span < script.scopeBodies.length := by
      rw [← script.length_ofScript]
      exact Scope.target_lt (by simp [Scope.ofScript]) d.span
    obtain ⟨grown, hgrown, hafter⟩ := script.exists_scopeBody_insertDirectives ds checker
      (List.getElem?_eq_getElem hlt)
    rw [h, List.getElem?_eq_getElem hlt, Option.some.injEq] at hafter
    have hlength := congrArg List.length hafter
    rw [Insertion.length_splice, hgrown.length_eq] at hlength
    have hpending : Insertion.pending checker (Insertion.plan (Scope.ofScript script) ds)
        (Scope.target (Scope.ofScript script) d.span) = [] :=
      List.eq_nil_of_length_eq_zero (by omega)
    rw [Insertion.pending_plan, List.map_eq_nil_iff, List.filter_eq_nil_iff] at hpending
    exact hpending d ((Directive.byStart_perm ds).mem_iff.mpr hd) (by simp)
  · rintro rfl
    rfl

/-- The two passes leave a script as it is if there is no directive to insert and no
function to wrap, and only then. -/
theorem wrapFunctions_insertDirectives_eq_self_iff (script : Script) (ds : List Directive)
    (checker : String) (comments : List Comment) (config : Config) :
    let result := (script.insertDirectives ds checker).wrapFunctions comments config .standard
    result.1 = script ↔ Wrap.wrappedCount result.2 = 0 ∧ ds = [] := by
  intro result
  constructor
  · intro h
    have hinserted := script.size_le_insertDirectives ds checker
    have hwrapped : (script.insertDirectives ds checker).size + Wrap.wrappedCount result.2 ≤
        result.1.size := size_wrapFunctions _ comments config
    have hsize : result.1.size = script.size := congrArg size h
    have hcount : Wrap.wrappedCount result.2 = 0 := by omega
    rw [wrapFunctions_eq_self hcount, insertDirectives_eq_self_iff] at h
    exact ⟨hcount, h⟩
  · rintro ⟨hcount, rfl⟩
    exact wrapFunctions_eq_self hcount

end Script

namespace Directive

/-- The directive that a comment is read as. -/
def ofComment? (c : Comment) : Option Directive :=
  (read c.text.toList c.span).toOption.join

theorem ofComment?_eq_some_iff {c : Comment} {d : Directive} :
    ofComment? c = some d ↔ read c.text.toList c.span = .ok (some d) := by
  rw [ofComment?]
  cases read c.text.toList c.span with
  | error e => simp [Except.toOption]
  | ok found => simp [Except.toOption]

theorem ofComment?_of_not_isAddressed {c : Comment} (h : isAddressed c.text.toList = false) :
    ofComment? c = none := by
  rw [isAddressed, Option.isSome_eq_false_iff, Option.isNone_iff_eq_none] at h
  rw [ofComment?, read, h]
  rfl

theorem directives_add (found : Collected) (c : Comment) :
    (found.add c).directives = found.directives ++ (ofComment? c).toList := by
  rw [Collected.add]
  split
  next h =>
      rw [ofComment?]
      cases hread : read c.text.toList c.span with
      | error e => simp [Except.toOption]
      | ok kind =>
          cases kind with
          | none => simp [Except.toOption]
          | some d => simp [Except.toOption]
  next h =>
      rw [ofComment?_of_not_isAddressed (by simpa using h)]
      simp

theorem directives_foldl_add (cs : List Comment) (found : Collected) :
    (cs.foldl Collected.add found).directives = found.directives ++ cs.filterMap ofComment? := by
  induction cs generalizing found with
  | nil => simp
  | cons c cs ih =>
      rw [List.foldl_cons, ih, directives_add, List.append_assoc, List.filterMap_cons]
      cases ofComment? c <;> rfl

theorem directives_collect (cs : List Comment) :
    (collect cs).directives = cs.filterMap ofComment? :=
  directives_foldl_add cs .empty

end Directive

namespace Work

/-- Work that succeeds has printed the tree that came out of the two passes. -/
theorem ofParsed_of_eq_ok {config : Config} {p : Parsed} {found : Directive.Collected}
    {out : Instrumented} (h : (ofParsed config p found).result = .ok out) :
    let made := transform config p found.directives
    let printed := made.1.generate p.source p.comments ⟨false, config.sourceMap⟩
    (out.code = printed.code ∧ out.map = printed.map) ∧
      (ofParsed config p found).sites = made.2 := by
  intro made printed
  unfold ofParsed at h ⊢
  cases hstrict : config.strictDirectives with
  | false =>
      simp only [hstrict] at h ⊢
      obtain rfl := Except.ok.inj h
      exact ⟨⟨rfl, rfl⟩, rfl⟩
  | true =>
      cases herrors : found.errors with
      | nil =>
          simp only [hstrict, herrors, List.map_nil] at h ⊢
          obtain rfl := Except.ok.inj h
          exact ⟨⟨rfl, rfl⟩, rfl⟩
      | cons e es =>
          simp only [hstrict, herrors, List.map_cons] at h
          exact absurd h (by simp)

end Work

namespace Session

/-- Without strictness, every file that is read is accepted. -/
theorem exists_instrument_eq_ok (session : Session) {contents file : String} {p : Parsed}
    (hstrict : session.config.strictDirectives = false)
    (hparse : (Source.ofContents file contents).parse = .ok p) :
    ∃ out, (session.instrument contents file).1 = .ok out := by
  simp only [instrument, Work.onFile, hparse, Work.ofParsed, hstrict]
  exact ⟨_, rfl⟩

/-- A file is left as it is if no function of it is wrapped and none of its comments is read
as a directive, and only then. What comes out is then the code and the position map of the
script as it was read. -/
theorem instrument_unchanged_iff (session : Session) (contents file : String) (p : Parsed)
    (hparse : (Source.ofContents file contents).parse = .ok p) (out : Instrumented)
    (h : (session.instrument contents file).1 = .ok out) :
    let script := (Work.transform session.config p (Directive.collect p.comments).directives).1
    let printed := script.generate p.source p.comments ⟨false, session.config.sourceMap⟩
    let after := (session.instrument contents file).2
    (out.code = printed.code ∧ out.map = printed.map) ∧
      (script = p.script ↔
        (∀ kind, (after.stats.get kind).matched = (session.stats.get kind).matched) ∧
          ∀ c ∈ p.comments, ∀ d, Directive.read c.text.toList c.span ≠ .ok (some d)) ∧
      (script = p.script →
        let plain := p.script.generate p.source p.comments .default
        out.code = plain.code ∧ out.map = plain.map) := by
  intro script printed after
  have hwork : Work.onFile session.config contents file =
      { Work.ofParsed session.config p (Directive.collect p.comments) with
        log := .instrumenting file (Text.byteLength contents.toList) ::
          (Work.ofParsed session.config p (Directive.collect p.comments)).log } := by
    rw [Work.onFile, hparse]
  rw [instrument, hwork] at h
  obtain ⟨hprinted, hsites⟩ := Work.ofParsed_of_eq_ok h
  have hstats : after.stats = session.stats.addSites
      (Work.transform session.config p (Directive.collect p.comments).directives).2 := by
    rw [← hsites]
    simp only [after, instrument, hwork]
  have hmatched : (∀ kind, (after.stats.get kind).matched = (session.stats.get kind).matched) ↔
      Wrap.wrappedCount
        (Work.transform session.config p (Directive.collect p.comments).directives).2 = 0 := by
    rw [hstats, Wrap.wrappedCount_eq_zero_iff]
    simp only [Stats.get_addSites, Nat.add_eq_left]
  have hcollected : (Directive.collect p.comments).directives = [] ↔
      ∀ c ∈ p.comments, ∀ d, Directive.read c.text.toList c.span ≠ .ok (some d) := by
    rw [Directive.directives_collect, List.filterMap_eq_nil_iff]
    refine forall₂_congr fun c _ => ?_
    rw [Option.eq_none_iff_forall_ne_some]
    exact forall_congr' fun d => not_congr Directive.ofComment?_eq_some_iff
  refine ⟨hprinted, ?_, ?_⟩
  · rw [hmatched, ← hcollected]
    exact p.script.wrapFunctions_insertDirectives_eq_self_iff _ _ _ _
  · intro hscript
    rw [← hscript]
    exact hprinted

/-- A function without a signature, and a comment that is no directive. -/
theorem instrument_unchanged_plain :
    let contents := "function f(){}//g"
    let instrumented := (start .default).instrument contents "a.js"
    ∃ p out, (Source.ofContents "a.js" contents).parse = .ok p ∧ instrumented.1 = .ok out ∧
      (∀ kind, (instrumented.2.stats.get kind).matched = 0) ∧
      out.code = (p.script.generate p.source p.comments .default).code := by
  intro contents instrumented
  have hread : ((Source.ofContents "a.js" contents).parse.toOption.any fun p =>
      (Work.transform .default p (Directive.collect p.comments).directives).1 == p.script) =
        true := by
    decide +kernel
  obtain ⟨p, hparse, htest⟩ := Source.exists_parse_eq_ok hread
  obtain ⟨out, hout⟩ : ∃ out, instrumented.1 = .ok out := by
    simp only [instrumented, instrument, Work.onFile, start, hparse]
    exact ⟨_, rfl⟩
  obtain ⟨-, hiff, hplain⟩ := instrument_unchanged_iff (start .default) contents "a.js" p hparse
    out hout
  have hscript := beq_iff_eq.mp htest
  have hzero : ∀ kind, (Stats.zero.get kind).matched = 0 := by
    intro kind
    cases kind <;> rfl
  exact ⟨p, out, hparse, hout, fun kind => ((hiff.mp hscript).1 kind).trans (hzero kind),
    (hplain hscript).1⟩

end Session

end Contracts
