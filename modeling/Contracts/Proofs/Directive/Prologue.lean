import Contracts.Instrument.Basic
import Contracts.Proofs.Directive.Blocks
import Contracts.Proofs.Directive.Innermost
import Mathlib.Data.List.TakeWhile

/-!
# What inserting directives does to the prologue of a scope

The string literals that a scope begins with, as statements of their own, are
its prologue; a scope with `'use strict'` among them is read in strict mode.
A directive is spliced in by the start of its comment alone, and nothing sets
the prologue apart from other statements. So a comment that stands in front of a
statement of the prologue cuts the prologue off at this statement, and any other
comment leaves it as it is (`Script.prologue_insertDirectives`).
-/

namespace Contracts

/-- Whether a statement consists of a string literal. -/
def Tree.isTextStatement : Tree → Bool
  | .node .expressionStatement _ [.node (.literal .string _) _ []] => true
  | _ => false

/-- The string literals at the beginning of a list of statements. -/
def prologue (body : List Tree) : List Tree :=
  body.takeWhile Tree.isTextStatement

namespace Insertion

theorem isTextStatement_of_isDirective {t : Tree} (h : IsDirective t) :
    t.isTextStatement = false := by
  obtain ⟨d, checker, rfl⟩ := h
  rfl

theorem ofTree_of_isDirective {t : Tree} (h : IsDirective t) (depth : Nat) :
    Scope.ofTree t depth = [] := by
  have hspans := t.map_span_ofTree depth
  rw [blocks_of_isDirective h, List.map_nil] at hspans
  exact List.map_eq_nil_iff.mp hspans

theorem Grown.flatMap_ofTree_eq {cs ds : List Tree} {depth : Nat}
    (h : ∀ c ∈ cs, ∀ d, Grown c d → Scope.ofTree d depth = Scope.ofTree c depth)
    (hgrown : List.Forall₂ Grown cs ds) :
    (ds.flatMap fun d => Scope.ofTree d depth) = cs.flatMap fun c => Scope.ofTree c depth := by
  rw [List.flatMap_def, List.flatMap_def, map_eq_of_forall₂ h hgrown]

/-- A tree that has grown has the same scopes as before. -/
theorem Grown.ofTree_eq {t u : Tree} (h : Grown t u) (depth : Nat) :
    Scope.ofTree u depth = Scope.ofTree t depth := by
  induction t using Tree.induction generalizing u depth with
  | h f s cs ih =>
      have hbelow : ∀ {ds}, List.Forall₂ Grown cs ds → ∀ depth,
          (ds.flatMap fun d => Scope.ofTree d depth) = cs.flatMap fun c => Scope.ofTree c depth :=
        fun hgrown depth => flatMap_ofTree_eq (fun c hc d hd => ih c hc hd depth) hgrown
      cases h with
      | copy hf hcs => simp [Scope.ofTree_node, hf, hbelow hcs]
      | scope hf hcs hes =>
          have hwoven := hes.flatMap_eq fun t ht => ofTree_of_isDirective ht (depth + 1)
          simp [Scope.ofTree_node, hf, hwoven, hbelow hcs]

/-- Only blocks grow. -/
theorem Grown.eq_of_blocks_eq_nil {t u : Tree} (h : Grown t u) (ht : t.blocks = []) : u = t := by
  induction t using Tree.induction generalizing u with
  | h f s cs ih =>
      obtain ⟨hf, hcs⟩ := Tree.blocks_node_eq_nil ht
      obtain ⟨ds, rfl, hgrown⟩ := copies.copy hf h
      have hchildren : ds.map id = cs.map id :=
        map_eq_of_forall₂ (fun c hc d hcd => ih c hc hcd (hcs c hc)) hgrown
      rw [List.map_id, List.map_id] at hchildren
      rw [hchildren]

theorem blocks_of_isTextStatement {t : Tree} (h : t.isTextStatement = true) : t.blocks = [] := by
  unfold Tree.isTextStatement at h
  split at h
  next => rfl
  next => exact absurd h (by simp)

theorem Grown.eq_of_isTextStatement {t u : Tree} (h : Grown t u)
    (htext : t.isTextStatement = true ∨ u.isTextStatement = true) : u = t := by
  refine h.eq_of_blocks_eq_nil ?_
  rcases htext with htext | htext
  · exact blocks_of_isTextStatement htext
  · have hspans := u.map_span_ofTree 0
    rw [h.ofTree_eq, t.map_span_ofTree, blocks_of_isTextStatement htext] at hspans
    exact List.map_eq_nil_iff.mp hspans

theorem Grown.isTextStatement_eq {t u : Tree} (h : Grown t u) :
    u.isTextStatement = t.isTextStatement := by
  rw [Bool.eq_iff_iff]
  constructor
  · intro hu
    rw [← h.eq_of_isTextStatement (.inr hu)]
    exact hu
  · intro ht
    rw [h.eq_of_isTextStatement (.inl ht)]
    exact ht

theorem prologue_of_forall₂_grown {body grown : List Tree} (h : List.Forall₂ Grown body grown) :
    prologue grown = prologue body := by
  induction h with
  | nil => rfl
  | @cons t u ts us htu _ ih =>
      rw [prologue, List.takeWhile_cons, prologue, List.takeWhile_cons, htu.isTextStatement_eq]
      split
      next ht => exact congrArg₂ _ (htu.eq_of_isTextStatement (.inl ht)) ih
      next => rfl

/-- A directive cuts the prologue off at the first statement that does not start before it. -/
theorem prologue_place {statement : Tree} (hs : IsDirective statement) (body : List Tree) :
    prologue (place statement body) =
      (prologue body).takeWhile fun t => t.span.lo < statement.span.lo := by
  have hstatement := isTextStatement_of_isDirective hs
  induction body with
  | nil => simp [place, prologue, hstatement]
  | cons t ts ih =>
      rw [place]
      by_cases hstart : statement.span.lo ≤ t.span.lo
      · have hnot : ¬ t.span.lo < statement.span.lo := Nat.not_lt.mpr hstart
        rw [if_pos hstart, prologue, List.takeWhile_cons_of_neg (by simp [hstatement]), prologue,
          List.takeWhile_cons]
        split
        next => simp [hnot]
        next => rfl
      · rw [if_neg hstart, prologue, List.takeWhile_cons, prologue, List.takeWhile_cons]
        split
        next =>
          rw [List.takeWhile_cons_of_pos (by simpa using hstart)]
          exact congrArg _ ih
        next => rfl

theorem prologue_splice {statements : List Tree} (hs : ∀ t ∈ statements, IsDirective t)
    (body : List Tree) :
    prologue (splice body statements) =
      (prologue body).takeWhile fun t => ∀ d ∈ statements, t.span.lo < d.span.lo := by
  induction statements generalizing body with
  | nil =>
      refine (List.takeWhile_eq_self_iff.mpr ?_).symm
      simp
  | cons d ds ih =>
      rw [List.forall_mem_cons] at hs
      rw [splice, List.foldl_cons]
      refine (ih hs.2 (place d body)).trans ?_
      rw [prologue_place hs.1, List.takeWhile_takeWhile]
      simp [and_comm]

end Insertion

namespace Script

theorem ofScript_insertDirectives (script : Script) (ds : List Directive) (checker : String) :
    Scope.ofScript (script.insertDirectives ds checker) = Scope.ofScript script := by
  obtain ⟨body, body', hgrown, hwoven, heq⟩ := script.exists_grown_insertDirectives ds checker
  rw [heq, Scope.ofScript, Scope.ofScript,
    hwoven.flatMap_eq fun t ht => Insertion.ofTree_of_isDirective ht 0,
    Insertion.Grown.flatMap_ofTree_eq (fun _ _ _ h => h.ofTree_eq 0) hgrown]

theorem forall_mem_pending_iff (script : Script) (ds : List Directive) (checker : String) (k : Nat)
    (t : Tree) :
    (∀ u ∈ Insertion.pending checker (Insertion.plan (Scope.ofScript script) ds) k,
        t.span.lo < u.span.lo) ↔
      ∀ d ∈ ds, Scope.target (Scope.ofScript script) d.span = k → t.span.lo < d.span.lo := by
  rw [Insertion.pending_plan, List.forall_mem_map]
  simp only [List.mem_filter, decide_eq_true_eq, and_imp, (Directive.byStart_perm ds).mem_iff]
  rfl

/-- Inserting directives leaves the scopes of a script as they are. Each of them then begins
with those string literals of its prologue that start before all directive comments which
belong to it; so it keeps its prologue if and only if all these literals do. -/
theorem prologue_insertDirectives (script : Script) (ds : List Directive) (checker : String) :
    let after := script.insertDirectives ds checker
    Scope.ofScript after = Scope.ofScript script ∧
      ∀ (k : Nat) (body : List Tree), script.scopeBodies[k]? = some body →
        let precedes (t : Tree) : Prop :=
          ∀ d ∈ ds, Scope.target (Scope.ofScript script) d.span = k → t.span.lo < d.span.lo
        ∃ body', after.scopeBodies[k]? = some body' ∧
          prologue body' = (prologue body).takeWhile (fun t => precedes t) ∧
          (prologue body' = prologue body ↔ ∀ t ∈ prologue body, precedes t) := by
  intro after
  refine ⟨script.ofScript_insertDirectives ds checker, ?_⟩
  intro k body hk precedes
  obtain ⟨grown, hgrown, hafter⟩ := script.exists_scopeBody_insertDirectives ds checker hk
  have hprologue : prologue (Insertion.splice grown
      (Insertion.pending checker (Insertion.plan (Scope.ofScript script) ds) k)) =
      (prologue body).takeWhile (fun t => precedes t) := by
    rw [Insertion.prologue_splice fun _ => Insertion.isDirective_of_mem_pending,
      Insertion.prologue_of_forall₂_grown hgrown]
    simp only [script.forall_mem_pending_iff ds checker k]
    rfl
  refine ⟨_, hafter, hprologue, ?_⟩
  rw [hprologue, List.takeWhile_eq_self_iff]
  simp only [decide_eq_true_eq]

/-- A comment behind the literal leaves the prologue of the script as it is. -/
theorem prologue_insertDirectives_behind :
    let s := Source.ofText "a.js" "'use strict';//typify: instance A".toList
    let ds : List Directive := [⟨.instances "A", ⟨14, 34⟩⟩]
    ∃ p, s.parse = .ok p ∧ (Directive.collect p.comments).directives = ds ∧
      prologue p.script.body ≠ [] ∧
      prologue (p.script.insertDirectives ds "c").body = prologue p.script.body := by
  intro s ds
  have hread : (s.parse.toOption.any fun p => (Directive.collect p.comments).directives == ds &&
      prologue p.script.body != [] &&
        (prologue p.script.body).all fun t => t.span.lo < 14) = true := by
    decide +kernel
  obtain ⟨p, hparse, htest⟩ := Source.exists_parse_eq_ok hread
  simp only [Bool.and_eq_true, beq_iff_eq, bne_iff_ne, List.all_eq_true, decide_eq_true_eq] at htest
  obtain ⟨⟨hdirectives, hprologue⟩, hstart⟩ := htest
  refine ⟨p, hparse, hdirectives, hprologue, ?_⟩
  obtain ⟨body', hbody', -, hkept⟩ :=
    (p.script.prologue_insertDirectives ds "c").2 0 p.script.body rfl
  obtain rfl : (p.script.insertDirectives ds "c").body = body' := by
    simpa [scopeBodies] using hbody'
  refine hkept.mpr fun t ht d hd _ => ?_
  obtain rfl : d = ⟨.instances "A", ⟨14, 34⟩⟩ := List.mem_singleton.mp hd
  exact hstart t ht

/-- A comment in front of the literal takes the prologue of the script away. -/
theorem not_prologue_isPrefix_insertDirectives :
    let s := Source.ofText "a.js" "//typify: instance A\n'use strict';".toList
    let ds : List Directive := [⟨.instances "A", ⟨1, 21⟩⟩]
    ∃ p, s.parse = .ok p ∧ (Directive.collect p.comments).directives = ds ∧
      ¬ prologue p.script.body <+: (p.script.insertDirectives ds "c").body := by
  intro s ds
  have hread : (s.parse.toOption.any fun p =>
      (Directive.collect p.comments).directives == ds &&
        !(prologue p.script.body).isPrefixOf (p.script.insertDirectives ds "c").body) = true := by
    decide +kernel
  obtain ⟨p, hparse, htest⟩ := Source.exists_parse_eq_ok hread
  simp only [Bool.and_eq_true, beq_iff_eq, Bool.not_eq_true'] at htest
  refine ⟨p, hparse, htest.1, ?_⟩
  rw [← List.isPrefixOf_iff_prefix, htest.2]
  simp

end Script

end Contracts
