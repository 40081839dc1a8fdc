import Contracts.Proofs.Pattern.Compiling
import Contracts.Proofs.Pattern.Merging
import Contracts.Proofs.Pattern.Writing

/-!
# Replacing parts of a pattern by a question mark

A pattern becomes more general when arguments in it, or the whole of it, are replaced by `?`
(`SExpr.GeneralizedBy`). The general pattern compiles too, and it matches whatever the pattern
matched, binding a part of what was bound (`Matcher.CoveredBy`).

A variable that stands twice must be bound to one node, so that a sub-pattern can make another
one fail. It cannot after it was replaced: smaller sets of bindings can be merged wherever larger
ones can (`Bindings.Within.exists_merge?`). All factories keep the relation between matchers
(`Factory.Monotone`), and the statement about patterns is an induction over s-expressions.
-/

namespace Contracts

namespace SExpr

/-- Some arguments of the first s-expression, or the whole of it, are replaced by `?` in the
second one, which may stand elsewhere. -/
inductive GeneralizedBy : SExpr → SExpr → Prop where
  | anything (e : SExpr) (offset : Nat) : GeneralizedBy e (.symbol "?" offset)
  | symbol (name : String) (offset offset' : Nat) :
      GeneralizedBy (.symbol name offset) (.symbol name offset')
  | list {name : String} {args args' : List SExpr} (start start' offset offset' : Nat)
      (hargs : List.Forall₂ GeneralizedBy args args') :
      GeneralizedBy (.list (.symbol name start :: args) offset)
        (.list (.symbol name start' :: args') offset')

/-- Whatever holds of replaced patterns and of symbols, and of lists if it holds of their arguments
side by side, holds of every general pattern. -/
theorem GeneralizedBy.induction {P : SExpr → SExpr → Prop}
    (anything : ∀ e offset, P e (.symbol "?" offset))
    (symbol : ∀ name offset offset', P (.symbol name offset) (.symbol name offset'))
    (list : ∀ name args args' start start' offset offset', List.Forall₂ P args args' →
      P (.list (.symbol name start :: args) offset) (.list (.symbol name start' :: args') offset'))
    {e e' : SExpr} (h : e.GeneralizedBy e') : P e e' := by
  induction e using SExpr.induction generalizing e' with
  | symbol name offset =>
      cases h with
      | anything => exact anything _ _
      | symbol => exact symbol name offset _
  | list items offset ih =>
      cases h with
      | anything => exact anything _ _
      | list start start' offset offset' hargs =>
          rw [List.forall_mem_cons] at ih
          refine list _ _ _ _ _ _ _ ?_
          exact ((List.forall₂_and_left _ _).mpr ⟨ih.2, hargs⟩).imp fun e e' h => h.1 h.2

theorem forall_of_forall₂ {P : SExpr → Prop} {es es' : List SExpr}
    (h : List.Forall₂ (fun e e' => P e → P e') es es') (hes : ∀ e ∈ es, P e) :
    ∀ e' ∈ es', P e' := by
  induction h with
  | nil => simp
  | cons hfirst _ ih =>
      rw [List.forall_mem_cons] at hes ⊢
      exact ⟨hfirst hes.1, ih hes.2⟩

/-- A general pattern can be written if the pattern can. -/
theorem GeneralizedBy.proper {e e' : SExpr} (h : e.GeneralizedBy e') (he : e.Proper) :
    e'.Proper := by
  refine h.induction (P := fun e e' => e.Proper → e'.Proper) ?_ ?_ ?_ he
  · exact fun e offset _ => .symbol (by decide) (List.forall_mem_singleton.mpr rfl)
  · rintro name offset offset' ⟨hname, hplain⟩
    exact .symbol hname hplain
  · rintro name args args' start start' offset offset' ih (_ | hitems)
    rw [List.forall_mem_cons] at hitems
    obtain ⟨⟨hname, hplain⟩, hargs⟩ := hitems
    exact .list (List.forall_mem_cons.mpr ⟨.symbol hname hplain, forall_of_forall₂ ih hargs⟩)

theorem forall₂_placedItems {es es' : List SExpr}
    (h : List.Forall₂ (fun e e' => ∀ offset, GeneralizedBy e (e'.placed offset)) es es')
    (offset : Nat) : List.Forall₂ GeneralizedBy es (placedItems offset es') := by
  induction h generalizing offset with
  | nil => exact .nil
  | cons hfirst _ ih => exact .cons (hfirst offset) (ih _)

/-- A general pattern is so wherever its text starts. -/
theorem GeneralizedBy.placed {e e' : SExpr} (h : e.GeneralizedBy e') (offset : Nat) :
    e.GeneralizedBy (e'.placed offset) := by
  refine h.induction (P := fun e e' => ∀ offset, e.GeneralizedBy (e'.placed offset)) ?_ ?_ ?_ offset
  · exact fun e _ offset => .anything e offset
  · exact fun name start _ offset => .symbol name start offset
  · exact fun name args args' start start' _ _ ih offset =>
      .list _ _ _ _ (forall₂_placedItems ih _)

end SExpr

namespace Bindings

variable {a a' b b' c : Bindings}

/-- Every name that `a` has is bound to the same node in `b`. -/
def Within (a b : Bindings) : Prop :=
  ∀ name n, a.get? name = some n → ∃ m, b.get? name = some m ∧ n.same m = true

theorem within_refl (b : Bindings) : b.Within b :=
  fun _ n h => ⟨n, h, n.same_refl⟩

theorem empty_within (b : Bindings) : empty.Within b :=
  fun _ _ h => absurd h (by simp [get?])

/-- What can be merged can be merged after some names were left out, and what comes out is then a
part of what came out before. -/
theorem Within.exists_merge? (ha : a'.Within a) (hb : b'.Within b) (h : a.merge? b = some c) :
    ∃ c', a'.merge? b' = some c' ∧ c'.Within c := by
  obtain ⟨hagree, rfl⟩ := merge?_eq_some_iff.mp h
  refine ⟨a'.union b', merge?_eq_some_iff.mpr ⟨?_, rfl⟩, ?_⟩
  · intro name m' n' hm' hn'
    obtain ⟨m, hm, hmm⟩ := ha name m' hm'
    obtain ⟨n, hn, hnn⟩ := hb name n' hn'
    have hsame : m'.same n = true := Node.same_trans hmm (hagree name m n hm hn)
    exact Node.same_trans hsame (Node.same_comm n n' ▸ hnn)
  · intro name n' hn'
    rw [get?_union] at hn' ⊢
    cases ha' : a'.get? name with
    | some m' =>
        rw [ha', Option.some_or, Option.some.injEq] at hn'
        obtain ⟨m, hm, hmm⟩ := ha name m' ha'
        exact ⟨m, by rw [hm, Option.some_or], hn' ▸ hmm⟩
    | none =>
        rw [ha', Option.none_or] at hn'
        obtain ⟨n, hn, hnn⟩ := hb name n' hn'
        cases ha : a.get? name with
        | none => exact ⟨n, by rw [Option.none_or, hn], hnn⟩
        | some m =>
            -- The name has come into the first set by a part that was left out.
            have hsame : n.same m = true := Node.same_comm m n ▸ hagree name m n ha hn
            exact ⟨m, Option.some_or, Node.same_trans hnn hsame⟩

end Bindings

namespace Matcher

variable {m m' : Matcher}

/-- Whatever `m` matches is matched by `m'`, which binds a part of what `m` binds. -/
def CoveredBy (m m' : Matcher) : Prop :=
  ∀ n b, m n = some b → ∃ b', m' n = some b' ∧ b'.Within b

theorem coveredBy_refl (m : Matcher) : m.CoveredBy m :=
  fun _ b h => ⟨b, h, b.within_refl⟩

theorem coveredBy_any (m : Matcher) : m.CoveredBy any :=
  fun _ b _ => ⟨.empty, rfl, b.empty_within⟩

theorem CoveredBy.capturing (h : m.CoveredBy m') (x : String) :
    (capturing x m).CoveredBy (capturing x m') := by
  intro n b hb
  rw [Matcher.capturing] at hb ⊢
  split at hb
  next hx =>
      rw [if_pos hx]
      exact h n b hb
  next hx =>
      rw [if_neg hx]
      obtain ⟨inner, hinner, hmerge⟩ := Option.bind_eq_some_iff.mp hb
      obtain ⟨inner', hinner', hwithin⟩ := h n inner hinner
      rw [hinner', Option.bind_some]
      exact hwithin.exists_merge? (Bindings.within_refl _) hmerge

/-- More general matchers match the same nodes, starting from a part of the bindings. -/
theorem exists_matchAll {ms ms' : List Matcher} (h : List.Forall₂ CoveredBy ms ms')
    (nodes : List Node) {acc acc' b : Bindings} (hacc : acc'.Within acc)
    (hb : matchAll acc (ms.zip nodes) = some b) :
    ∃ b', matchAll acc' (ms'.zip nodes) = some b' ∧ b'.Within b := by
  induction h generalizing nodes acc acc' with
  | nil => exact ⟨acc', rfl, Option.some.inj hb ▸ hacc⟩
  | cons hm _ ih =>
      cases nodes with
      | nil => exact ⟨acc', rfl, Option.some.inj hb ▸ hacc⟩
      | cons n nodes =>
          rw [List.zip_cons_cons, matchAll] at hb ⊢
          split at hb
          next found hfound =>
              split at hb
              next merged hmerge =>
                  obtain ⟨found', hfound', hwithin⟩ := hm n found hfound
                  obtain ⟨merged', hmerge', hmerged⟩ := hacc.exists_merge? hwithin hmerge
                  rw [hfound']
                  dsimp only
                  rw [hmerge']
                  exact ih nodes hmerged hb
              next => exact absurd hb (by simp)
          next => exact absurd hb (by simp)

end Matcher

namespace Factory

/-- From more general arguments the factory makes a more general matcher. -/
def Monotone (factory : Factory) : Prop :=
  ∀ (args args' : List Matcher) (m : Matcher), List.Forall₂ Matcher.CoveredBy args args' →
    factory args = .ok m → ∃ m', factory args' = .ok m' ∧ m.CoveredBy m'

variable {args args' : List Matcher}

theorem coveredBy_argument (h : List.Forall₂ Matcher.CoveredBy args args') (i : Nat) :
    (argument args i).CoveredBy (argument args' i) := by
  induction h generalizing i with
  | nil => exact Matcher.coveredBy_refl _
  | cons hm _ ih =>
      cases i with
      | zero => exact hm
      | succ i => exact ih i

/-- A limit on the number of arguments does not matter, since there are as many as before. -/
theorem monotone_limited {name wanted : String} {most : Nat} {make : List Matcher → Matcher}
    (h : ∀ args args', List.Forall₂ Matcher.CoveredBy args args' →
      (make args).CoveredBy (make args')) :
    Monotone fun args => do expectAtMost name args most wanted; return make args := by
  intro args args' m hargs hm
  obtain ⟨hlength, rfl⟩ := expectAtMost_eq_ok_iff.mp hm
  refine ⟨make args', expectAtMost_eq_ok_iff.mpr ⟨?_, rfl⟩, h args args' hargs⟩
  rwa [← hargs.length_eq]

theorem monotone_identifier : identifier.Monotone := by
  refine monotone_limited fun args args' hargs n b hb => ?_
  split at hb
  next hname =>
      rw [if_pos hname]
      exact coveredBy_argument hargs 0 n b hb
  next => exact absurd hb (by simp)

theorem monotone_expressionStatement : expressionStatement.Monotone := by
  refine monotone_limited fun args args' hargs n b hb => ?_
  split at hb
  next => exact coveredBy_argument hargs 0 _ b hb
  next => exact absurd hb (by simp)

theorem monotone_functionDeclaration : functionDeclaration.Monotone := by
  refine monotone_limited fun args args' hargs n b hb => ?_
  split at hb
  next => exact coveredBy_argument hargs 0 _ b hb
  next => exact absurd hb (by simp)

theorem monotone_functionExpression : functionExpression.Monotone :=
  monotone_limited fun _ _ _ => Matcher.coveredBy_refl _

theorem monotone_returned : returned.Monotone := by
  refine monotone_limited fun args args' hargs => ?_
  cases hargs with
  | nil => exact Matcher.coveredBy_refl _
  | cons hm _ =>
      intro n b hb
      dsimp only at hb ⊢
      split at hb
      next => exact hm _ b hb
      next => exact absurd hb (by simp)

theorem monotone_declarator : declarator.Monotone := by
  refine monotone_limited fun args args' hargs n b hb => ?_
  split at hb
  next =>
      have hpair : List.Forall₂ Matcher.CoveredBy [argument args 0, argument args 1]
          [argument args' 0, argument args' 1] :=
        .cons (coveredBy_argument hargs 0) (.cons (coveredBy_argument hargs 1) .nil)
      exact Matcher.exists_matchAll hpair [n.child 0, n.child 1] (Bindings.within_refl _) hb
  next => exact absurd hb (by simp)

theorem monotone_variableDeclaration : variableDeclaration.Monotone := by
  intro args args' m hargs hm
  obtain rfl := Except.ok.inj hm
  refine ⟨_, rfl, fun n b hb => ?_⟩
  dsimp only at hb ⊢
  split at hb
  next hdeclares =>
      split at hb
      next hlength =>
          rw [if_pos hdeclares, if_pos (hlength.trans hargs.length_eq)]
          exact Matcher.exists_matchAll hargs _ (Bindings.within_refl _) hb
      next => exact absurd hb (by simp)
  next => exact absurd hb (by simp)

theorem monotone_call : call.Monotone := by
  intro args args' m hargs hm
  obtain rfl := Except.ok.inj hm
  refine ⟨_, rfl, fun n b hb => ?_⟩
  dsimp only at hb ⊢
  split at hb
  next =>
      split at hb
      next hcategory =>
          rw [if_pos hcategory]
          obtain ⟨bound, hbound, hb⟩ := Option.bind_eq_some_iff.mp hb
          obtain ⟨bound', hbound', hwithin⟩ := coveredBy_argument hargs 0 _ bound hbound
          have hpatterns : List.Forall₂ Matcher.CoveredBy (args.drop 1) (args'.drop 1) :=
            List.forall₂_drop 1 hargs
          have hempty : (args'.drop 1).isEmpty = (args.drop 1).isEmpty := by
            rw [Bool.eq_iff_iff, List.isEmpty_iff_length_eq_zero, List.isEmpty_iff_length_eq_zero,
              hpatterns.length_eq]
          rw [hbound']
          simp only [Option.bind_eq_bind, Option.bind_some, hempty, ← hpatterns.length_eq]
          split at hb
          next hnone =>
              rw [if_pos hnone]
              exact ⟨bound', rfl, Option.some.inj hb ▸ hwithin⟩
          next hsome =>
              split at hb
              next hlength =>
                  rw [if_neg hsome, if_pos hlength]
                  obtain ⟨rest, hrest, hmerge⟩ := Option.bind_eq_some_iff.mp hb
                  obtain ⟨rest', hrest', hparts⟩ :=
                    Matcher.exists_matchAll hpatterns _ (Bindings.within_refl _) hrest
                  rw [hrest']
                  exact hwithin.exists_merge? hparts hmerge
              next => exact absurd hb (by simp)
      next => exact absurd hb (by simp)
  next => exact absurd hb (by simp)

theorem monotone_of_mem {factory : Factory} (h : factory ∈ Registry.standardFactories) :
    factory.Monotone := by
  simp only [Registry.standardFactories, List.mem_cons, List.not_mem_nil, or_false] at h
  rcases h with rfl | rfl | rfl | rfl | rfl | rfl | rfl | rfl
  · exact monotone_functionExpression
  · exact monotone_variableDeclaration
  · exact monotone_declarator
  · exact monotone_returned
  · exact monotone_identifier
  · exact monotone_expressionStatement
  · exact monotone_call
  · exact monotone_functionDeclaration

end Factory

namespace Registry

theorem exists_forall₂ {r : Registry} {es es' : List SExpr} {ms : List Matcher}
    (h : List.Forall₂ (fun e e' => ∀ m, r.compileExpr e = .ok m →
      ∃ m', r.compileExpr e' = .ok m' ∧ m.CoveredBy m') es es')
    (hms : List.Forall₂ (fun e m => r.compileExpr e = .ok m) es ms) :
    ∃ ms', List.Forall₂ (fun e m => r.compileExpr e = .ok m) es' ms' ∧
      List.Forall₂ Matcher.CoveredBy ms ms' := by
  induction h generalizing ms with
  | nil =>
      obtain rfl := List.forall₂_nil_left_iff.mp hms
      exact ⟨[], .nil, .nil⟩
  | cons hfirst _ ih =>
      obtain ⟨m, ms, hm, hrest, rfl⟩ := List.forall₂_cons_left_iff.mp hms
      obtain ⟨m', hm', hcovered⟩ := hfirst m hm
      obtain ⟨ms', hms', hall⟩ := ih hrest
      exact ⟨m' :: ms', .cons hm' hms', .cons hcovered hall⟩

/-- With factories that keep the relation between matchers, a general pattern compiles to a matcher
that covers the one of the pattern. -/
theorem exists_compileExpr_of_generalizedBy {r : Registry}
    (hr : ∀ name factory, r.find? name = some factory → factory.Monotone) {e e' : SExpr}
    {m : Matcher} (he : e.GeneralizedBy e') (h : r.compileExpr e = .ok m) :
    ∃ m', r.compileExpr e' = .ok m' ∧ m.CoveredBy m' := by
  refine he.induction (P := fun e e' => ∀ m, r.compileExpr e = .ok m →
    ∃ m', r.compileExpr e' = .ok m' ∧ m.CoveredBy m') ?_ ?_ ?_ m h
  · exact fun e offset m _ => ⟨.any, rfl, m.coveredBy_any⟩
  · exact fun name offset offset' m h => ⟨m, h, m.coveredBy_refl⟩
  · intro name args args' start start' offset offset' ih m h
    cases compileExpr_eq_ok_iff.mp h with
    | capturing hname hm =>
        obtain ⟨inner', _, hinner, hnil, rfl⟩ := List.forall₂_cons_left_iff.mp ih
        obtain rfl := List.forall₂_nil_left_iff.mp hnil
        obtain ⟨m', hm', hcovered⟩ := hinner _ hm
        exact ⟨_, compileExpr_eq_ok_iff.mpr (.capturing hname hm'), hcovered.capturing _⟩
    | made hname hargs hfind hm =>
        obtain ⟨ms', hargs', hcovered⟩ := exists_forall₂ ih hargs
        obtain ⟨m', hm', hmade⟩ := hr name _ hfind _ ms' m hcovered hm
        exact ⟨m', compileExpr_eq_ok_iff.mpr (.made hname hargs' hfind hm'), hmade⟩

/-- A pattern with question marks in place of some of its parts, or of all of it, can be written;
however it is written it compiles, and no match is lost: what it binds at a node that the pattern
matches is a part of what the pattern binds there. -/
theorem exists_compile_of_generalizedBy (pattern : String) (m : Matcher)
    (hm : standard.compile pattern = .ok m) :
    ∃ e, SExpr.read pattern.toList = .ok e ∧
      (∀ e', e.GeneralizedBy e' →
        SExpr.read e'.text.toList = .ok (e'.placed 0) ∧ e.GeneralizedBy (e'.placed 0)) ∧
      ∀ pattern' e', SExpr.read pattern'.toList = .ok e' → e.GeneralizedBy e' →
        ∃ m', standard.compile pattern' = .ok m' ∧ m.CoveredBy m' := by
  obtain ⟨e, hread, hcompile⟩ := compile_eq_ok_iff.mp hm
  have hproper : e.Proper := SExpr.proper_of_read hread
  have hfactories : ∀ name factory, standard.find? name = some factory → factory.Monotone :=
    fun name factory h => Factory.monotone_of_mem (mem_standardFactories h)
  refine ⟨e, hread, fun e' he => ⟨SExpr.read_text (he.proper hproper), he.placed 0⟩, ?_⟩
  intro pattern' e' hread' he
  obtain ⟨m', hcompile', hcovered⟩ := exists_compileExpr_of_generalizedBy hfactories he hcompile
  exact ⟨m', compile_eq_ok_iff.mpr ⟨e', hread', hcompile'⟩, hcovered⟩

/-- Without the function that is called, a returned call binds its argument as before. -/
theorem exists_compile_of_generalizedBy_call :
    let call : Tree := .node .call ⟨8, 12⟩
      [.node (.identifier "p") ⟨8, 9⟩ [], .node (.identifier "q") ⟨10, 11⟩ []]
    let returned : Node := ⟨[], .node .returnStatement ⟨1, 13⟩ [call]⟩
    ∃ m m' b b', standard.compile "(return (call ?f ?x))" = .ok m ∧
      standard.compile "(return (call ? ?x))" = .ok m' ∧ m returned = some b ∧
      b.names = ["f", "x"] ∧ m' returned = some b' ∧ b'.Within b := by
  intro call returned
  have hmatch : ((standard.compile "(return (call ?f ?x))").toOption.any fun m =>
      (m returned).any fun b => b.names == ["f", "x"]) = true := by
    decide +kernel
  obtain ⟨m, hm, hfound⟩ := exists_of_any hmatch
  obtain ⟨b, hb, hnames⟩ := (Option.any_eq_true _ _).mp hfound
  obtain ⟨e, hread, -, hgeneral⟩ := exists_compile_of_generalizedBy _ m hm
  have hexplicit : SExpr.read "(return (call ?f ?x))".toList = .ok (.list [.symbol "return" 1,
      .list [.symbol "call" 9, .symbol "?f" 14, .symbol "?x" 17] 8] 0) := rfl
  have hread' : SExpr.read "(return (call ? ?x))".toList = .ok (.list [.symbol "return" 1,
      .list [.symbol "call" 9, .symbol "?" 14, .symbol "?x" 16] 8] 0) := rfl
  obtain rfl := Except.ok.inj (hread.symm.trans hexplicit)
  have hargs := @SExpr.GeneralizedBy.list "call" _ _ 9 9 8 8
    (.cons (.anything (.symbol "?f" 14) 14) (.cons (.symbol "?x" 17 16) .nil))
  obtain ⟨m', hm', hcovered⟩ := hgeneral _ _ hread' (.list 1 1 0 0 (.cons hargs .nil))
  obtain ⟨b', hb', hwithin⟩ := hcovered returned b hb
  exact ⟨m, m', b, b', hm, hm', hb, by simpa using hnames, hb', hwithin⟩

end Registry

end Contracts
