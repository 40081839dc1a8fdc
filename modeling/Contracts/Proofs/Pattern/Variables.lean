import Contracts.Proofs.Pattern.Compiling
import Contracts.Proofs.Pattern.Merging

/-!
# What a match binds

The names that a match binds do not depend on the node: they are the variables of the
pattern, in the order in which matching comes to its end with them, that is those of the
arguments first and the one in front of a list last (`SExpr.captures`).

`Matcher.Binds m vs` says that this list is `vs` for a matcher `m`, and
`Factory.Gathers` that a factory puts the lists of its arguments together. A factory does
so if it runs every argument once and merges in their order; what it wants of the node
itself does not matter. From this the statement about whole patterns is an induction over
s-expressions, for every registry of such factories.
-/

namespace Contracts

namespace SExpr

/-- The variable that a symbol stands for: what follows its question mark, if anything does. -/
def captureOf (name : String) : List String :=
  ((Registry.variableName? name).filter fun x => !x.isEmpty).toList

mutual

/-- The variables of a pattern: those of the arguments from left to right, then the one in front
of them. -/
def captures : SExpr → List String
  | .symbol name _ => captureOf name
  | .list [] _ => []
  | .list (head :: args) _ => capturesOfAll args ++ captures head

def capturesOfAll : List SExpr → List String
  | [] => []
  | e :: es => captures e ++ capturesOfAll es

end

theorem capturesOfAll_eq_flatten (es : List SExpr) :
    capturesOfAll es = (es.map captures).flatten := by
  induction es with
  | nil => rfl
  | cons e es ih => rw [capturesOfAll, ih, List.map_cons, List.flatten_cons]

theorem captureOf_eq_nil {name : String} (h : Registry.variableName? name = none) :
    captureOf name = [] := by
  rw [captureOf, h]
  rfl

theorem captureOf_eq {name x : String} (h : Registry.variableName? name = some x) :
    captureOf name = if x.isEmpty then [] else [x] := by
  rw [captureOf, h]
  cases hx : x.isEmpty <;> simp [Option.filter, hx]

end SExpr

namespace Matcher

/-- Whatever the matcher matches, it binds the names in `vs`, each where it comes first. -/
def Binds (m : Matcher) (vs : List String) : Prop :=
  ∀ n b, m n = some b → b.names = vs.eraseDups

variable {m : Matcher} {vs ws : List String}

theorem binds_nil (h : ∀ n b, m n = some b → b = .empty) : m.Binds [] := by
  intro n b hb
  rw [h n b hb]
  rfl

theorem binds_any : any.Binds [] :=
  binds_nil fun _ _ h => (Option.some.inj h).symm

theorem binds_named (name : String) : (named name).Binds [] := by
  refine binds_nil fun n b h => ?_
  rw [named] at h
  split at h
  next => exact (Option.some.inj h).symm
  next => exact absurd h (by simp)

theorem binds_capture (x : String) : (capture x).Binds [x] := by
  intro n b h
  rw [capture] at h
  split at h
  next => exact absurd h (by simp)
  next =>
      rw [← Option.some.inj h]
      rfl

/-- Merging what two matchers bind puts their names together. -/
theorem names_of_merge? {a b c : Bindings} (ha : a.names = vs.eraseDups)
    (hb : b.names = ws.eraseDups) (h : a.merge? b = some c) :
    c.names = (vs ++ ws).eraseDups := by
  obtain ⟨-, rfl⟩ := Bindings.merge?_eq_some_iff.mp h
  rw [Bindings.names_union, ha, hb, Bindings.eraseDups_append_eraseDups]

theorem Binds.capturing (h : m.Binds vs) (x : String) :
    (capturing x m).Binds (vs ++ if x.isEmpty then [] else [x]) := by
  intro n b hb
  rw [Matcher.capturing] at hb
  split at hb
  next hx =>
      rw [if_pos hx, List.append_nil]
      exact h n b hb
  next hx =>
      obtain ⟨inner, hinner, hmerge⟩ := Option.bind_eq_some_iff.mp hb
      rw [if_neg hx]
      exact names_of_merge? (h n inner hinner) rfl hmerge

/-- Matching nodes one after the other gathers their names in this order. -/
theorem names_of_matchAll {ms : List Matcher} {vss : List (List String)}
    (h : List.Forall₂ (fun vs m => m.Binds vs) vss ms) {nodes : List Node}
    (hlength : ms.length = nodes.length) {acc b : Bindings} (hacc : acc.names = vs.eraseDups)
    (hb : matchAll acc (ms.zip nodes) = some b) :
    b.names = (vs ++ vss.flatten).eraseDups := by
  induction h generalizing nodes acc vs with
  | nil =>
      obtain rfl := Option.some.inj hb
      rw [hacc, List.flatten_nil, List.append_nil]
  | cons hm _ ih =>
      obtain ⟨n, nodes, rfl⟩ := List.exists_cons_of_length_eq_add_one hlength.symm
      rw [List.zip_cons_cons, matchAll] at hb
      split at hb
      next found hfound =>
          split at hb
          next merged hmerge =>
              have hmerged := names_of_merge? hacc (hm _ found hfound) hmerge
              rw [List.flatten_cons, ← List.append_assoc]
              exact ih (Nat.succ.inj hlength) hmerged hb
          next => exact absurd hb (by simp)
      next => exact absurd hb (by simp)

end Matcher

namespace Factory

/-- The matchers that the factory makes bind what its arguments bind, in their order. -/
def Gathers (factory : Factory) : Prop :=
  ∀ (args : List Matcher) (vss : List (List String)) (m : Matcher),
    List.Forall₂ (fun vs m => m.Binds vs) vss args → factory args = .ok m → m.Binds vss.flatten

section Arguments

variable {args : List Matcher} {vss : List (List String)}

theorem binds_argument (h : List.Forall₂ (fun vs m => m.Binds vs) vss args) (i : Nat) :
    (argument args i).Binds (vss[i]?.getD []) := by
  induction h generalizing i with
  | nil => exact Matcher.binds_any
  | cons hm _ ih =>
      cases i with
      | zero => exact hm
      | succ i => exact ih i

/-- If there is at most one argument, its names are all names. -/
theorem binds_sole (h : List.Forall₂ (fun vs m => m.Binds vs) vss args)
    (hlength : args.length ≤ 1) : (argument args 0).Binds vss.flatten := by
  have hvss : vss.flatten = vss[0]?.getD [] := by
    match vss, h.length_eq ▸ hlength with
    | [], _ => rfl
    | [vs], _ => simp
  rw [hvss]
  exact binds_argument h 0

end Arguments

theorem gathers_identifier : identifier.Gathers := by
  intro args vss m hargs hm n b hb
  obtain ⟨hlength, rfl⟩ := expectAtMost_eq_ok_iff.mp hm
  dsimp only at hb
  split at hb
  next => exact binds_sole hargs hlength n b hb
  next => exact absurd hb (by simp)

theorem gathers_expressionStatement : expressionStatement.Gathers := by
  intro args vss m hargs hm n b hb
  obtain ⟨hlength, rfl⟩ := expectAtMost_eq_ok_iff.mp hm
  dsimp only at hb
  split at hb
  next => exact binds_sole hargs hlength _ b hb
  next => exact absurd hb (by simp)

theorem gathers_functionDeclaration : functionDeclaration.Gathers := by
  intro args vss m hargs hm n b hb
  obtain ⟨hlength, rfl⟩ := expectAtMost_eq_ok_iff.mp hm
  dsimp only at hb
  split at hb
  next => exact binds_sole hargs hlength _ b hb
  next => exact absurd hb (by simp)

theorem gathers_functionExpression : functionExpression.Gathers := by
  intro args vss m hargs hm
  obtain ⟨hlength, rfl⟩ := expectAtMost_eq_ok_iff.mp hm
  obtain rfl := List.length_eq_zero_iff.mp (Nat.le_zero.mp hlength)
  obtain rfl := List.forall₂_nil_right_iff.mp hargs
  refine Matcher.binds_nil fun n b hb => ?_
  split at hb
  next => exact (Option.some.inj hb).symm
  next => exact absurd hb (by simp)

theorem gathers_returned : returned.Gathers := by
  intro args vss m hargs hm n b hb
  obtain ⟨hlength, rfl⟩ := expectAtMost_eq_ok_iff.mp hm
  dsimp only at hb
  split at hb
  next =>
      cases args with
      | nil =>
          obtain rfl := List.forall₂_nil_right_iff.mp hargs
          dsimp only at hb
          split at hb
          next =>
              rw [← Option.some.inj hb]
              rfl
          next => exact absurd hb (by simp)
      | cons first rest => exact binds_sole hargs hlength _ b hb
  next => exact absurd hb (by simp)

theorem gathers_declarator : declarator.Gathers := by
  intro args vss m hargs hm n b hb
  obtain ⟨hlength, rfl⟩ := expectAtMost_eq_ok_iff.mp hm
  dsimp only at hb
  split at hb
  next =>
      have hpair : List.Forall₂ (fun vs m => m.Binds vs) [vss[0]?.getD [], vss[1]?.getD []]
          [argument args 0, argument args 1] :=
        .cons (binds_argument hargs 0) (.cons (binds_argument hargs 1) .nil)
      have hvss : vss.flatten = [vss[0]?.getD [], vss[1]?.getD []].flatten := by
        match vss, hargs.length_eq ▸ hlength with
        | [], _ => rfl
        | [vs], _ => simp
        | [vs, ws], _ => rfl
      rw [hvss, ← List.nil_append (List.flatten _)]
      have hzip : Matcher.matchAll .empty
          ([argument args 0, argument args 1].zip [n.child 0, n.child 1]) = some b := hb
      exact Matcher.names_of_matchAll hpair rfl rfl hzip
  next => exact absurd hb (by simp)

theorem gathers_variableDeclaration : variableDeclaration.Gathers := by
  intro args vss m hargs hm n b hb
  obtain rfl := Except.ok.inj hm
  dsimp only at hb
  split at hb
  next =>
      split at hb
      next hlength =>
          rw [← List.nil_append vss.flatten]
          exact Matcher.names_of_matchAll hargs hlength.symm rfl hb
      next => exact absurd hb (by simp)
  next => exact absurd hb (by simp)

theorem gathers_call : call.Gathers := by
  intro args vss m hargs hm n b hb
  obtain rfl := Except.ok.inj hm
  dsimp only at hb
  split at hb
  next =>
      split at hb
      next =>
          obtain ⟨bound, hbound, hb⟩ := Option.bind_eq_some_iff.mp hb
          have hfunction := binds_argument hargs 0 _ bound hbound
          have hpatterns : List.Forall₂ (fun vs m => m.Binds vs) (vss.drop 1) (args.drop 1) :=
            List.forall₂_drop 1 hargs
          have hvss : vss.flatten = vss[0]?.getD [] ++ (vss.drop 1).flatten := by
            cases vss <;> rfl
          rw [hvss]
          split at hb
          next hempty =>
              -- Without patterns for them the arguments of the call are not looked at.
              rw [List.isEmpty_iff.mp hempty, List.forall₂_nil_right_iff] at hpatterns
              rw [hpatterns, List.flatten_nil, List.append_nil, ← Option.some.inj hb]
              exact hfunction
          next =>
              split at hb
              next hlength =>
                  obtain ⟨rest, hrest, hmerge⟩ := Option.bind_eq_some_iff.mp hb
                  have hempty : Bindings.empty.names = [].eraseDups := rfl
                  have hnames := Matcher.names_of_matchAll hpatterns hlength hempty hrest
                  exact Matcher.names_of_merge? hfunction hnames hmerge
              next => exact absurd hb (by simp)
      next => exact absurd hb (by simp)
  next => exact absurd hb (by simp)

theorem gathers_of_mem {factory : Factory} (h : factory ∈ Registry.standardFactories) :
    factory.Gathers := by
  simp only [Registry.standardFactories, List.mem_cons, List.not_mem_nil, or_false] at h
  rcases h with rfl | rfl | rfl | rfl | rfl | rfl | rfl | rfl
  · exact gathers_functionExpression
  · exact gathers_variableDeclaration
  · exact gathers_declarator
  · exact gathers_returned
  · exact gathers_identifier
  · exact gathers_expressionStatement
  · exact gathers_call
  · exact gathers_functionDeclaration

end Factory

namespace Registry

/-- With factories that put together what their arguments bind, a pattern binds its variables. -/
theorem binds_of_compileExpr {r : Registry}
    (hr : ∀ name factory, r.find? name = some factory → factory.Gathers) {e : SExpr}
    {m : Matcher} (h : r.compileExpr e = .ok m) : m.Binds e.captures := by
  induction e using SExpr.induction generalizing m with
  | symbol name offset =>
      rw [SExpr.captures]
      cases compileExpr_eq_ok_iff.mp h with
      | any hname =>
          rw [SExpr.captureOf_eq hname]
          exact Matcher.binds_any
      | capture hname hx =>
          rw [SExpr.captureOf_eq hname, if_neg (by simpa using hx)]
          exact Matcher.binds_capture _
      | bare hname hfind hm =>
          rw [SExpr.captureOf_eq_nil hname]
          exact hr name _ hfind [] [] m .nil hm
      | named hname hfind =>
          rw [SExpr.captureOf_eq_nil hname]
          exact Matcher.binds_named name
  | list items offset ih =>
      cases compileExpr_eq_ok_iff.mp h with
      | capturing hname hm =>
          have hinner := (ih _ (by simp) hm).capturing
          rw [SExpr.captures, SExpr.captures, SExpr.captureOf_eq hname,
            SExpr.capturesOfAll, SExpr.capturesOfAll, List.append_nil]
          exact hinner _
      | made hname hargs hfind hm =>
          rename_i name start args ms factory
          have hbinds : List.Forall₂ (fun vs m => m.Binds vs) (args.map SExpr.captures) ms := by
            rw [List.forall₂_map_left_iff]
            exact forall₂_of_compiled (fun e he m => ih e (List.mem_cons_of_mem _ he)) hargs
          rw [SExpr.captures, SExpr.captures, SExpr.captureOf_eq_nil hname, List.append_nil,
            SExpr.capturesOfAll_eq_flatten]
          exact hr name factory hfind ms _ m hbinds hm

/-- Whatever a pattern matches, it binds its variables and nothing else, in the order in which
they come first. -/
theorem names_of_match (pattern : String) (m : Matcher) (hm : standard.compile pattern = .ok m) :
    ∃ e, SExpr.read pattern.toList = .ok e ∧
      ∀ n b, m n = some b → b.names = e.captures.eraseDups := by
  obtain ⟨e, hread, hcompile⟩ := compile_eq_ok_iff.mp hm
  have hfactories : ∀ name factory, standard.find? name = some factory → factory.Gathers :=
    fun name factory h => Factory.gathers_of_mem (mem_standardFactories h)
  exact ⟨e, hread, binds_of_compileExpr hfactories hcompile⟩

/-- A variable that comes twice, at one node, is listed where it comes first. -/
theorem names_of_match_call :
    let pattern := "(expr (?c (call (?f (?g ?f)) ?x)))"
    let call : Tree := .node .call ⟨1, 5⟩
      [.node (.identifier "p") ⟨1, 2⟩ [], .node (.identifier "q") ⟨3, 4⟩ []]
    ∃ m b, standard.compile pattern = .ok m ∧
      m ⟨[], .node .expressionStatement ⟨1, 6⟩ [call]⟩ = some b ∧
      b.names = ["f", "g", "x", "c"] := by
  intro pattern call
  have hmatch : ((standard.compile pattern).toOption.any fun m =>
      (m ⟨[], .node .expressionStatement ⟨1, 6⟩ [call]⟩).isSome) = true := by
    decide +kernel
  have hcaptures : ((SExpr.read pattern.toList).toOption.any fun e =>
      e.captures.eraseDups == ["f", "g", "x", "c"]) = true := by
    decide +kernel
  obtain ⟨m, hm, hsome⟩ := exists_of_any hmatch
  obtain ⟨b, hb⟩ := Option.isSome_iff_exists.mp hsome
  obtain ⟨e, hread, hnames⟩ := names_of_match pattern m hm
  rw [hread] at hcaptures
  exact ⟨m, b, hm, hb, (hnames _ b hb).trans (by simpa [Except.toOption] using hcaptures)⟩

end Registry

end Contracts
