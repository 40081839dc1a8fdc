import Contracts.Pattern.Registry
import Mathlib.Data.List.Forall2

/-!
# What compiling does

`Registry.Compiles r e m` lists the ways in which one s-expression becomes a matcher,
given the matchers of its arguments; compiling follows these rules and no others
(`Registry.compileExpr_eq_ok_iff`). With `SExpr.induction`, which goes into all items
of a list at once, this is what every statement about compiled patterns starts from.

The factories of the standard registry are eight, and most of them only accept a
limited number of arguments (`Factory.expectAtMost_eq_ok_iff`).
-/

namespace Contracts

namespace SExpr

mutual

/-- Whatever holds of the symbols, and of a list if it holds of its items, holds of every
s-expression. -/
theorem induction {P : SExpr → Prop} (symbol : ∀ name offset, P (.symbol name offset))
    (list : ∀ items offset, (∀ e ∈ items, P e) → P (.list items offset)) : ∀ e, P e
  | .symbol name offset => symbol name offset
  | .list items offset => list items offset (inductionItems symbol list items)

theorem inductionItems {P : SExpr → Prop} (symbol : ∀ name offset, P (.symbol name offset))
    (list : ∀ items offset, (∀ e ∈ items, P e) → P (.list items offset)) :
    ∀ items : List SExpr, ∀ e ∈ items, P e
  | [], _, he => absurd he (by simp)
  | first :: rest, e, he =>
    (List.mem_cons.mp he).elim (fun h => h ▸ induction symbol list first)
      (inductionItems symbol list rest e)

end

end SExpr

namespace Factory

variable {name wanted : String} {args : List Matcher} {most : Nat} {made m : Matcher}

/-- A factory with a limit makes its matcher just if it does not get more arguments. -/
theorem expectAtMost_eq_ok_iff :
    (do expectAtMost name args most wanted; return made : Except PatternError Matcher) = .ok m ↔
      args.length ≤ most ∧ made = m := by
  rw [expectAtMost]
  split
  next h => simp [bind, Except.bind, Nat.not_le.mpr h]
  next h => simp [bind, Except.bind, pure, Except.pure, Nat.not_lt.mp h]

end Factory

namespace Registry

/-- The s-expression becomes the matcher: the rules, one for each kind of s-expression. -/
inductive Compiles (r : Registry) : SExpr → Matcher → Prop where
  /-- A question mark alone. -/
  | any {name : String} {offset : Nat} (h : variableName? name = some "") :
      Compiles r (.symbol name offset) .any
  /-- A variable. -/
  | capture {name x : String} {offset : Nat} (h : variableName? name = some x) (hx : x ≠ "") :
      Compiles r (.symbol name offset) (.capture x)
  /-- A name of the registry without arguments. -/
  | bare {name : String} {offset : Nat} {factory : Factory} {m : Matcher}
      (h : variableName? name = none) (hfind : r.find? name = some factory)
      (hm : factory [] = .ok m) : Compiles r (.symbol name offset) m
  /-- Any other name. -/
  | named {name : String} {offset : Nat} (h : variableName? name = none)
      (hfind : r.find? name = none) : Compiles r (.symbol name offset) (.named name)
  /-- A variable for what another pattern matches. -/
  | capturing {name x : String} {offset start : Nat} {inner : SExpr} {m : Matcher}
      (h : variableName? name = some x) (hm : r.compileExpr inner = .ok m) :
      Compiles r (.list [.symbol name start, inner] offset) (.capturing x m)
  /-- A name of the registry with arguments. -/
  | made {name : String} {offset start : Nat} {args : List SExpr} {ms : List Matcher}
      {factory : Factory} {m : Matcher} (h : variableName? name = none)
      (hargs : List.Forall₂ (fun e m => r.compileExpr e = .ok m) args ms)
      (hfind : r.find? name = some factory) (hm : factory ms = .ok m) :
      Compiles r (.list (.symbol name start :: args) offset) m

variable {r : Registry}

theorem compileAll_eq_ok_iff {es : List SExpr} {ms : List Matcher} :
    r.compileAll es = .ok ms ↔ List.Forall₂ (fun e m => r.compileExpr e = .ok m) es ms := by
  induction es generalizing ms with
  | nil =>
      rw [compileAll, List.forall₂_nil_left_iff]
      simp [eq_comm]
  | cons e es ih =>
      rw [compileAll, List.forall₂_cons_left_iff]
      cases r.compileExpr e with
      | error err => simp
      | ok m =>
          cases hrest : r.compileAll es with
          | error err => simp [← ih, hrest]
          | ok rest => simp [← ih, hrest, eq_comm]

/-- What holds of all compiled items holds of the items and their matchers side by side. -/
theorem forall₂_of_compiled {P : SExpr → Matcher → Prop} {es : List SExpr} {ms : List Matcher}
    (h : ∀ e ∈ es, ∀ m, r.compileExpr e = .ok m → P e m)
    (hms : List.Forall₂ (fun e m => r.compileExpr e = .ok m) es ms) : List.Forall₂ P es ms :=
  ((List.forall₂_and_left es ms).mpr ⟨h, hms⟩).imp fun _ m hem => hem.1 m hem.2

theorem invoke_eq_ok_iff {name : String} {ms : List Matcher} {m : Matcher} :
    r.invoke name ms = .ok m ↔ ∃ factory, r.find? name = some factory ∧ factory ms = .ok m := by
  rw [invoke]
  cases r.find? name <;> simp

theorem compileSymbol_eq_ok_iff {name : String} {offset : Nat} {m : Matcher} :
    r.compileSymbol name = .ok m ↔ Compiles r (.symbol name offset) m := by
  rw [compileSymbol]
  cases hname : variableName? name with
  | some x =>
      by_cases hx : x = ""
      · subst hx
        constructor
        · rintro ⟨⟩
          exact .any hname
        · intro h
          cases h <;> simp_all
      · have hempty : x.isEmpty = false := by simpa using hx
        simp only [hempty, Bool.false_eq_true, if_false, Except.ok.injEq]
        constructor
        · rintro rfl
          exact .capture hname hx
        · intro h
          cases h <;> simp_all
  | none =>
      rw [contains]
      cases hfind : r.find? name with
      | some factory =>
          simp only [Option.isSome_some, if_true, invoke_eq_ok_iff, hfind, Option.some.injEq,
            exists_eq_left']
          constructor
          · exact fun h => .bare hname hfind h
          · intro h
            cases h <;> simp_all
      | none =>
          simp only [Option.isSome_none, Bool.false_eq_true, if_false, Except.ok.injEq]
          constructor
          · rintro rfl
            exact .named hname hfind
          · intro h
            cases h <;> simp_all

/-- Compiling follows the rules. -/
theorem compileExpr_eq_ok_iff {e : SExpr} {m : Matcher} :
    r.compileExpr e = .ok m ↔ Compiles r e m := by
  match e with
  | .symbol name offset =>
      rw [compileExpr]
      exact compileSymbol_eq_ok_iff
  | .list [] offset =>
      rw [compileExpr]
      exact ⟨fun h => absurd h (by simp), fun h => by cases h⟩
  | .list (.list items start :: args) offset =>
      rw [compileExpr]
      exact ⟨fun h => absurd h (by simp), fun h => by cases h⟩
  | .list (.symbol name start :: args) offset =>
      rw [compileExpr]
      cases hname : variableName? name with
      | some x =>
          match args with
          | [] => exact ⟨fun h => absurd h (by simp), fun h => by cases h; simp_all⟩
          | [inner] =>
              dsimp only
              cases hinner : r.compileExpr inner with
              | error err =>
                  refine ⟨fun h => absurd h (by simp [Except.map]), fun h => ?_⟩
                  cases h <;> simp_all
              | ok made =>
                  constructor
                  · rintro ⟨⟩
                    exact .capturing hname hinner
                  · intro h
                    cases h <;> simp_all [Except.map]
          | _ :: _ :: _ => exact ⟨fun h => absurd h (by simp), fun h => by cases h; simp_all⟩
      | none =>
          cases hall : r.compileAll args with
          | error err =>
              refine ⟨fun h => absurd h (by simp), fun h => ?_⟩
              cases h with
              | capturing h' _ => simp_all
              | made _ hargs _ _ =>
                  rw [compileAll_eq_ok_iff.mpr hargs] at hall
                  exact absurd hall (by simp)
          | ok ms =>
              dsimp only
              rw [invoke_eq_ok_iff]
              constructor
              · rintro ⟨factory, hfind, hm⟩
                exact .made hname (compileAll_eq_ok_iff.mp hall) hfind hm
              · intro h
                cases h with
                | capturing h' _ => simp_all
                | made _ hargs hfind hm =>
                    obtain rfl := Except.ok.inj (hall.symm.trans (compileAll_eq_ok_iff.mpr hargs))
                    exact ⟨_, hfind, hm⟩

/-- The factories that the standard names stand for. -/
def standardFactories : List Factory :=
  [Factory.functionExpression, Factory.variableDeclaration, Factory.declarator, Factory.returned,
    Factory.identifier, Factory.expressionStatement, Factory.call, Factory.functionDeclaration]

theorem mem_standardFactories {name : String} {factory : Factory}
    (h : standard.find? name = some factory) : factory ∈ standardFactories := by
  have hentries : standard.entries.map Prod.snd = standardFactories := rfl
  rw [find?, List.lookup_eq_some_iff] at h
  obtain ⟨before, after, hsplit, -⟩ := h
  rw [← hentries, hsplit]
  simp

/-- A test that succeeds has something to test. -/
theorem exists_of_any {α : Type} {result : Except PatternError α} {test : α → Bool}
    (h : result.toOption.any test = true) : ∃ a, result = .ok a ∧ test a = true := by
  cases result with
  | error err => exact absurd h (by simp [Except.toOption])
  | ok a => exact ⟨a, rfl, by simpa [Except.toOption] using h⟩

/-- What compiling a text comes to. -/
theorem compile_eq_ok_iff {pattern : String} {m : Matcher} :
    r.compile pattern = .ok m ↔
      ∃ e, SExpr.read pattern.toList = .ok e ∧ r.compileExpr e = .ok m := by
  rw [compile]
  cases SExpr.read pattern.toList <;> simp

end Registry

end Contracts
