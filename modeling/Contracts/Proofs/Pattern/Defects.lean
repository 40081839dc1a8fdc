import Contracts.Proofs.Pattern.Compiling

/-!
# What is wrong with a pattern

A pattern is well formed if each of its lists is by itself (`SExpr.WellFormed`): a variable in front
of one argument, or a standard name with no more arguments than it takes. `SExpr.defects` lists
everything that is wrong with a pattern in the order in which compiling looks at it. A list is
looked at twice: before its arguments, for what makes it a list with a head, and after them, for
what the head means.

Compiling stops at the first defect and succeeds if there is none. `Reports ds result` says this of
a result and the defects that were to be found on the way to it; it passes from the parts of a
computation to the whole (`Reports.bind`).
-/

namespace Contracts

/-- The result of a computation in which the defects `ds` could be found: it fails with the first of
them, or there are none. -/
def Reports {α : Type} (ds : List PatternError) : Except PatternError α → Prop
  | .ok _ => ds = []
  | .error err => ds.head? = some err

namespace Reports

variable {α β : Type} {ds es : List PatternError} {result : Except PatternError α}

theorem exists_eq_ok_iff (h : Reports ds result) : (∃ a, result = .ok a) ↔ ds = [] := by
  cases result with
  | ok a => exact ⟨fun _ => h, fun _ => ⟨a, rfl⟩⟩
  | error err =>
      refine ⟨fun ⟨a, ha⟩ => absurd ha (by simp), fun hds => ?_⟩
      rw [Reports, hds] at h
      exact absurd h (by simp)

theorem eq_error_iff (h : Reports ds result) {err : PatternError} :
    result = .error err ↔ ds.head? = some err := by
  cases result with
  | ok a =>
      rw [show ds = [] from h]
      simp
  | error found =>
      rw [show ds.head? = some found from h]
      simp

theorem map (h : Reports ds result) (f : α → β) : Reports ds (result.map f) := by
  cases result with
  | ok a => exact h
  | error err => exact h

/-- What is looked at later is found after what is looked at before. -/
theorem bind {f : α → Except PatternError β} (h : Reports ds result)
    (hf : ∀ a, result = .ok a → Reports es (f a)) : Reports (ds ++ es) (result.bind f) := by
  cases result with
  | ok a =>
      rw [show ds = [] from h]
      exact hf a rfl
  | error err =>
      have hhead : ds.head? = some err := h
      exact (List.head?_append ..).trans (by rw [hhead, Option.some_or])

end Reports

/-- How many arguments a name takes at most, as a number and in words. -/
structure Limit where
  most : Nat
  wanted : String

/-- What is wrong with the number of arguments of a name. -/
def Limit.defects (name : String) (found : Nat) : Option Limit → List PatternError
  | some limit => if limit.most < found then [.arity name limit.wanted found] else []
  | none => []

theorem Limit.defects_eq_nil_iff {name : String} {found : Nat} {limit : Option Limit} :
    Limit.defects name found limit = [] ↔ ∀ l ∈ limit, found ≤ l.most := by
  cases limit with
  | none => simp [Limit.defects]
  | some limit => simp [Limit.defects]

namespace Factory

/-- The factory refuses more arguments than the limit allows, in the name given, and nothing else. -/
def Respects (factory : Factory) (name : String) (limit : Option Limit) : Prop :=
  ∀ args, Reports (Limit.defects name args.length limit) (factory args)

theorem respects_limited (name wanted : String) (most : Nat) (make : List Matcher → Matcher) :
    Respects (fun args => do expectAtMost name args most wanted; return make args) name
      (some ⟨most, wanted⟩) := by
  intro args
  dsimp only [Limit.defects]
  rw [expectAtMost]
  split
  next => rfl
  next => rfl

theorem respects_none (name : String) (make : List Matcher → Matcher) :
    Respects (fun args => .ok (make args)) name none :=
  fun _ => rfl

end Factory

namespace Registry

/-- The limits of the standard names; two of them take any number of arguments. -/
def limits : List (String × Option Limit) :=
  [("fn-expr", some ⟨0, "0"⟩), ("var!", none), ("var", some ⟨2, "at most 2"⟩),
    ("return", some ⟨1, "at most 1"⟩), ("ident", some ⟨1, "at most 1"⟩),
    ("expr", some ⟨1, "at most 1"⟩), ("call", none), ("function", some ⟨1, "at most 1"⟩)]

/-- What is wrong with a list that has a variable in front. -/
def variableDefects (name : String) (found : Nat) : List PatternError :=
  match variableName? name with
  | some _ => if found = 1 then [] else [.arity name "1" found]
  | none => []

/-- What is wrong with a list that has another name in front. -/
def nameDefects (name : String) (found : Nat) : List PatternError :=
  match variableName? name with
  | some _ => []
  | none =>
    match limits.lookup name with
    | some limit => Limit.defects name found limit
    | none => [.unknownMatcher name]

end Registry

namespace SExpr

mutual

/-- All that is wrong with a pattern, in the order in which it is looked at. -/
def defects : SExpr → List PatternError
  | .symbol _ _ => []
  | .list [] offset => [.emptyList offset]
  | .list (.list _ start :: args) _ => .invalidHead start :: defectsOfAll args
  | .list (.symbol name _ :: args) _ =>
    Registry.variableDefects name args.length ++
      (defectsOfAll args ++ Registry.nameDefects name args.length)

def defectsOfAll : List SExpr → List PatternError
  | [] => []
  | e :: es => defects e ++ defectsOfAll es

end

mutual

/-- The lists in an s-expression, at any depth, each by its items. -/
def lists : SExpr → List (List SExpr)
  | .symbol _ _ => []
  | .list items _ => items :: listsOfAll items

def listsOfAll : List SExpr → List (List SExpr)
  | [] => []
  | e :: es => lists e ++ listsOfAll es

end

/-- A list is well formed by itself, whatever its arguments are. -/
inductive WellFormed : List SExpr → Prop where
  /-- A variable with exactly one argument. -/
  | capturing {name x : String} {start : Nat} {arg : SExpr}
      (hname : Registry.variableName? name = some x) : WellFormed [.symbol name start, arg]
  /-- A standard name with no more arguments than it takes. -/
  | made {name : String} {start : Nat} {args : List SExpr} {limit : Option Limit}
      (hname : Registry.variableName? name = none)
      (hlimit : Registry.limits.lookup name = some limit)
      (hargs : ∀ l ∈ limit, args.length ≤ l.most) : WellFormed (.symbol name start :: args)

theorem defectsOfAll_eq_nil_iff {es : List SExpr} :
    defectsOfAll es = [] ↔ ∀ e ∈ es, e.defects = [] := by
  induction es with
  | nil => simp [defectsOfAll]
  | cons e es ih => rw [defectsOfAll, List.append_eq_nil_iff, ih, List.forall_mem_cons]

theorem mem_listsOfAll {es : List SExpr} {items : List SExpr} :
    items ∈ listsOfAll es ↔ ∃ e ∈ es, items ∈ e.lists := by
  induction es with
  | nil => simp [listsOfAll]
  | cons e es ih =>
      rw [listsOfAll, List.mem_append, ih]
      simp

theorem wellFormed_iff {name : String} {start : Nat} {args : List SExpr} :
    WellFormed (.symbol name start :: args) ↔
      Registry.variableDefects name args.length = [] ∧
        Registry.nameDefects name args.length = [] := by
  rw [Registry.variableDefects, Registry.nameDefects]
  cases hname : Registry.variableName? name with
  | some x =>
      have hdefects : (if args.length = 1 then [] else [PatternError.arity name "1" args.length]) =
          [] ↔ args.length = 1 := by simp
      rw [and_iff_left rfl, hdefects, List.length_eq_one_iff]
      constructor
      · intro h
        cases h with
        | capturing _ => exact ⟨_, rfl⟩
        | made hname' _ _ => exact absurd (hname.symm.trans hname') (by simp)
      · rintro ⟨arg, rfl⟩
        exact .capturing hname
  | none =>
      rw [and_iff_right rfl]
      constructor
      · intro h
        cases h with
        | capturing hname' => exact absurd (hname.symm.trans hname') (by simp)
        | made _ hlimit hargs =>
            rw [hlimit]
            exact Limit.defects_eq_nil_iff.mpr hargs
      · intro h
        cases hlimit : Registry.limits.lookup name with
        | none =>
            rw [hlimit] at h
            exact absurd h (by simp)
        | some limit =>
            rw [hlimit] at h
            exact .made hname hlimit (Limit.defects_eq_nil_iff.mp h)

/-- Nothing is wrong with a pattern just if all its lists are well formed. -/
theorem defects_eq_nil_iff {e : SExpr} : e.defects = [] ↔ ∀ items ∈ e.lists, WellFormed items := by
  induction e using SExpr.induction with
  | symbol name offset => simp [defects, lists]
  | list items offset ih =>
      have hbelow : ∀ es : List SExpr, (∀ e ∈ es, e ∈ items) →
          (defectsOfAll es = [] ↔ ∀ inner ∈ listsOfAll es, WellFormed inner) := by
        intro es hes
        rw [defectsOfAll_eq_nil_iff]
        constructor
        · intro h inner hinner
          obtain ⟨e, he, hinner⟩ := mem_listsOfAll.mp hinner
          exact (ih e (hes e he)).mp (h e he) inner hinner
        · intro h e he
          exact (ih e (hes e he)).mpr fun inner hinner =>
            h inner (mem_listsOfAll.mpr ⟨e, he, hinner⟩)
      rw [lists, List.forall_mem_cons]
      match items with
      | [] => exact ⟨fun h => absurd h (by simp [defects]), fun h => by cases h.1⟩
      | .list inner start :: args =>
          exact ⟨fun h => absurd h (by simp [defects]), fun h => by cases h.1⟩
      | .symbol name start :: args =>
          rw [defects, List.append_eq_nil_iff, List.append_eq_nil_iff, wellFormed_iff,
            hbelow args fun e he => List.mem_cons_of_mem _ he, listsOfAll, lists, List.nil_append]
          exact ⟨fun h => ⟨⟨h.1, h.2.2⟩, h.2.1⟩, fun h => ⟨h.1.1, h.2, h.1.2⟩⟩

end SExpr

namespace Registry

/-- Each standard name stands for a factory that respects its limit. -/
theorem forall₂_respects : List.Forall₂ (fun entry limit => entry.1 = limit.1 ∧
    Factory.Respects entry.2 entry.1 limit.2) standard.entries limits :=
  .cons ⟨rfl, Factory.respects_limited _ _ _ _⟩ <|
  .cons ⟨rfl, Factory.respects_none _ _⟩ <|
  .cons ⟨rfl, Factory.respects_limited _ _ _ _⟩ <|
  .cons ⟨rfl, Factory.respects_limited _ _ _ _⟩ <|
  .cons ⟨rfl, Factory.respects_limited _ _ _ _⟩ <|
  .cons ⟨rfl, Factory.respects_limited _ _ _ _⟩ <|
  .cons ⟨rfl, Factory.respects_none _ _⟩ <|
  .cons ⟨rfl, Factory.respects_limited _ _ _ _⟩ .nil

/-- A name has a limit just if it has a factory, which then respects the limit. -/
theorem rel_lookup {entries : List (String × Factory)} {limits : List (String × Option Limit)}
    (h : List.Forall₂ (fun entry limit => entry.1 = limit.1 ∧
      Factory.Respects entry.2 entry.1 limit.2) entries limits) (name : String) :
    Option.Rel (fun factory limit => Factory.Respects factory name limit) (entries.lookup name)
      (limits.lookup name) := by
  induction h with
  | nil => exact .none
  | @cons entry limit entries limits hfirst _ ih =>
      obtain ⟨first, factory⟩ := entry
      obtain ⟨_, bound⟩ := limit
      obtain ⟨rfl, hrespects⟩ := hfirst
      rw [List.lookup_cons, List.lookup_cons]
      by_cases hname : name = first
      · rw [hname, beq_self_eq_true]
        exact .some hrespects
      · rw [beq_eq_false_iff_ne.mpr hname]
        exact ih

variable {name : String}

/-- A name in front of a list is looked up when all arguments are compiled. -/
theorem reports_invoke (hname : variableName? name = none) (ms : List Matcher) :
    Reports (nameDefects name ms.length) (standard.invoke name ms) := by
  have hrel := rel_lookup forall₂_respects name
  rw [nameDefects, hname, invoke, find?]
  generalize standard.entries.lookup name = factory at hrel
  generalize limits.lookup name = limit at hrel
  cases hrel with
  | none => rfl
  | some hrespects => exact hrespects ms

/-- No name takes less than no argument. -/
theorem nameDefects_zero (hname : standard.contains name = true) : nameDefects name 0 = [] := by
  have hrel := rel_lookup forall₂_respects name
  rw [contains, find?] at hname
  rw [nameDefects]
  cases variableName? name with
  | some x => rfl
  | none =>
      generalize standard.entries.lookup name = factory at hrel hname
      generalize limits.lookup name = limit at hrel
      cases hrel with
      | none => exact absurd hname (by simp)
      | some _ => exact Limit.defects_eq_nil_iff.mpr fun l _ => Nat.zero_le l.most

theorem reports_compileSymbol (name : String) : Reports [] (standard.compileSymbol name) := by
  rw [compileSymbol]
  cases hname : variableName? name with
  | some x => rfl
  | none =>
      dsimp only
      split
      next hcontains =>
          rw [← nameDefects_zero hcontains]
          exact reports_invoke hname []
      next => rfl

theorem compileAll_cons (r : Registry) (e : SExpr) (es : List SExpr) :
    r.compileAll (e :: es) =
      (r.compileExpr e).bind fun m => (r.compileAll es).map fun ms => m :: ms := by
  rw [compileAll]
  cases r.compileExpr e with
  | error err => rfl
  | ok m => cases r.compileAll es <;> rfl

theorem compileExpr_of_name (r : Registry) (hname : variableName? name = none) (start offset : Nat)
    (args : List SExpr) :
    r.compileExpr (.list (.symbol name start :: args) offset) =
      (r.compileAll args).bind (r.invoke name) := by
  rw [compileExpr, hname]
  cases r.compileAll args <;> rfl

theorem reports_compileAll {es : List SExpr}
    (h : ∀ e ∈ es, Reports e.defects (standard.compileExpr e)) :
    Reports (SExpr.defectsOfAll es) (standard.compileAll es) := by
  induction es with
  | nil => rfl
  | cons e es ih =>
      rw [List.forall_mem_cons] at h
      rw [compileAll_cons, SExpr.defectsOfAll]
      exact h.1.bind fun m _ => (ih h.2).map _

section Arguments

variable {args : List SExpr} (hargs : ∀ e ∈ args, Reports e.defects (standard.compileExpr e))
  (start offset : Nat)

include hargs

/-- A variable in front of a list is looked at before its argument. -/
theorem reports_capturing {x : String} (hname : variableName? name = some x) :
    Reports (SExpr.defects (.list (.symbol name start :: args) offset))
      (standard.compileExpr (.list (.symbol name start :: args) offset)) := by
  rw [SExpr.defects, variableDefects, nameDefects, compileExpr, hname, List.append_nil]
  cases args with
  | nil => rfl
  | cons inner rest =>
      cases rest with
      | nil =>
          rw [SExpr.defectsOfAll, SExpr.defectsOfAll, List.append_nil]
          exact (hargs inner List.mem_cons_self).map _
      | cons => rfl

/-- Another name in front of a list is looked at after its arguments. -/
theorem reports_made (hname : variableName? name = none) :
    Reports (SExpr.defects (.list (.symbol name start :: args) offset))
      (standard.compileExpr (.list (.symbol name start :: args) offset)) := by
  have hvariable : variableDefects name args.length = [] := by rw [variableDefects, hname]
  rw [compileExpr_of_name _ hname, SExpr.defects, hvariable, List.nil_append]
  refine (reports_compileAll hargs).bind fun ms hms => ?_
  rw [(compileAll_eq_ok_iff.mp hms).length_eq]
  exact reports_invoke hname ms

end Arguments

/-- Compiling reports the defects of a pattern. -/
theorem reports_compileExpr (e : SExpr) : Reports e.defects (standard.compileExpr e) := by
  induction e using SExpr.induction with
  | symbol name offset =>
      rw [SExpr.defects, compileExpr]
      exact reports_compileSymbol name
  | list items offset ih =>
      cases items with
      | nil => rfl
      | cons head args =>
          cases head with
          | list => rfl
          | symbol name start =>
              rw [List.forall_mem_cons] at ih
              cases hname : variableName? name with
              | some x => exact reports_capturing ih.2 start offset hname
              | none => exact reports_made ih.2 start offset hname

/-- A pattern compiles just if each list in it is well formed by itself, and otherwise compiling
fails with the first of its defects: what is wrong with a list or with a variable in front of it
comes before its arguments, these come from left to right, and what is wrong with another name in
front comes after them. -/
theorem compile_reports_first_defect (pattern : String) (e : SExpr)
    (he : SExpr.read pattern.toList = .ok e) :
    ((∃ m, standard.compile pattern = .ok m) ↔ ∀ items ∈ e.lists, SExpr.WellFormed items) ∧
      ∀ err, standard.compile pattern = .error err ↔ e.defects.head? = some err := by
  have hcompile : standard.compile pattern = standard.compileExpr e := by rw [compile, he]
  have hreports := reports_compileExpr e
  rw [hcompile, hreports.exists_eq_ok_iff, SExpr.defects_eq_nil_iff]
  exact ⟨Iff.rfl, fun err => hreports.eq_error_iff⟩

/-- Three lists are defective, and it is the number of arguments of the inner one that is reported:
the name in front of the outer list is looked up last. -/
theorem compile_reports_first_defect_nested :
    standard.compile "(nope (var a b c) ())" = .error (.arity "var" "at most 2" 3) := by
  have hread : SExpr.read "(nope (var a b c) ())".toList = .ok (.list [.symbol "nope" 1,
      .list [.symbol "var" 7, .symbol "a" 11, .symbol "b" 13, .symbol "c" 15] 6,
      .list [] 18] 0) := rfl
  exact ((compile_reports_first_defect _ _ hread).2 _).mpr rfl

end Registry

end Contracts
