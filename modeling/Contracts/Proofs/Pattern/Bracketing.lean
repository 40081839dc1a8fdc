import Contracts.Pattern.Matcher
import Contracts.Proofs.Pattern.Merging

/-!
# Merging in any order of brackets

Two sets of bindings agree if no name is bound to different nodes in them, and where
they agree their merging is their union: the entries of the first set, followed by
those of the second whose names are new (`Bindings.entries_union`). Whether three sets
can be merged does not depend on the brackets, because being one node is an
equivalence: the node that the first of them has for a name speaks for all of them
(`Bindings.agree_union_iff`).

Bindings are compared here in two ways. Up to their order they are compared by what
they bind a name to, where nodes count as equal if they are one node
(`Bindings.Equivalent`); in all other statements they are compared entry by entry.
-/

namespace Contracts

/-- A way to set brackets in a list, which has at least one element then. -/
inductive Bracketing (α : Type) where
  | single (a : α)
  | pair (left right : Bracketing α)

/-- The list without the brackets. -/
def Bracketing.toList {α : Type} : Bracketing α → List α
  | single a => [a]
  | pair left right => left.toList ++ right.toList

namespace Bindings

variable {a b c : Bindings} {name : String}

@[ext]
theorem ext_entries (h : a.entries = b.entries) : a = b := by
  cases a
  cases b
  cases h
  rfl

section Union

/-- The entries of the first set come first, and those of the second one that are new after them. -/
theorem entries_union (a b : Bindings) :
    (a.union b).entries = a.entries ++ b.entries.filter fun e => decide (e.1 ∉ a.names) := by
  have hentries : ∀ (entries : List (String × Node)) (a : Bindings),
      (entries.map Prod.fst).Nodup →
        (entries.foldl (fun c e => c.add e.1 e.2) a).entries =
          a.entries ++ entries.filter fun e => decide (e.1 ∉ a.names) := by
    intro entries
    induction entries with
    | nil =>
        intro a _
        simp
    | cons e entries ih =>
        intro a hnodup
        rw [List.map_cons, List.nodup_cons] at hnodup
        rw [List.foldl_cons, ih _ hnodup.2]
        by_cases hold : e.1 ∈ a.names
        · rw [add_of_mem hold, List.filter_cons_of_neg (by simpa using hold)]
        · -- The name that was added is not among the later ones.
          have hnames : (a.add e.1 e.2).names = a.names ++ [e.1] := by
            rw [names, entries_add_of_not_mem hold, List.map_append]
            rfl
          have hrest : (entries.filter fun d => decide (d.1 ∉ (a.add e.1 e.2).names)) =
              entries.filter fun d => decide (d.1 ∉ a.names) := by
            refine List.filter_congr fun d hd => ?_
            have hne : d.1 ≠ e.1 := ne_of_mem_of_not_mem (List.mem_map_of_mem hd) hnodup.1
            simp [hnames, hne]
          rw [entries_add_of_not_mem hold, List.filter_cons_of_pos (by simpa using hold), hrest,
            List.append_assoc, List.singleton_append]
  exact hentries b.entries a b.nodup

theorem mem_names_union : name ∈ (a.union b).names ↔ name ∈ a.names ∨ name ∈ b.names := by
  rw [names_union, List.mem_eraseDups, List.mem_append]

theorem union_assoc (a b c : Bindings) : (a.union b).union c = a.union (b.union c) := by
  refine ext_entries ?_
  rw [entries_union, entries_union, entries_union a, entries_union b, List.filter_append,
    List.filter_filter, List.append_assoc]
  congr 2
  refine List.filter_congr fun e _ => ?_
  rw [← Bool.decide_and]
  exact decide_eq_decide.mpr (by rw [mem_names_union, not_or])

@[simp]
theorem empty_union (a : Bindings) : empty.union a = a := by
  refine ext_entries ?_
  rw [entries_union, entries_empty, List.nil_append]
  exact List.filter_eq_self.mpr fun e _ => by simp [names]

@[simp]
theorem union_self (a : Bindings) : a.union a = a := by
  refine ext_entries ?_
  have hold : a.entries.filter (fun e => decide (e.1 ∉ a.names)) = [] := by
    refine List.filter_eq_nil_iff.mpr fun e he => ?_
    have hmem : e.1 ∈ a.names := List.mem_map_of_mem he
    simp [hmem]
  rw [entries_union, hold, List.append_nil]

end Union

section Agreement

theorem agree_empty (a : Bindings) : empty.Agree a :=
  fun _ _ _ h => absurd h (by simp [get?])

theorem agree_self (a : Bindings) : a.Agree a := by
  intro name m n hm hn
  obtain rfl := Option.some.inj (hm.symm.trans hn)
  exact m.same_refl

theorem Agree.symm (h : a.Agree b) : b.Agree a := by
  intro name n m hn hm
  rw [Node.same_comm]
  exact h name m n hm hn

/-- Three sets agree in the one order of brackets just if they do so in the other one. -/
theorem agree_union_iff :
    a.Agree b ∧ (a.union b).Agree c ↔ b.Agree c ∧ a.Agree (b.union c) := by
  simp only [Agree, get?_union]
  constructor
  · rintro ⟨hab, habc⟩
    refine ⟨fun name m n hm hn => ?_, fun name m n hm hn => ?_⟩
    · cases ha : a.get? name with
      | none => exact habc name m n (by rw [ha, hm]; rfl) hn
      | some k =>
          have hkm : k.same m = true := hab name k m ha hm
          have hkn : k.same n = true := habc name k n (by rw [ha]; rfl) hn
          exact Node.same_trans (by rwa [Node.same_comm]) hkn
    · cases hb : b.get? name with
      | none =>
          rw [hb, Option.none_or] at hn
          exact habc name m n (by rw [hm]; rfl) hn
      | some k =>
          rw [hb, Option.some_or] at hn
          exact Option.some.inj hn ▸ hab name m k hm hb
  · rintro ⟨hbc, habc⟩
    refine ⟨fun name m n hm hn => ?_, fun name m n hm hn => ?_⟩
    · exact habc name m n hm (by rw [hn]; rfl)
    · cases ha : a.get? name with
      | none =>
          rw [ha, Option.none_or] at hm
          exact hbc name m n hm hn
      | some k =>
          rw [ha, Option.some_or] at hm
          obtain rfl := Option.some.inj hm
          cases hb : b.get? name with
          | none => exact habc name k n ha (by rw [hb, hn]; rfl)
          | some l =>
              have hkl : k.same l = true := habc name k l ha (by rw [hb]; rfl)
              exact Node.same_trans hkl (hbc name l n hb hn)

end Agreement

section Merging

theorem merge?_of_agree (h : a.Agree b) : a.merge? b = some (a.union b) :=
  merge?_eq_some_iff.mpr ⟨h, rfl⟩

theorem isSome_merge?_iff : (a.merge? b).isSome = true ↔ a.Agree b := by
  rw [Option.isSome_iff_exists]
  exact ⟨fun ⟨_, h⟩ => (merge?_eq_some_iff.mp h).1, fun h => ⟨_, merge?_of_agree h⟩⟩

theorem empty_merge? (a : Bindings) : empty.merge? a = some a := by
  rw [merge?_of_agree (agree_empty a), empty_union]

theorem merge?_self (a : Bindings) : a.merge? a = some a := by
  rw [merge?_of_agree (agree_self a), union_self]

/-- Merging is associative, and it fails for the one order of brackets just if it does so for the
other one. -/
theorem merge?_assoc (a b c : Bindings) :
    (a.merge? b).bind (fun ab => ab.merge? c) = (b.merge? c).bind fun bc => a.merge? bc := by
  ext d
  simp only [Option.bind_eq_some_iff, merge?_eq_some_iff]
  constructor
  · rintro ⟨_, ⟨hab, rfl⟩, habc, rfl⟩
    obtain ⟨hbc, habc⟩ := agree_union_iff.mp ⟨hab, habc⟩
    exact ⟨_, ⟨hbc, rfl⟩, habc, (union_assoc a b c).symm⟩
  · rintro ⟨_, ⟨hbc, rfl⟩, habc, rfl⟩
    obtain ⟨hab, habc⟩ := agree_union_iff.mpr ⟨hbc, habc⟩
    exact ⟨_, ⟨hab, rfl⟩, habc, union_assoc a b c⟩

/-- The same names are bound, each to one node in both sets. -/
def Equivalent (a b : Bindings) : Prop :=
  ∀ name, Option.Rel (fun m n => m.same n = true) (a.get? name) (b.get? name)

theorem Agree.equivalent_union (h : a.Agree b) : (a.union b).Equivalent (b.union a) := by
  intro name
  rw [get?_union, get?_union]
  cases ha : a.get? name with
  | none =>
      rw [Option.none_or, Option.or_none]
      cases b.get? name with
      | none => exact .none
      | some n => exact .some n.same_refl
  | some m =>
      cases hb : b.get? name with
      | none => exact .some m.same_refl
      | some n => exact .some (h name m n ha hb)

/-- The order of two sets does not count for whether they can be merged, nor for what their names
are bound to. -/
theorem merge?_comm (a b : Bindings) : Option.Rel Equivalent (a.merge? b) (b.merge? a) := by
  by_cases h : a.Agree b
  · rw [merge?_of_agree h, merge?_of_agree h.symm]
    exact .some h.equivalent_union
  · have hab : a.merge? b = none := by
      rw [← Option.not_isSome_iff_eq_none, isSome_merge?_iff]
      exact h
    have hba : b.merge? a = none := by
      rw [← Option.not_isSome_iff_eq_none, isSome_merge?_iff]
      exact fun hba => h hba.symm
    rw [hab, hba]
    exact .none

end Merging

end Bindings

namespace Matcher

/-- Match each node with its matcher, and merge what they bind along the brackets. -/
def matchWithin : Bracketing (Matcher × Node) → Option Bindings
  | .single (m, n) => m n
  | .pair left right =>
    (matchWithin left).bind fun a => (matchWithin right).bind fun b => a.merge? b

theorem matchAll_cons (acc : Bindings) (m : Matcher) (n : Node) (rest : List (Matcher × Node)) :
    matchAll acc ((m, n) :: rest) =
      ((m n).bind fun b => acc.merge? b).bind fun merged => matchAll merged rest := by
  rw [matchAll]
  cases m n with
  | none => rfl
  | some b =>
      dsimp only [Option.bind_some]
      cases acc.merge? b <;> rfl

theorem matchAll_append (acc : Bindings) (xs ys : List (Matcher × Node)) :
    matchAll acc (xs ++ ys) = (matchAll acc xs).bind fun merged => matchAll merged ys := by
  induction xs generalizing acc with
  | nil => rfl
  | cons x xs ih =>
      rw [List.cons_append, matchAll_cons, matchAll_cons]
      simp only [ih, Option.bind_assoc]

/-- What was bound before is merged with what the brackets give. -/
theorem matchAll_toList (pairs : Bracketing (Matcher × Node)) (acc : Bindings) :
    matchAll acc pairs.toList = (matchWithin pairs).bind fun b => acc.merge? b := by
  induction pairs generalizing acc with
  | single pair =>
      obtain ⟨m, n⟩ := pair
      rw [Bracketing.toList, matchAll_cons, matchWithin]
      exact Option.bind_fun_some _
  | pair left right ihl ihr =>
      -- The two halves are merged into what was bound one after the other, and so they may be
      -- merged with each other first.
      rw [Bracketing.toList, matchAll_append, ihl, matchWithin]
      simp only [ihr]
      cases matchWithin left with
      | none => rfl
      | some a =>
          cases matchWithin right with
          | none =>
              dsimp only [Option.bind_some, Option.bind_none]
              cases acc.merge? a <;> rfl
          | some b => exact Bindings.merge?_assoc acc a b

end Matcher

/-- Bindings with their merging form a partial monoid, in which every element is idempotent. Two
sets can be merged just if each name that both have is bound to one node in them, in either order
and to the same nodes; what comes out has the entries of the first set, followed by the new ones of
the second. So matching nodes one after the other gives what merging gives for any brackets. -/
theorem Bindings.merge?_partialMonoid (a b c : Bindings) :
    (a.merge? b).bind (fun ab => ab.merge? c) = ((b.merge? c).bind fun bc => a.merge? bc) ∧
      empty.merge? a = some a ∧ a.merge? empty = some a ∧ a.merge? a = some a ∧
      ((a.merge? b).isSome = true ↔
        ∀ name m n, a.get? name = some m → b.get? name = some n → m.same n = true) ∧
      Option.Rel Equivalent (a.merge? b) (b.merge? a) ∧
      (∀ ab, a.merge? b = some ab →
        ab.entries = a.entries ++ b.entries.filter fun e => decide (e.1 ∉ a.names)) ∧
      Matcher.matchAll empty [] = some empty ∧
      ∀ pairs : Bracketing (Matcher × Node),
        Matcher.matchAll empty pairs.toList = Matcher.matchWithin pairs := by
  refine ⟨merge?_assoc a b c, empty_merge? a, merge?_empty a, merge?_self a, isSome_merge?_iff,
    merge?_comm a b, fun ab hab => ?_, rfl, fun pairs => ?_⟩
  · obtain ⟨-, rfl⟩ := merge?_eq_some_iff.mp hab
    exact entries_union a b
  · rw [Matcher.matchAll_toList]
    simp only [empty_merge?, Option.bind_fun_some]

end Contracts
