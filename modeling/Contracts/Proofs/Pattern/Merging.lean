import Contracts.Pattern.Bindings
import Mathlib.Data.List.Nodup

/-!
# Merging bindings

Merging goes through the second set and inserts its names one after the other. What
comes out is said at once by `Bindings.merge?_eq_some_iff`: two sets can be merged
just if they agree, and then the result is their union, which has the names of the
first set followed by the new ones of the second, and keeps what the first set binds.
-/

namespace Contracts

namespace Bindings

section FirstAppearances

theorem filter_eraseDups (p : String → Bool) (xs : List String) :
    xs.eraseDups.filter p = (xs.filter p).eraseDups := by
  match xs with
  | [] => rfl
  | x :: xs =>
      have hshorter : (xs.filter fun y => !y == x).length ≤ xs.length :=
        List.length_filter_le _ xs
      have hrest := filter_eraseDups p (xs.filter fun y => !y == x)
      rw [List.eraseDups_cons, List.filter_cons, List.filter_cons, hrest]
      split
      next => rw [List.eraseDups_cons, List.filter_comm]
      next hx =>
          congr 1
          rw [List.filter_filter]
          refine List.filter_congr fun y _ => ?_
          by_cases hy : y = x
          · simp [hy, hx]
          · simp [hy]
termination_by xs.length

theorem eraseDups_eq_self {xs : List String} (h : xs.Nodup) : xs.eraseDups = xs := by
  induction xs with
  | nil => rfl
  | cons x xs ih =>
      rw [List.nodup_cons] at h
      have hfilter : (xs.filter fun y => !y == x) = xs := by
        refine List.filter_eq_self.mpr fun y hy => ?_
        simpa using ne_of_mem_of_not_mem hy h.1
      rw [List.eraseDups_cons, hfilter, ih h.2]

theorem nodup_eraseDups (xs : List String) : xs.eraseDups.Nodup := by
  match xs with
  | [] => exact List.nodup_nil
  | x :: xs =>
      have hshorter : (xs.filter fun y => !y == x).length ≤ xs.length :=
        List.length_filter_le _ xs
      rw [List.eraseDups_cons, List.nodup_cons, List.mem_eraseDups]
      exact ⟨by simp, nodup_eraseDups _⟩
termination_by xs.length

/-- Repetitions may be left out on both sides before two lists are put together. -/
theorem eraseDups_append_eraseDups (xs ys : List String) :
    (xs.eraseDups ++ ys.eraseDups).eraseDups = (xs ++ ys).eraseDups := by
  have hremove : ys.eraseDups.removeAll xs.eraseDups = (ys.removeAll xs).eraseDups := by
    rw [List.removeAll, List.removeAll, ← filter_eraseDups]
    refine List.filter_congr fun y _ => ?_
    simp
  rw [List.eraseDups_append, List.eraseDups_append, hremove,
    eraseDups_eq_self (nodup_eraseDups _), eraseDups_eq_self (nodup_eraseDups _)]

end FirstAppearances

variable {a b c : Bindings} {name other : String} {n : Node}

theorem mem_names_iff : name ∈ b.names ↔ ∃ n, b.get? name = some n := by
  rw [← Option.isSome_iff_exists, get?, List.lookup_isSome_iff, names, List.mem_map]
  exact exists_congr fun e => and_congr_right fun _ => by rw [beq_iff_eq, eq_comm]

theorem get?_single_of_ne (h : other ≠ name) (n : Node) :
    (single name n).get? other = none := by
  rw [get?, entries_single, List.lookup_cons, beq_eq_false_iff_ne.mpr h]
  rfl

theorem eraseDups_names (b : Bindings) : b.names.eraseDups = b.names :=
  eraseDups_eq_self b.nodup

theorem names_add (b : Bindings) (name : String) (n : Node) :
    (b.add name n).names = (b.names ++ [name]).eraseDups := by
  rw [List.eraseDups_append, eraseDups_names]
  by_cases h : name ∈ b.names
  · rw [add_of_mem h]
    simp [List.removeAll, h]
  · have hnew : [name].removeAll b.names = [name] := by
      simp [List.removeAll, h]
    rw [hnew, eraseDups_eq_self (List.nodup_singleton name), names, entries_add_of_not_mem h,
      List.map_append]
    rfl

/-- A name that was bound keeps its node. -/
theorem get?_add (b : Bindings) (name : String) (n : Node) (other : String) :
    (b.add name n).get? other = (b.get? other).or ((single name n).get? other) := by
  by_cases h : name ∈ b.names
  · rw [add_of_mem h]
    by_cases hother : other = name
    · obtain ⟨m, hm⟩ := mem_names_iff.mp h
      rw [hother, hm]
      rfl
    · rw [get?_single_of_ne hother, Option.or_none]
  · rw [get?, entries_add_of_not_mem h, List.lookup_append]
    rfl

theorem allows_iff : b.allows name n = true ↔ ∀ m, b.get? name = some m → m.same n = true := by
  rw [allows]
  cases b.get? name <;> simp

theorem insert?_eq_some_iff :
    b.insert? name n = some c ↔ b.allows name n = true ∧ b.add name n = c := by
  rw [insert?]
  split
  next h => simp [h]
  next h => simp [h]

/-- A name is allowed after another one was bound as it was before. -/
theorem allows_add (h : other ≠ name) (m : Node) :
    (b.add name n).allows other m = b.allows other m := by
  rw [allows, allows, get?_add, get?_single_of_ne h, Option.or_none]

/-- No name is bound to different nodes. -/
def Agree (a b : Bindings) : Prop :=
  ∀ name m n, a.get? name = some m → b.get? name = some n → m.same n = true

/-- The bindings of `a`, and those of `b` whose names `a` does not have. -/
def union (a b : Bindings) : Bindings :=
  b.entries.foldl (fun c e => c.add e.1 e.2) a

/-- Entries are inserted just if all of them are allowed at the start, since no name
comes twice among them. -/
theorem foldlM_insert?_eq_some_iff {entries : List (String × Node)}
    (h : (entries.map Prod.fst).Nodup) :
    entries.foldlM (fun c (name, n) => c.insert? name n) a = some c ↔
      (∀ e ∈ entries, a.allows e.1 e.2 = true) ∧
        entries.foldl (fun c e => c.add e.1 e.2) a = c := by
  induction entries generalizing a with
  | nil => simp
  | cons e entries ih =>
      obtain ⟨name, n⟩ := e
      rw [List.map_cons, List.nodup_cons] at h
      have hallows : ∀ e ∈ entries, (a.add name n).allows e.1 e.2 = a.allows e.1 e.2 := by
        intro e he
        refine allows_add ?_ e.2
        exact ne_of_mem_of_not_mem (List.mem_map_of_mem he) h.1
      have hrest : (∀ e ∈ entries, (a.add name n).allows e.1 e.2 = true) ↔
          ∀ e ∈ entries, a.allows e.1 e.2 = true :=
        forall₂_congr fun e he => by rw [hallows e he]
      rw [List.foldlM_cons, List.foldl_cons, List.forall_mem_cons]
      simp only [Option.bind_eq_bind, Option.bind_eq_some_iff, insert?_eq_some_iff, and_assoc,
        exists_and_left, exists_eq_left', ih h.2, hrest]

theorem get?_eq_some_iff : b.get? name = some n ↔ (name, n) ∈ b.entries := by
  rw [get?]
  generalize hentries : b.entries = entries
  have hnodup : (entries.map Prod.fst).Nodup := hentries ▸ b.nodup
  clear hentries
  induction entries with
  | nil => simp
  | cons e entries ih =>
      obtain ⟨first, m⟩ := e
      rw [List.map_cons, List.nodup_cons] at hnodup
      rw [List.lookup_cons, List.mem_cons, Prod.mk.injEq]
      by_cases h : name = first
      · subst h
        have hfirst : (name, n) ∉ entries := by
          intro hmem
          exact hnodup.1 (List.mem_map.mpr ⟨(name, n), hmem, rfl⟩)
        simp [hfirst, eq_comm]
      · rw [beq_eq_false_iff_ne.mpr h]
        simp [h, ih hnodup.2]

/-- Two sets of bindings can be merged just if they agree, and what comes out is their union. -/
theorem merge?_eq_some_iff : a.merge? b = some c ↔ a.Agree b ∧ a.union b = c := by
  have hagree : (∀ e ∈ b.entries, a.allows e.1 e.2 = true) ↔ a.Agree b := by
    simp only [allows_iff, Prod.forall, ← get?_eq_some_iff]
    exact ⟨fun h name m n hm hn => h name n hn m hm, fun h name n hn m hm => h name m n hm hn⟩
  rw [merge?, foldlM_insert?_eq_some_iff b.nodup, hagree]
  rfl

/-- The names of the first set come first, and those of the second one that are new after them. -/
theorem names_union (a b : Bindings) : (a.union b).names = (a.names ++ b.names).eraseDups := by
  have hentries : ∀ (entries : List (String × Node)) (a : Bindings),
      (entries.foldl (fun c e => c.add e.1 e.2) a).names =
        (a.names ++ entries.map Prod.fst).eraseDups := by
    intro entries
    induction entries with
    | nil =>
        intro a
        simp [eraseDups_names]
    | cons e entries ih =>
        intro a
        have hsplit : a.names ++ (e :: entries).map Prod.fst =
            (a.names ++ [e.1]) ++ entries.map Prod.fst := by simp
        rw [List.foldl_cons, ih, names_add, hsplit, ← eraseDups_append_eraseDups,
          eraseDups_eq_self (nodup_eraseDups _), eraseDups_append_eraseDups]
  exact hentries b.entries a

/-- What the first set binds is kept. -/
theorem get?_union (a b : Bindings) (name : String) :
    (a.union b).get? name = (a.get? name).or (b.get? name) := by
  have hentries : ∀ (entries : List (String × Node)) (a : Bindings),
      (entries.foldl (fun c e => c.add e.1 e.2) a).get? name =
        (a.get? name).or (List.lookup name entries) := by
    intro entries
    induction entries with
    | nil =>
        intro a
        simp
    | cons e entries ih =>
        intro a
        have hsplit : List.lookup name ([e] ++ entries) =
            (List.lookup name [e]).or (List.lookup name entries) := List.lookup_append
        rw [List.foldl_cons, ih, get?_add, Option.or_assoc, ← List.singleton_append, hsplit]
        rfl
  exact hentries b.entries a

end Bindings

end Contracts
