import Contracts.Directive.Scope
import Mathlib.Data.List.Nodup

/-!
# Where the scopes of a script are

Scopes go by their numbers in the passes of this library. Here each scope is
listed together with its path: the numbers of the children that lead from the
script to the block, and nothing for the script itself. The lists are made in
one go, so that the scope with a number and the path with the same number belong
together (`Script.map_snd_locatedScopes`), and no path occurs twice
(`Script.nodup_scopePaths`).
-/

namespace Contracts

theorem Scope.ofTree_node (f : Form) (s : Span) (cs : List Tree) (depth : Nat) :
    ofTree (.node f s cs) depth =
      if f.isScope then ⟨s, depth + 1⟩ :: cs.flatMap fun c => ofTree c (depth + 1)
      else cs.flatMap fun c => ofTree c depth := by
  rw [ofTree, Tree.fold_node, List.flatMap_map, List.flatMap_map]
  rfl

namespace Tree

theorem mapIdx_map {α β γ : Type} (f : Nat → β → γ) (g : α → β) (l : List α) :
    (l.map g).mapIdx f = l.mapIdx fun i a => f i (g a) :=
  List.ext_getElem (by simp) (by simp)

/-- The scopes in a tree that stands at a path and a depth, each with its own path. -/
def locatedScopes (t : Tree) : List Nat → Nat → List (List Nat × Scope) :=
  t.fold fun f s _ below path depth =>
    if f.isScope then
      (path, ⟨s, depth + 1⟩) :: (below.mapIdx fun i g => g (path ++ [i]) (depth + 1)).flatten
    else (below.mapIdx fun i g => g (path ++ [i]) depth).flatten

/-- The same for a list of trees, of which the one with number `i` stands at `q i`. -/
def locatedBelow (cs : List Tree) (q : Nat → List Nat) (depth : Nat) :
    List (List Nat × Scope) :=
  (cs.mapIdx fun i c => c.locatedScopes (q i) depth).flatten

theorem locatedBelow_cons (c : Tree) (cs : List Tree) (q : Nat → List Nat) (depth : Nat) :
    locatedBelow (c :: cs) q depth =
      c.locatedScopes (q 0) depth ++ locatedBelow cs (fun i => q (i + 1)) depth := by
  rw [locatedBelow, List.mapIdx_cons, List.flatten_cons]
  rfl

theorem locatedScopes_node (f : Form) (s : Span) (cs : List Tree) (path : List Nat)
    (depth : Nat) :
    (node f s cs).locatedScopes path depth =
      if f.isScope then (path, ⟨s, depth + 1⟩) :: locatedBelow cs (fun i => path ++ [i]) (depth + 1)
      else locatedBelow cs (fun i => path ++ [i]) depth := by
  rw [locatedScopes, fold_node, mapIdx_map, mapIdx_map]
  rfl

theorem map_snd_locatedBelow {cs : List Tree}
    (h : ∀ c ∈ cs, ∀ path depth, (c.locatedScopes path depth).map Prod.snd = Scope.ofTree c depth)
    (q : Nat → List Nat) (depth : Nat) :
    (locatedBelow cs q depth).map Prod.snd = cs.flatMap fun c => Scope.ofTree c depth := by
  induction cs generalizing q with
  | nil => rfl
  | cons c cs ih =>
      rw [List.forall_mem_cons] at h
      rw [locatedBelow_cons, List.map_append, h.1, ih h.2, List.flatMap_cons]

theorem map_snd_locatedScopes (t : Tree) (path : List Nat) (depth : Nat) :
    (t.locatedScopes path depth).map Prod.snd = Scope.ofTree t depth := by
  induction t using Tree.induction generalizing path depth with
  | h f s cs ih =>
      rw [locatedScopes_node, Scope.ofTree_node]
      split
      next => rw [List.map_cons, map_snd_locatedBelow ih]
      next => exact map_snd_locatedBelow ih _ depth

/-- The paths of scopes lead through the place of their tree. -/
theorem exists_prefix_of_mem_locatedBelow {cs : List Tree}
    (h : ∀ c ∈ cs, ∀ path depth, ∀ p ∈ c.locatedScopes path depth, path <+: p.1)
    {q : Nat → List Nat} {depth : Nat} {p : List Nat × Scope} (hp : p ∈ locatedBelow cs q depth) :
    ∃ i, q i <+: p.1 := by
  induction cs generalizing q with
  | nil => exact absurd hp (by simp [locatedBelow])
  | cons c cs ih =>
      rw [List.forall_mem_cons] at h
      rw [locatedBelow_cons, List.mem_append] at hp
      rcases hp with hp | hp
      · exact ⟨0, h.1 _ depth p hp⟩
      · obtain ⟨i, hi⟩ := ih h.2 hp
        exact ⟨i + 1, hi⟩

theorem prefix_of_mem_locatedScopes (t : Tree) (path : List Nat) (depth : Nat) :
    ∀ p ∈ t.locatedScopes path depth, path <+: p.1 := by
  induction t using Tree.induction generalizing path depth with
  | h f s cs ih =>
      have hbelow : ∀ depth, ∀ p ∈ locatedBelow cs (fun i => path ++ [i]) depth, path <+: p.1 := by
        intro depth p hp
        obtain ⟨i, hi⟩ := exists_prefix_of_mem_locatedBelow ih hp
        exact (List.prefix_append path [i]).trans hi
      rw [locatedScopes_node]
      split
      next =>
          rw [List.forall_mem_cons]
          exact ⟨List.prefix_rfl, hbelow _⟩
      next => exact hbelow depth

/-- Two different children have no scope in common. -/
theorem eq_of_append_prefix {path p : List Nat} {i j : Nat} (hi : path ++ [i] <+: p)
    (hj : path ++ [j] <+: p) : i = j := by
  have hprefix : path ++ [i] <+: path ++ [j] := List.prefix_of_prefix_length_le hi hj (by simp)
  simpa using hprefix.eq_of_length (by simp)

theorem nodup_locatedBelow {cs : List Tree}
    (h : ∀ c ∈ cs, ∀ path depth, ((c.locatedScopes path depth).map Prod.fst).Nodup)
    {q : Nat → List Nat} (hq : ∀ i j p, q i <+: p → q j <+: p → i = j) (depth : Nat) :
    ((locatedBelow cs q depth).map Prod.fst).Nodup := by
  induction cs generalizing q with
  | nil => exact List.nodup_nil
  | cons c cs ih =>
      rw [List.forall_mem_cons] at h
      rw [locatedBelow_cons, List.map_append, List.nodup_append]
      refine ⟨h.1 _ depth, ih h.2 fun i j p hi hj => ?_, ?_⟩
      · simpa using hq _ _ p hi hj
      -- A scope of the head and one of the tail stand below different children.
      · intro a ha b hb hab
        obtain ⟨p, hp, rfl⟩ := List.mem_map.mp ha
        obtain ⟨p', hp', rfl⟩ := List.mem_map.mp hb
        obtain ⟨i, hi⟩ := exists_prefix_of_mem_locatedBelow
          (fun c _ => prefix_of_mem_locatedScopes c) hp'
        rw [← hab] at hi
        exact absurd (hq _ _ _ (prefix_of_mem_locatedScopes c _ depth p hp) hi) (by simp)

theorem nodup_locatedScopes (t : Tree) (path : List Nat) (depth : Nat) :
    ((t.locatedScopes path depth).map Prod.fst).Nodup := by
  induction t using Tree.induction generalizing path depth with
  | h f s cs ih =>
      have hbelow := nodup_locatedBelow ih (q := fun i => path ++ [i])
        fun i j p => eq_of_append_prefix
      rw [locatedScopes_node]
      split
      next =>
          rw [List.map_cons, List.nodup_cons]
          refine ⟨?_, hbelow _⟩
          intro hpath
          obtain ⟨p, hp, rfl⟩ := List.mem_map.mp hpath
          obtain ⟨i, hi⟩ := exists_prefix_of_mem_locatedBelow
            (fun c _ => prefix_of_mem_locatedScopes c) hp
          exact absurd hi.length_le (by simp)
      next => exact hbelow depth

end Tree

namespace Script

/-- All scopes of a script with their paths, by their numbers. -/
def locatedScopes (script : Script) : List (List Nat × Scope) :=
  ([], ⟨script.span, 0⟩) :: Tree.locatedBelow script.body (fun i => [i]) 0

/-- The paths of the scopes of a script, by their numbers. -/
def scopePaths (script : Script) : List (List Nat) :=
  script.locatedScopes.map Prod.fst

/-- The scopes come in the order of their numbers. -/
theorem map_snd_locatedScopes (script : Script) :
    script.locatedScopes.map Prod.snd = Scope.ofScript script := by
  rw [locatedScopes, List.map_cons,
    Tree.map_snd_locatedBelow (fun c _ => c.map_snd_locatedScopes), Scope.ofScript]

theorem length_scopePaths (script : Script) :
    script.scopePaths.length = (Scope.ofScript script).length := by
  rw [scopePaths, List.length_map, ← map_snd_locatedScopes, List.length_map]

/-- A path belongs to one scope only. -/
theorem nodup_scopePaths (script : Script) : script.scopePaths.Nodup := by
  rw [scopePaths, locatedScopes, List.map_cons, List.nodup_cons]
  constructor
  · intro hpath
    obtain ⟨p, hp, hnil⟩ := List.mem_map.mp hpath
    obtain ⟨i, hi⟩ := Tree.exists_prefix_of_mem_locatedBelow
      (fun c _ => c.prefix_of_mem_locatedScopes) hp
    rw [hnil] at hi
    exact absurd hi.length_le (by simp)
  · exact Tree.nodup_locatedBelow (fun c _ => c.nodup_locatedScopes)
      (fun i j p => @Tree.eq_of_append_prefix [] p i j) 0

end Script

end Contracts
