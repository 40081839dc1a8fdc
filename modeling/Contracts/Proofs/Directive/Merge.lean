import Contracts.Proofs.Directive.Growth
import Contracts.Proofs.Directive.Located
import Contracts.Proofs.Syntax.Everywhere

/-!
# Inserting directives is merging

Putting statements into a list one after the other, each in front of the first
that does not start before it, is merging them in, as long as they come by
ascending starts (`splice_eq_merge`). `Script.merged` merges into every scope of
a script the statements of the directives that belong there, and tells the
scopes apart by their paths. The pass finds the same scopes by counting blocks,
in the order in which they were listed (`intoTree_eq`).
-/

namespace Contracts

namespace Scope

theorem consider_eq (span : Span) (best : Option (Scope × Nat)) (a : Scope) (i : Nat) :
    consider span best a i = best ∨ consider span best a i = some (a, i) := by
  unfold consider
  split
  next =>
      split
      next b j =>
          split
          next => exact .inr rfl
          next => exact .inl rfl
      next => exact .inr rfl
  next => exact .inl rfl

/-- The best scope is one of those that were considered. -/
theorem foldl_consider_lt {span : Span} {n : Nat} {l : List (Scope × Nat)}
    (hl : ∀ p ∈ l, p.2 < n) {best : Option (Scope × Nat)} (hbest : ∀ p ∈ best, p.2 < n) :
    ∀ p ∈ l.foldl (fun best (a, i) => consider span best a i) best, p.2 < n := by
  induction l generalizing best with
  | nil => exact hbest
  | cons a l ih =>
      rw [List.forall_mem_cons] at hl
      have hstep : ∀ p ∈ consider span best a.1 a.2, p.2 < n := by
        rcases consider_eq span best a.1 a.2 with h | h
        · rw [h]
          exact hbest
        · rw [h]
          rintro p ⟨⟩
          exact hl.1
      exact ih hl.2 hstep

theorem target_lt {scopes : List Scope} (h : scopes ≠ []) (span : Span) :
    target scopes span < scopes.length := by
  have hindex : ∀ p ∈ scopes.zipIdx, p.2 < scopes.length := by
    rintro ⟨a, i⟩ hp
    simpa using List.snd_lt_of_mem_zipIdx hp
  rw [target]
  split
  next b i heq => exact foldl_consider_lt hindex (by simp) (b, i) heq
  next => exact List.length_pos_iff.mpr h

end Scope

namespace Tree

/-- Whether a statement does not start after another one. -/
def startsBy (a b : Tree) : Bool :=
  a.span.lo ≤ b.span.lo

/-- The tree that stands at a path, with statements merged into its scopes, which
are given by their paths. -/
def merged (assigned : List Nat → List Tree) (t : Tree) : List Nat → Tree :=
  t.fold fun f s _ below path =>
    let children := below.mapIdx fun i g => g (path ++ [i])
    .node f s (if f.isScope then List.merge (assigned path) children startsBy else children)

theorem merged_node (assigned : List Nat → List Tree) (f : Form) (s : Span) (cs : List Tree)
    (path : List Nat) :
    (node f s cs).merged assigned path =
      let children := cs.mapIdx fun i c => c.merged assigned (path ++ [i])
      node f s (if f.isScope then List.merge (assigned path) children startsBy else children) := by
  rw [merged, fold_node]
  simp only [mapIdx_map]
  rfl

theorem span_merged (assigned : List Nat → List Tree) (t : Tree) (path : List Nat) :
    (t.merged assigned path).span = t.span := by
  obtain ⟨f, s, cs⟩ := t
  rw [merged_node]
  rfl

theorem merged_nil (t : Tree) (path : List Nat) : t.merged (fun _ => []) path = t := by
  induction t using Tree.induction generalizing path with
  | h f s cs ih =>
      have hchildren : (cs.mapIdx fun i c => c.merged (fun _ => []) (path ++ [i])) = cs := by
        refine List.ext_getElem (by simp) fun i hi hi' => ?_
        rw [List.getElem_mapIdx]
        exact ih _ (List.getElem_mem hi') _
      rw [merged_node]
      simp only [hchildren, List.nil_merge, ite_self]

end Tree

namespace Insertion

/-- What starts before all statements that are put into a list stays in front. -/
theorem splice_cons {t : Tree} {statements : List Tree}
    (h : ∀ d ∈ statements, t.span.lo < d.span.lo) (body : List Tree) :
    splice (t :: body) statements = t :: splice body statements := by
  induction statements generalizing body with
  | nil => rfl
  | cons d ds ih =>
      rw [List.forall_mem_cons] at h
      have hplace : place d (t :: body) = t :: place d body := by
        rw [place, if_neg (by omega)]
      have hcons : ∀ body, splice body (d :: ds) = splice (place d body) ds := fun _ => rfl
      rw [hcons, hcons, hplace, ih h.2]

/-- Statements that come by ascending starts are merged into a list. -/
theorem splice_eq_merge {statements : List Tree}
    (h : statements.Pairwise fun a b => a.span.lo < b.span.lo) (body : List Tree) :
    splice body statements = List.merge statements body Tree.startsBy := by
  have hcons : ∀ d ds body, splice body (d :: ds) = splice (place d body) ds := fun _ _ _ => rfl
  induction statements generalizing body with
  | nil => rw [List.nil_merge]; rfl
  | cons d ds ihd =>
      have hds := List.pairwise_cons.mp h
      -- Where `d` goes is found by a second induction, on the list that it is put into.
      induction body with
      | nil =>
          have hplace : place d [] = [d] := rfl
          rw [hcons, hplace, splice_cons hds.1, ihd hds.2, List.merge_right, List.merge_right]
      | cons t body iht =>
          rw [List.cons_merge_cons]
          by_cases hdt : d.span.lo ≤ t.span.lo
          · have hplace : place d (t :: body) = d :: t :: body := by rw [place, if_pos hdt]
            rw [if_pos (by simpa [Tree.startsBy] using hdt), hcons, hplace, splice_cons hds.1,
              ihd hds.2]
          · have hfirst : ∀ e ∈ d :: ds, t.span.lo < e.span.lo := by
              rw [List.forall_mem_cons]
              refine ⟨by omega, fun e he => ?_⟩
              have := hds.1 e he
              omega
            rw [if_neg (by simpa [Tree.startsBy] using hdt), splice_cons hfirst, iht]

theorem intoTree_node (statements : Nat → List Tree) (f : Form) (s : Span) (cs : List Tree)
    (n : Nat) :
    intoTree statements (.node f s cs) n =
      if f.isScope then
        let below := inOrder (cs.map (intoTree statements)) (n + 1)
        (.node f s (splice below.1 (statements n)), below.2)
      else
        let below := inOrder (cs.map (intoTree statements)) n
        (.node f s below.1, below.2) := by
  rw [intoTree, Tree.fold_node]
  rfl

section Lockstep

variable {statements : Nat → List Tree} {assigned : List Nat → List Tree}

/-- The pass over a list of trees, provided that it is right about each of them. -/
theorem inOrder_eq {cs : List Tree}
    (hcs : ∀ c ∈ cs, ∀ path depth n,
      (∀ (k : Nat), ∀ p ∈ (c.locatedScopes path depth)[k]?, statements (n + k) = assigned p.1) →
        intoTree statements c n =
          (c.merged assigned path, n + (c.locatedScopes path depth).length))
    (q : Nat → List Nat) (depth n : Nat)
    (h : ∀ (k : Nat), ∀ p ∈ (Tree.locatedBelow cs q depth)[k]?, statements (n + k) = assigned p.1) :
    inOrder (cs.map (intoTree statements)) n =
      (cs.mapIdx fun i c => c.merged assigned (q i),
        n + (Tree.locatedBelow cs q depth).length) := by
  induction cs generalizing q n with
  | nil => rfl
  | cons c cs ih =>
      rw [List.forall_mem_cons] at hcs
      rw [Tree.locatedBelow_cons] at h ⊢
      -- The tail is counted on from where the head stops.
      have hhead := hcs.1 (q 0) depth n fun k p hp => h k p (by
        rw [List.getElem?_append_left (List.getElem?_eq_some_iff.mp hp).1]
        exact hp)
      have htail := ih hcs.2 (fun i => q (i + 1)) (n + (c.locatedScopes (q 0) depth).length)
        fun k p hp => by
          rw [Nat.add_assoc]
          refine h _ p ?_
          rw [List.getElem?_append_right (by omega), Nat.add_sub_cancel_left]
          exact hp
      rw [List.map_cons, inOrder, hhead]
      simp only [htail, List.mapIdx_cons, List.length_append, Nat.add_assoc]

/-- The pass merges into each scope of a tree what is planned for its number, if the
numbers are those of the scopes as they are listed. -/
theorem intoTree_eq
    (hsorted : ∀ path, (assigned path).Pairwise fun a b => a.span.lo < b.span.lo) (t : Tree)
    (path : List Nat) (depth n : Nat)
    (h : ∀ (k : Nat), ∀ p ∈ (t.locatedScopes path depth)[k]?, statements (n + k) = assigned p.1) :
    intoTree statements t n =
      (t.merged assigned path, n + (t.locatedScopes path depth).length) := by
  induction t using Tree.induction generalizing path depth n with
  | h f s cs ih =>
      rw [Tree.locatedScopes_node] at h ⊢
      rw [intoTree_node, Tree.merged_node]
      by_cases hf : f.isScope = true
      · simp only [hf, if_true] at h ⊢
        have hown : statements n = assigned path := h 0 _ rfl
        have hbelow := inOrder_eq ih (fun i => path ++ [i]) (depth + 1) (n + 1) fun k p hp => by
          rw [Nat.add_assoc, Nat.add_comm 1 k]
          exact h (k + 1) p hp
        rw [hbelow, hown, splice_eq_merge (hsorted path), List.length_cons, Nat.add_assoc,
          Nat.add_comm 1]
      · simp only [hf, if_neg, Bool.false_eq_true, not_false_eq_true] at h ⊢
        rw [inOrder_eq ih (fun i => path ++ [i]) depth n h]

end Lockstep

end Insertion

namespace Directive

/-- Directives by the start of their comments. -/
def byStart (ds : List Directive) : List Directive :=
  ds.mergeSort fun a b => a.span.lo ≤ b.span.lo

theorem byStart_perm (ds : List Directive) : (byStart ds).Perm ds :=
  List.mergeSort_perm ds _

theorem pairwise_byStart (ds : List Directive) :
    (byStart ds).Pairwise fun a b => a.span.lo ≤ b.span.lo := by
  have hsorted : (byStart ds).Pairwise fun a b => decide (a.span.lo ≤ b.span.lo) = true :=
    List.pairwise_mergeSort (fun a b c hab hbc => by simp only [decide_eq_true_eq] at *; omega)
      (fun a b => by simp only [Bool.or_eq_true, decide_eq_true_eq]; omega) ds
  exact hsorted.imp (by simp)

/-- There is only one way to sort directives that start at different positions. -/
theorem eq_byStart_of_perm {ds es : List Directive} (hnodup : (ds.map (·.span.lo)).Nodup)
    (hperm : es.Perm ds) (hes : es.Pairwise fun a b => a.span.lo ≤ b.span.lo) :
    es = byStart ds := by
  refine List.Perm.eq_of_pairwise ?_ hes (pairwise_byStart ds) (hperm.trans (byStart_perm ds).symm)
  intro a b ha hb hab hba
  exact List.inj_on_of_nodup_map hnodup (hperm.mem_iff.mp ha) ((byStart_perm ds).mem_iff.mp hb)
    (Nat.le_antisymm hab hba)

theorem filter_byStart {ds : List Directive} (hnodup : (ds.map (·.span.lo)).Nodup)
    (p : Directive → Bool) : (byStart ds).filter p = byStart (ds.filter p) :=
  eq_byStart_of_perm (hnodup.sublist (List.filter_sublist.map _)) ((byStart_perm ds).filter p)
    ((pairwise_byStart ds).filter p)

theorem pairwise_lt_byStart {ds : List Directive} (hnodup : (ds.map (·.span.lo)).Nodup) :
    (byStart ds).Pairwise fun a b => a.span.lo < b.span.lo := by
  have hdistinct : (byStart ds).Pairwise fun a b => a.span.lo ≠ b.span.lo :=
    List.pairwise_map.mp (((byStart_perm ds).map _).nodup_iff.mpr hnodup)
  exact ((pairwise_byStart ds).and hdistinct).imp fun h => Nat.lt_of_le_of_ne h.1 h.2

end Directive

namespace Script

/-- The path of the scope that a comment belongs to. -/
def home? (script : Script) (span : Span) : Option (List Nat) :=
  script.scopePaths[Scope.target (Scope.ofScript script) span]?

/-- The directives that belong to the scope at a path, by the start of their comments. -/
def directivesAt (script : Script) (ds : List Directive) (path : List Nat) : List Directive :=
  Directive.byStart (ds.filter fun d => script.home? d.span = some path)

/-- The statements of the directives that belong to the scope at a path. -/
def assigned (script : Script) (ds : List Directive) (checker : String) (path : List Nat) :
    List Tree :=
  (script.directivesAt ds path).map fun d => d.statement checker

/-- The script with the statements of directives merged into their scopes. -/
def merged (script : Script) (ds : List Directive) (checker : String) : Script :=
  let assigned := script.assigned ds checker
  { script with
    body := List.merge (assigned []) (script.body.mapIdx fun i t => t.merged assigned [i])
      Tree.startsBy }

theorem exists_home (script : Script) (span : Span) :
    ∃ path ∈ script.scopePaths, script.home? span = some path := by
  have hlt : Scope.target (Scope.ofScript script) span < script.scopePaths.length := by
    rw [length_scopePaths]
    exact Scope.target_lt (by simp [Scope.ofScript]) span
  exact ⟨_, List.getElem_mem hlt, List.getElem?_eq_getElem hlt⟩

theorem home?_eq_some_iff (script : Script) (span : Span) {k : Nat} {path : List Nat}
    (hk : script.scopePaths[k]? = some path) :
    script.home? span = some path ↔ Scope.target (Scope.ofScript script) span = k := by
  rw [home?, ← hk, eq_comm, List.getElem?_inj (List.getElem?_eq_some_iff.mp hk).1
    script.nodup_scopePaths, eq_comm]

/-- What is planned for the number of a scope are the directives that belong there. -/
theorem pending_eq (script : Script) {ds : List Directive} (hds : (ds.map (·.span.lo)).Nodup)
    (checker : String) {k : Nat} {path : List Nat} (hk : script.scopePaths[k]? = some path) :
    Insertion.pending checker (Insertion.plan (Scope.ofScript script) ds) k =
      script.assigned ds checker path := by
  have hfilter : (fun d : Directive => decide (script.home? d.span = some path)) =
      fun d => decide (Scope.target (Scope.ofScript script) d.span = k) := by
    funext d
    rw [Bool.eq_iff_iff, decide_eq_true_eq, decide_eq_true_eq, home?_eq_some_iff script _ hk]
  rw [assigned, directivesAt, hfilter, ← Directive.filter_byStart hds, Insertion.pending,
    Insertion.plan, List.filter_map, List.map_map]
  rfl

theorem assigned_nil (script : Script) (checker : String) :
    script.assigned [] checker = fun _ => [] := by
  funext path
  rw [assigned, directivesAt, List.filter_nil, Directive.byStart, List.mergeSort_nil, List.map_nil]

theorem pairwise_assigned (script : Script) {ds : List Directive}
    (hds : (ds.map (·.span.lo)).Nodup) (checker : String) (path : List Nat) :
    (script.assigned ds checker path).Pairwise fun a b => a.span.lo < b.span.lo := by
  rw [assigned, List.pairwise_map]
  exact Directive.pairwise_lt_byStart (hds.sublist (List.filter_sublist.map _))

theorem insertDirectives_eq (script : Script) {ds : List Directive}
    (hds : (ds.map (·.span.lo)).Nodup) (checker : String) :
    script.insertDirectives ds checker = script.merged ds checker := by
  rw [insertDirectives, merged]
  split
  next hempty =>
      obtain rfl : ds = [] := by simpa using hempty
      have hbody : (script.body.mapIdx fun i t => t.merged (fun _ => []) [i]) = script.body := by
        refine List.ext_getElem (by simp) fun i hi hi' => ?_
        rw [List.getElem_mapIdx, Tree.merged_nil]
      simp only [assigned_nil, hbody, List.nil_merge]
  next =>
      have hsorted := script.pairwise_assigned hds checker
      have hbelow : ∀ (k : Nat), ∀ p ∈ (Tree.locatedBelow script.body (fun i => [i]) 0)[k]?,
          Insertion.pending checker (Insertion.plan (Scope.ofScript script) ds) (1 + k) =
            script.assigned ds checker p.1 := by
        intro k p hp
        refine script.pending_eq hds checker ?_
        rw [scopePaths, locatedScopes, List.map_cons, Nat.add_comm, List.getElem?_cons_succ,
          List.getElem?_map, Option.mem_def.mp hp, Option.map_some]
      have hown : Insertion.pending checker (Insertion.plan (Scope.ofScript script) ds) 0 =
          script.assigned ds checker [] :=
        script.pending_eq hds checker rfl
      have hbody := Insertion.inOrder_eq (fun t _ => Insertion.intoTree_eq hsorted t) _ 0 1 hbelow
      simp only [hbody, hown, Insertion.splice_eq_merge (hsorted [])]

end Script

namespace Tree

/-- The starts of the statements in every scope of a tree are ordered by `R`. -/
def ScopesOrdered (R : Nat → Nat → Prop) (t : Tree) : Prop :=
  t.Everywhere fun n =>
    n.form.isScope = true → n.children.Pairwise fun a b => R a.span.lo b.span.lo

theorem scopesOrdered_of_isPlain {t : Tree} (h : t.Everywhere fun n => n.form.isPlain = true)
    (R : Nat → Nat → Prop) : t.ScopesOrdered R := by
  refine h.imp fun n hn hscope => ?_
  have hpassive := Form.isPassive_of_isPlain hn
  simp [Form.isPassive, hscope] at hpassive

theorem pairwise_merge {ds cs : List Tree} (hds : ds.Pairwise fun a b => a.span.lo < b.span.lo)
    (hcs : cs.Pairwise fun a b => a.span.lo < b.span.lo) :
    (List.merge ds cs startsBy).Pairwise fun a b => a.span.lo ≤ b.span.lo := by
  have hle : ∀ {l : List Tree}, (l.Pairwise fun a b => a.span.lo < b.span.lo) →
      l.Pairwise fun a b => startsBy a b = true :=
    fun h => h.imp fun hab => decide_eq_true (Nat.le_of_lt hab)
  have hmerge := List.pairwise_merge (fun a b c hab hbc => by simp [startsBy] at *; omega)
    (fun a b => by simp [startsBy]; omega) ds cs (hle hds) (hle hcs)
  exact hmerge.imp fun hab => of_decide_eq_true hab

/-- Trees start where they started before statements were merged in. -/
theorem pairwise_mapIdx_merged {R : Nat → Nat → Prop} {cs : List Tree}
    (h : cs.Pairwise fun a b => R a.span.lo b.span.lo) (assigned : List Nat → List Tree)
    (q : Nat → List Nat) :
    (cs.mapIdx fun i c => c.merged assigned (q i)).Pairwise
      fun a b => R a.span.lo b.span.lo := by
  have hspans : (cs.mapIdx fun i c => c.merged assigned (q i)).map (·.span.lo) =
      cs.map (·.span.lo) :=
    List.ext_getElem (by simp) (by simp [span_merged])
  have hstarts : (cs.map (·.span.lo)).Pairwise R := List.pairwise_map.mpr h
  rw [← hspans] at hstarts
  exact List.pairwise_map.mp hstarts

theorem scopesOrdered_merged {assigned : List Nat → List Tree}
    (hsorted : ∀ path, (assigned path).Pairwise fun a b => a.span.lo < b.span.lo)
    (hplain : ∀ path, ∀ d ∈ assigned path, d.Everywhere fun n => n.form.isPlain = true)
    {t : Tree} (h : t.ScopesOrdered (· < ·)) (path : List Nat) :
    (t.merged assigned path).ScopesOrdered (· ≤ ·) := by
  induction t using Tree.induction generalizing path with
  | h f s cs ih =>
      obtain ⟨hown, hbelow⟩ := everywhere_node.mp h
      have hchildren : ∀ c ∈ cs.mapIdx fun i c => c.merged assigned (path ++ [i]),
          c.ScopesOrdered (· ≤ ·) := by
        intro c hc
        obtain ⟨i, hi, rfl⟩ := List.mem_mapIdx.mp hc
        exact ih _ (List.getElem_mem hi) (hbelow _ (List.getElem_mem hi)) _
      rw [merged_node]
      by_cases hf : f.isScope = true
      · simp only [hf, if_true]
        refine everywhere_node.mpr ⟨fun _ => ?_, fun c hc => ?_⟩
        · exact pairwise_merge (hsorted path) (pairwise_mapIdx_merged (hown hf) assigned _)
        · rcases List.mem_merge.mp hc with hc | hc
          · exact scopesOrdered_of_isPlain (hplain path c hc) _
          · exact hchildren c hc
      · simp only [hf, if_neg, Bool.false_eq_true, not_false_eq_true]
        exact everywhere_node.mpr ⟨fun h => absurd h hf, hchildren⟩

end Tree

namespace Script

/-- The starts of the statements in every scope of a script are ordered by `R`. -/
def ScopesOrdered (R : Nat → Nat → Prop) (script : Script) : Prop :=
  (script.body.Pairwise fun a b => R a.span.lo b.span.lo) ∧
    ∀ t ∈ script.body, t.ScopesOrdered R

theorem scopesOrdered_merged {script : Script} (hscript : script.ScopesOrdered (· < ·))
    {ds : List Directive} (hds : (ds.map (·.span.lo)).Nodup) (checker : String) :
    (script.merged ds checker).ScopesOrdered (· ≤ ·) := by
  have hsorted := script.pairwise_assigned hds checker
  have hplain : ∀ path, ∀ d ∈ script.assigned ds checker path,
      d.Everywhere fun n => n.form.isPlain = true := by
    intro path t ht
    obtain ⟨d, -, rfl⟩ := List.mem_map.mp ht
    exact d.everywhere_statement checker
  constructor
  · exact Tree.pairwise_merge (hsorted []) (Tree.pairwise_mapIdx_merged hscript.1 _ _)
  · intro t ht
    rcases List.mem_merge.mp ht with ht | ht
    · exact Tree.scopesOrdered_of_isPlain (hplain [] t ht) _
    · obtain ⟨i, hi, rfl⟩ := List.mem_mapIdx.mp ht
      exact Tree.scopesOrdered_merged hsorted hplain (hscript.2 _ (List.getElem_mem hi)) _

theorem mem_directivesAt {script : Script} {ds : List Directive} {path : List Nat}
    {d : Directive} :
    d ∈ script.directivesAt ds path ↔ d ∈ ds ∧ script.home? d.span = some path := by
  rw [directivesAt, (Directive.byStart_perm _).mem_iff, List.mem_filter, decide_eq_true_eq]

/-- The scopes share out the directives among them. -/
theorem flatMap_directivesAt_perm (script : Script) {ds : List Directive} (hds : ds.Nodup) :
    (script.scopePaths.flatMap (script.directivesAt ds)).Perm ds := by
  have hnodup : (script.scopePaths.flatMap (script.directivesAt ds)).Nodup := by
    refine List.nodup_flatMap.mpr ⟨fun path _ => ?_, script.nodup_scopePaths.imp ?_⟩
    · exact (Directive.byStart_perm _).nodup_iff.mpr (hds.filter _)
    · intro path path' hne d hd hd'
      have heq := (mem_directivesAt.mp hd).2.symm.trans (mem_directivesAt.mp hd').2
      exact hne (Option.some.inj heq)
  refine (List.perm_ext_iff_of_nodup hnodup hds).mpr fun d => ?_
  rw [List.mem_flatMap]
  constructor
  · rintro ⟨path, -, hd⟩
    exact (mem_directivesAt.mp hd).1
  · intro hd
    obtain ⟨path, hpath, hhome⟩ := script.exists_home d.span
    exact ⟨path, hpath, mem_directivesAt.mpr ⟨hd, hhome⟩⟩

theorem merged_eq_of_perm (script : Script) {ds ds' : List Directive}
    (hds : (ds.map (·.span.lo)).Nodup) (h : ds'.Perm ds) (checker : String) :
    script.merged ds' checker = script.merged ds checker := by
  have hassigned : script.assigned ds' checker = script.assigned ds checker := by
    funext path
    rw [assigned, assigned, directivesAt, directivesAt]
    congr 1
    refine Directive.eq_byStart_of_perm (hds.sublist (List.filter_sublist.map _)) ?_
      (Directive.pairwise_byStart _)
    exact (Directive.byStart_perm _).trans (h.filter _)
  rw [merged, merged, hassigned]

/-- If the statements of each scope start at ascending positions and the directives at
different ones, inserting the directives merges into every scope the statements of those
that belong there. The starts are ascending afterwards, every directive belongs to one
scope, the statements that were there before are still there in their order, and it does
not matter how the directives are ordered. -/
theorem insertDirectives_eq_merged (script : Script) (ds : List Directive) (checker : String)
    (hscript : script.ScopesOrdered (· < ·)) (hds : (ds.map (·.span.lo)).Nodup) :
    script.insertDirectives ds checker = script.merged ds checker ∧
      (script.insertDirectives ds checker).ScopesOrdered (· ≤ ·) ∧
      (script.scopePaths.flatMap (script.directivesAt ds)).Perm ds ∧
      (∃ body, List.Forall₂ Insertion.Grown script.body body ∧
        Insertion.Woven body (script.insertDirectives ds checker).body) ∧
      ∀ ds' : List Directive, ds'.Perm ds →
        script.insertDirectives ds' checker = script.insertDirectives ds checker := by
  have hmerged := script.insertDirectives_eq hds checker
  refine ⟨hmerged, ?_, ?_, ?_, ?_⟩
  · rw [hmerged]
    exact scopesOrdered_merged hscript hds checker
  · exact script.flatMap_directivesAt_perm hds.of_map
  · obtain ⟨body, body', hgrown, hwoven, heq⟩ := script.exists_grown_insertDirectives ds checker
    rw [heq]
    exact ⟨body, hgrown, hwoven⟩
  · intro ds' hperm
    rw [hmerged, script.insertDirectives_eq ((hperm.map _).nodup_iff.mpr hds),
      script.merged_eq_of_perm hds hperm]

/-- A script with a block, and a directive for each of the two scopes. -/
theorem insertDirectives_eq_merged_nested :
    let script : Script := ⟨⟨1, 60⟩, none,
      [.node .emptyStatement ⟨3, 4⟩ [],
        .node (.block true) ⟨10, 40⟩
          [.node .emptyStatement ⟨12, 13⟩ [], .node .emptyStatement ⟨30, 31⟩ []]]⟩
    let a : Directive := ⟨.instances "A", ⟨5, 8⟩⟩
    let b : Directive := ⟨.instances "B", ⟨20, 25⟩⟩
    script.directivesAt [b, a] [] = [a] ∧ script.directivesAt [b, a] [1] = [b] ∧
      script.insertDirectives [b, a] "c" = script.merged [b, a] "c" ∧
      script.insertDirectives [a, b] "c" = script.insertDirectives [b, a] "c" := by
  intro script a b
  have hscript : script.ScopesOrdered (· < ·) := by
    unfold ScopesOrdered Tree.ScopesOrdered Tree.Everywhere
    decide
  have hmerged := script.insertDirectives_eq_merged [b, a] "c" hscript (by decide)
  exact ⟨by decide +kernel, by decide +kernel, hmerged.1, hmerged.2.2.2.2 _ (.swap _ _ _)⟩

end Script

end Contracts
