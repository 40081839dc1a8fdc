import Contracts.Proofs.Command.Inputs
import Mathlib.Data.String.Basic
import Mathlib.Data.List.Nodup
import Mathlib.Data.List.TakeWhile

/-!
# Walks through directories

A walk through a directory goes to its entries in the order of their names. It notes
an entry that is a file, and goes through one that is a directory before it comes to
the next entry; what it notes are the names that lead from the directory to the files
(`FileTree.InWalkOrder`).

Of two different files that a walk notes, the one whose name is smaller comes first,
where names are compared at the place where the ways to the files part (`Diverges`).
This order settles the list from its members (`FileTree.InWalkOrder.eq_of_mem_iff`), and
each list in this order, of whatever files, is one of a walk
(`FileTree.inWalkOrder_of_pairwise`). So sorting the files below a directory by their
locations gives what the walk through it notes (`FileTree.WellFormed.inWalkOrder_below`).
-/

namespace Contracts

namespace FileTree

/-- The ways to two files go along together at first and then part, where the first one takes the
smaller name. -/
def Diverges : Location → Location → Prop
  | a :: l, b :: m => a < b ∨ (a = b ∧ Diverges l m)
  | _, _ => False

section Diverging

variable {a b : String} {l m k : Location}

@[simp]
theorem diverges_cons : Diverges (a :: l) (b :: m) ↔ a < b ∨ (a = b ∧ Diverges l m) := Iff.rfl

@[simp]
theorem not_diverges_nil (l : Location) : ¬ Diverges l [] := by
  cases l <;> exact id

@[simp]
theorem not_nil_diverges (m : Location) : ¬ Diverges [] m := by
  cases m <;> exact id

theorem diverges_cons_self : Diverges (a :: l) (a :: m) ↔ Diverges l m := by
  simp

theorem Diverges.asymm (h : Diverges l m) : ¬ Diverges m l := by
  induction l generalizing m with
  | nil => exact absurd h (not_nil_diverges m)
  | cons a l ih =>
      cases m with
      | nil => simp
      | cons b m =>
          rw [diverges_cons] at h ⊢
          rintro (hba | ⟨rfl, hml⟩)
          · obtain hab | ⟨rfl, -⟩ := h
            · exact lt_asymm hab hba
            · exact lt_irrefl _ hba
          · obtain hab | ⟨-, hlm⟩ := h
            · exact lt_irrefl _ hab
            · exact ih hlm hml

theorem Diverges.ne (h : Diverges l m) : l ≠ m := by
  rintro rfl
  exact h.asymm h

end Diverging

/-- What a walk through a directory notes, told entry by entry: a file is noted by its name, and the
files of a directory by their own names behind it. Entries come in the order of their names. -/
inductive InWalkOrder : List Location → Prop
  | nil : InWalkOrder []
  | file {name : String} {rest : List Location} (hrest : InWalkOrder rest)
      (hlater : ∀ l ∈ rest, ∀ other ∈ l.head?, name < other) : InWalkOrder ([name] :: rest)
  | directory {name : String} {inner rest : List Location} (hinner : InWalkOrder inner)
      (hrest : InWalkOrder rest) (hlater : ∀ l ∈ rest, ∀ other ∈ l.head?, name < other) :
      InWalkOrder (inner.map (name :: ·) ++ rest)

section WalkOrder

variable {ls ms : List Location}

theorem diverges_of_lt_head {name : String} {l m : Location} (hm : m ≠ [])
    (h : ∀ other ∈ m.head?, name < other) : Diverges (name :: l) m := by
  cases m with
  | nil => exact absurd rfl hm
  | cons other m => exact .inl (h other rfl)

theorem InWalkOrder.pairwise (h : InWalkOrder ls) : ls.Pairwise Diverges ∧ [] ∉ ls := by
  induction h with
  | nil => simp
  | @file name rest _ hlater ih =>
      refine ⟨List.pairwise_cons.mpr ⟨fun m hm => ?_, ih.1⟩, by simp [ih.2]⟩
      exact diverges_of_lt_head (ne_of_mem_of_not_mem hm ih.2) (hlater m hm)
  | @directory name inner rest _ _ hlater ihinner ihrest =>
      refine ⟨List.pairwise_append.mpr ⟨?_, ihrest.1, fun l hl m hm => ?_⟩, by simp [ihrest.2]⟩
      · exact List.pairwise_map.mpr (ihinner.1.imp fun hlm => diverges_cons_self.mpr hlm)
      · obtain ⟨k, -, rfl⟩ := List.mem_map.mp hl
        exact diverges_of_lt_head (ne_of_mem_of_not_mem hm ihrest.2) (hlater m hm)

/-- The locations behind those that start with one name start with greater names. -/
theorem lt_head_of_mem_dropWhile {name : String} {l : Location}
    (h : ((name :: l) :: ls).Pairwise Diverges) {m : Location}
    (hm : m ∈ ls.dropWhile fun k => k.head? == some name) : ∀ other ∈ m.head?, name < other := by
  rw [List.pairwise_cons] at h
  have hsuffix : (ls.dropWhile fun k => k.head? == some name) <:+ ls := List.dropWhile_suffix _
  have hfirst := List.head?_dropWhile_not (fun k : Location => k.head? == some name) ls
  have hsorted := h.2.sublist hsuffix.sublist
  cases hrest : ls.dropWhile fun k => k.head? == some name with
  | nil =>
      rw [hrest] at hm
      exact absurd hm List.not_mem_nil
  | cons d rest =>
      rw [hrest] at hm hfirst hsorted hsuffix
      have hd : Diverges (name :: l) d := h.1 d (hsuffix.subset List.mem_cons_self)
      cases d with
      | nil => exact absurd hd (not_diverges_nil _)
      | cons b d =>
          have hne : b ≠ name := by simpa using hfirst
          have hlt : name < b := (diverges_cons.mp hd).resolve_right fun heq => hne heq.1.symm
          intro other hother
          obtain rfl | hm := List.mem_cons.mp hm
          · exact Option.some.inj hother ▸ hlt
          · -- The names in front do not become smaller along the list.
            have hdm := (List.pairwise_cons.mp hsorted).1 m hm
            cases m with
            | nil => exact absurd hdm (not_diverges_nil _)
            | cons c m =>
                obtain rfl : c = other := Option.some.inj hother
                obtain hbc | ⟨rfl, -⟩ := diverges_cons.mp hdm
                · exact lt_trans hlt hbc
                · exact hlt

/-- The locations that start with one name are those of the directory of this name. -/
theorem exists_inner {name : String} {l : Location} (h : ((name :: l) :: ls).Pairwise Diverges)
    (hl : l ≠ []) :
    ∃ inner, (ls.takeWhile fun k => k.head? == some name) = inner.map (name :: ·) ∧
      (l :: inner).Pairwise Diverges ∧ [] ∉ l :: inner := by
  have hfront : (ls.takeWhile fun k => k.head? == some name) <+: ls := List.takeWhile_prefix _
  have hinner : (ls.takeWhile fun k => k.head? == some name) =
      ((ls.takeWhile fun k => k.head? == some name).map List.tail).map (name :: ·) := by
    rw [List.map_map]
    refine (List.map_id _).symm.trans (List.map_congr_left fun k hk => ?_)
    have hhead : k.head? = some name := by simpa using List.mem_takeWhile_imp hk
    obtain ⟨tail, rfl⟩ := List.head?_eq_some_iff.mp hhead
    rfl
  have hsorted : (((l :: (ls.takeWhile fun k => k.head? == some name).map List.tail)).map
      (name :: ·)).Pairwise Diverges := by
    rw [List.map_cons, ← hinner]
    exact h.sublist (hfront.sublist.cons_cons _)
  have hpairwise := (List.pairwise_map.mp hsorted).imp fun hlm => diverges_cons_self.mp hlm
  refine ⟨_, hinner, hpairwise, ?_⟩
  intro hnil
  obtain hnil | hnil := List.mem_cons.mp hnil
  · exact hl hnil.symm
  · exact not_diverges_nil l ((List.pairwise_cons.mp hpairwise).1 [] hnil)

theorem length_flatten_map_cons (name : String) (ls : List Location) :
    (ls.map (name :: ·)).flatten.length = ls.flatten.length + ls.length := by
  induction ls with
  | nil => rfl
  | cons l ls ih =>
      simp only [List.map_cons, List.flatten_cons, List.length_append, List.length_cons, ih]
      omega

/-- Locations in their order are in the order of a walk. The recursion goes to the files of the
first directory, one name shorter, and to what comes behind it. -/
theorem inWalkOrder_of_pairwise (h : ls.Pairwise Diverges) (hne : [] ∉ ls) : InWalkOrder ls := by
  induction hsize : ls.flatten.length using Nat.strong_induction_on generalizing ls with
  | h size ih =>
      cases ls with
      | nil => exact .nil
      | cons first ls =>
          cases first with
          | nil => exact absurd List.mem_cons_self hne
          | cons name l =>
              rw [List.flatten_cons, List.length_append, List.length_cons] at hsize
              have hrestne : [] ∉ ls := fun hnil => hne (List.mem_cons_of_mem _ hnil)
              have hsorted := (List.pairwise_cons.mp h).2
              by_cases hl : l = []
              · -- A file: what follows cannot start with its name.
                subst hl
                refine .file (ih _ (by omega) hsorted hrestne rfl) fun m hm other hother => ?_
                have hdiverges := (List.pairwise_cons.mp h).1 m hm
                obtain ⟨m, rfl⟩ := List.head?_eq_some_iff.mp hother
                simpa using hdiverges
              · obtain ⟨inner, htake, hinner, hinnerne⟩ := exists_inner h hl
                have hsplit : ls = inner.map (name :: ·) ++
                    ls.dropWhile fun k => k.head? == some name := by
                  rw [← htake, List.takeWhile_append_dropWhile]
                have hlater := fun m hm => lt_head_of_mem_dropWhile h (m := m) hm
                generalize ls.dropWhile (fun k => k.head? == some name) = rest at hsplit hlater
                subst hsplit
                rw [List.flatten_append, List.length_append, length_flatten_map_cons] at hsize
                rw [List.mem_append, not_or] at hrestne
                refine .directory (ih _ ?_ hinner hinnerne rfl)
                  (ih _ ?_ (List.pairwise_append.mp hsorted).2.1 hrestne.2 rfl) hlater
                · rw [List.flatten_cons, List.length_append]
                  omega
                · omega

theorem InWalkOrder.nodup (h : InWalkOrder ls) : ls.Nodup :=
  h.pairwise.1.imp Diverges.ne

theorem InWalkOrder.filter (h : InWalkOrder ls) (p : Location → Bool) :
    InWalkOrder (ls.filter p) := by
  refine inWalkOrder_of_pairwise (h.pairwise.1.filter p) fun hnil => ?_
  exact h.pairwise.2 (List.mem_of_mem_filter hnil)

/-- A walk notes its files in one order only. -/
theorem InWalkOrder.eq_of_mem_iff (hls : InWalkOrder ls) (hms : InWalkOrder ms)
    (h : ∀ l, l ∈ ls ↔ l ∈ ms) : ls = ms := by
  refine List.Perm.eq_of_pairwise ?_ hls.pairwise.1 hms.pairwise.1
    ((List.perm_ext_iff_of_nodup hls.nodup hms.nodup).mpr h)
  intro l m _ _ hlm hml
  exact absurd hml hlm.asymm

end WalkOrder

section Sorting

theorem precedes_total (l m : Location) : (precedes l m || precedes m l) = true := by
  induction l generalizing m with
  | nil => rfl
  | cons a l ih =>
      cases m with
      | nil => rfl
      | cons b m =>
          rw [precedes, precedes]
          by_cases hab : a = b
          · rw [if_pos hab, if_pos hab.symm]
            exact ih m
          · rw [if_neg hab, if_neg (Ne.symm hab)]
            simpa [Text.before] using lt_or_gt_of_ne hab

theorem precedes_trans (l m k : Location) (hlm : precedes l m = true) (hmk : precedes m k = true) :
    precedes l k = true := by
  induction l generalizing m k with
  | nil => rfl
  | cons a l ih =>
      cases m with
      | nil => exact absurd hlm (by simp [precedes])
      | cons b m =>
          cases k with
          | nil => exact absurd hmk (by simp [precedes])
          | cons c k =>
              simp only [precedes, Text.before] at *
              grind

/-- Of two locations the one that precedes the other diverges from it, unless it leads to it. -/
theorem diverges_of_precedes {l m : Location} (h : precedes l m = true) (hfront : ¬ l <+: m) :
    Diverges l m := by
  induction l generalizing m with
  | nil => exact absurd List.nil_prefix hfront
  | cons a l ih =>
      cases m with
      | nil => exact absurd h (by simp [precedes])
      | cons b m =>
          rw [precedes] at h
          split at h
          next hab =>
              subst hab
              refine .inr ⟨rfl, ih h fun hlm => hfront ?_⟩
              exact List.cons_prefix_cons.mpr ⟨rfl, hlm⟩
          next hab => exact .inl (by simpa [Text.before] using h)

variable {t : FileTree}

theorem isFile_iff {l : Location} : t.isFile l = true ↔ ∃ f ∈ t.files, f.location = l := by
  simp [isFile, find?]

theorem mem_below {l names : Location} :
    names ∈ t.below l ↔ names ≠ [] ∧ t.isFile (l ++ names) = true := by
  rw [below, List.mem_mergeSort, List.mem_map, isFile_iff]
  simp only [List.mem_filter, isBelow, Bool.and_eq_true, decide_eq_true_eq,
    List.isPrefixOf_iff_prefix]
  constructor
  · rintro ⟨f, ⟨hf, hlength, rest, hrest⟩, rfl⟩
    rw [← hrest, List.drop_left]
    refine ⟨?_, f, hf, hrest.symm⟩
    rintro rfl
    rw [← hrest, List.append_nil] at hlength
    exact lt_irrefl _ hlength
  · rintro ⟨hne, f, hf, hlocation⟩
    refine ⟨f, ⟨hf, ?_, ?_⟩, ?_⟩
    · rw [hlocation, List.length_append]
      have := List.length_pos_of_ne_nil hne
      omega
    · rw [hlocation]
      exact List.prefix_append l names
    · rw [hlocation, List.drop_left]

/-- No two files are at the same location. -/
def Distinct (t : FileTree) : Prop :=
  (t.files.map File.location).Nodup

instance : DecidablePred Distinct := fun t =>
  inferInstanceAs (Decidable (t.files.map File.location).Nodup)

theorem Distinct.nodup_below (ht : t.Distinct) (l : Location) : (t.below l).Nodup := by
  rw [below, List.nodup_mergeSort]
  have hinside := ht.of_map.filter fun f => isBelow l f.location
  refine (List.nodup_map_iff_inj_on hinside).mpr fun f hf g hg hfg => ?_
  simp only [List.mem_filter, isBelow, Bool.and_eq_true, decide_eq_true_eq,
    List.isPrefixOf_iff_prefix] at hf hg
  obtain ⟨hf, -, frest, hfrest⟩ := hf
  obtain ⟨hg, -, grest, hgrest⟩ := hg
  refine List.inj_on_of_nodup_map ht hf hg ?_
  rw [← hfrest, ← hgrest, List.drop_left, List.drop_left] at hfg
  rw [← hfrest, ← hgrest, hfg]

/-- No file is on the way to another one. -/
theorem WellFormed.eq_of_prefix (ht : t.WellFormed) {l m : Location} (hl : t.isFile l = true)
    (hm : t.isFile m = true) (hfront : l <+: m) : l = m := by
  by_contra hne
  obtain ⟨f, hf, rfl⟩ := isFile_iff.mp hl
  obtain ⟨g, hg, rfl⟩ := isFile_iff.mp hm
  have hdirectory : t.isDirectory f.location = true := by
    refine isDirectory_iff.mpr (.inr (.inr ⟨g, hg, ?_, hfront⟩))
    refine lt_of_le_of_ne hfront.length_le fun hlength => hne ?_
    exact hfront.eq_of_length hlength
  exact absurd (ht.apart f hf) (by simp [hdirectory])

/-- The files below a directory come in the order of a walk through it. -/
theorem WellFormed.inWalkOrder_below (ht : t.WellFormed) (hdistinct : t.Distinct) (l : Location) :
    InWalkOrder (t.below l) := by
  have hsorted : (t.below l).Pairwise fun m k => precedes m k = true :=
    List.pairwise_mergeSort precedes_trans precedes_total _
  refine inWalkOrder_of_pairwise ?_ fun hnil => (mem_below.mp hnil).1 rfl
  refine (hsorted.and (hdistinct.nodup_below l)).imp_of_mem fun {m k} hm hk hmk => ?_
  refine diverges_of_precedes hmk.1 fun hfront => hmk.2 ?_
  have heq := ht.eq_of_prefix (mem_below.mp hm).2 (mem_below.mp hk).2
    ((List.prefix_append_right_inj l).mpr hfront)
  exact List.append_cancel_left heq

end Sorting

end FileTree

end Contracts
