import Contracts.Command.Run
import Contracts.Proofs.Command.Trees

/-!
# What inputs are

The inputs of a run are found before it begins, and all of them are files of the
tree as it is then: a path of the command line that leads to a file, or a file
below a directory, reached by the path of the directory and the names from there
on (`Command.isLocated_of_collectInputs`). What an input is called below the output
directory ends in a name, so that its output goes to the place of its path.

Trees are taken to be well formed here: entries of directories have names, and
no file is a directory.
-/

namespace Contracts

namespace Path

theorem component?_name {name : String} (h : IsName name) :
    component? name = some (.normal name) := by
  rw [component?, if_neg (by simp [h.ne_empty, h.ne_current]), if_neg h.ne_parent]

theorem fileName?_of_endsInName {path : String} {init : List String} {name : String}
    (h : segments path = init ++ [name]) (hname : IsName name) : fileName? path = some name := by
  have hlast : (components path).getLast? = some (.normal name) := by
    cases init with
    | nil =>
        rw [List.nil_append] at h
        simp only [components, h]
        rw [firstComponent?, if_neg hname.ne_empty, if_neg hname.ne_current, component?_name hname]
        rfl
    | cons first init =>
        rw [List.cons_append] at h
        simp only [components, h]
        rw [List.filterMap_append, List.filterMap_cons_some (component?_name hname),
          List.filterMap_nil, ← List.append_assoc, List.getLast?_concat]
  rw [fileName?, hlast]

end Path

namespace FileTree

/-- A tree of directories and files: entries have names, and no file is a directory. -/
structure WellFormed (t : FileTree) : Prop where
  names : ∀ f ∈ t.files, ∀ name ∈ f.location, Path.IsName name
  apart : ∀ f ∈ t.files, t.isDirectory f.location = false

instance : DecidablePred WellFormed := fun t =>
  decidable_of_iff ((∀ f ∈ t.files, ∀ name ∈ f.location, Path.IsName name) ∧
      ∀ f ∈ t.files, t.isDirectory f.location = false)
    ⟨fun ⟨h₁, h₂⟩ => ⟨h₁, h₂⟩, fun ⟨h₁, h₂⟩ => ⟨h₁, h₂⟩⟩

variable {t : FileTree}

theorem isDirectory_iff {l : Location} :
    t.isDirectory l = true ↔
      l <+: t.base ∨ (∃ d ∈ t.directories, l <+: d) ∨
        ∃ f ∈ t.files, l.length < f.location.length ∧ l <+: f.location := by
  simp [isDirectory, isBelow, or_assoc]

theorem isDirectory_of_prefix {l m : Location} (h : l <+: m) (hm : t.isDirectory m = true) :
    t.isDirectory l = true := by
  rw [isDirectory_iff] at hm ⊢
  obtain hm | ⟨d, hd, hm⟩ | ⟨f, hf, hlength, hm⟩ := hm
  · exact .inl (h.trans hm)
  · exact .inr (.inl ⟨d, hd, h.trans hm⟩)
  · exact .inr (.inr ⟨f, hf, Nat.lt_of_le_of_lt h.length_le hlength, h.trans hm⟩)

/-- Where the last step of a walk goes nowhere or up, it comes to a directory. -/
theorem isDirectory_of_walk {l m : Location} {init : List String} {segment : String}
    (hsegment : segment = "" ∨ segment = "." ∨ segment = "..")
    (h : t.walk l (init ++ [segment]) = .ok m) : t.isDirectory m = true := by
  rw [walk_append] at h
  cases hinit : t.walk l init with
  | error e =>
      rw [hinit] at h
      exact absurd h (by simp [Except.bind])
  | ok k =>
      rw [hinit] at h
      change t.walk k [segment] = .ok m at h
      rw [walk] at h
      split at h
      next hdirectory =>
          obtain rfl | rfl | rfl := hsegment
          · obtain rfl := Except.ok.inj h
            exact hdirectory
          · obtain rfl := Except.ok.inj h
            exact hdirectory
          · obtain rfl := Except.ok.inj h
            exact isDirectory_of_prefix (List.dropLast_prefix k) hdirectory
      next => split at h <;> exact absurd h (by simp)

/-- The last segment of the path of a file is a name. -/
theorem WellFormed.exists_segments_eq (ht : t.WellFormed) {path : String} {l : Location}
    (h : t.locate path = .ok l) (hfile : t.isFile l = true) :
    ∃ init name, Path.segments path = init ++ [name] ∧ Path.IsName name := by
  obtain ⟨init, segment, hsegments⟩ :=
    (List.eq_nil_or_concat' (Path.segments path)).resolve_left (Path.segmentsFrom_ne_nil [] _)
  have hmem : segment ∈ Path.segments path := by simp [hsegments]
  have hslash := Path.slash_not_mem_of_mem_segmentsFrom List.not_mem_nil hmem
  have hgoes : ¬ (segment = "" ∨ segment = "." ∨ segment = "..") := by
    intro hstays
    rw [locate, hsegments] at h
    obtain ⟨f, hf⟩ := Option.isSome_iff_exists.mp hfile
    have hapart := ht.apart f (List.mem_of_find?_eq_some hf)
    rw [location_of_find? hf, isDirectory_of_walk hstays h] at hapart
    exact absurd hapart (by simp)
  simp only [not_or] at hgoes
  exact ⟨init, segment, hsegments, hgoes.1, hgoes.2.1, hgoes.2.2, hslash⟩

/-- The path of a file ends in its name. -/
theorem WellFormed.endsInName (ht : t.WellFormed) {path : String} {l : Location}
    (h : t.locate path = .ok l) (hfile : t.isFile l = true) :
    Path.EndsInName ((Path.fileName? path).getD path) := by
  obtain ⟨init, name, hsegments, hname⟩ := ht.exists_segments_eq h hfile
  rw [Path.fileName?_of_endsInName hsegments hname]
  exact hname.endsInName

/-- From a directory the names of a file below it lead there. -/
theorem WellFormed.walk_names (ht : t.WellFormed) {f : File} (hf : f ∈ t.files) {l : Location}
    {names : List String} (h : f.location = l ++ names) : t.walk l names = .ok f.location := by
  induction names generalizing l with
  | nil => rw [h, List.append_nil, walk]
  | cons name names ih =>
      have hname : Path.IsName name := ht.names f hf name (by simp [h])
      have hdirectory : t.isDirectory l = true := by
        refine isDirectory_iff.mpr (.inr (.inr ⟨f, hf, ?_, ?_⟩))
        · simp [h]
        · exact ⟨name :: names, h.symm⟩
      rw [walk, if_pos hdirectory, if_neg (by simp [hname.ne_empty, hname.ne_current]),
        if_neg hname.ne_parent]
      exact ih (by simp [h])

theorem segments_pathOf {names : Location} (hnames : ∀ name ∈ names, Path.IsName name)
    (hne : names ≠ []) : Path.segments (pathOf names) = names := by
  induction names with
  | nil => exact absurd rfl hne
  | cons name names ih =>
      rw [List.forall_mem_cons] at hnames
      have hname : Path.segments name = [name] := by
        rw [Path.segments, Path.segmentsFrom_eq_singleton hnames.1.no_slash]
        simp
      cases names with
      | nil => rw [pathOf, String.intercalate_singleton, hname]
      | cons second names =>
          rw [pathOf, String.intercalate_cons_cons, Path.segments_slash, hname]
          exact congrArg (name :: ·) (ih hnames.2 (List.cons_ne_nil _ _))

/-- A path made of names does not start at the root. -/
theorem head?_pathOf {names : Location} (hnames : ∀ name ∈ names, Path.IsName name) :
    (pathOf names).toList.head? ≠ some '/' := by
  intro hroot
  obtain ⟨rest, hrest⟩ := List.head?_eq_some_iff.mp hroot
  have hne : names ≠ [] := by
    rintro rfl
    exact absurd hroot (by decide)
  have hempty : "" ∈ names := by
    rw [← segments_pathOf hnames hne, Path.segments, hrest, Path.segmentsFrom, if_pos rfl]
    exact List.mem_cons_self
  exact (hnames "" hempty).ne_empty rfl

/-- A path below a directory leads on from there. -/
theorem locate_join {path below : String} {l : Location} (h : t.locate path = .ok l)
    (hbelow : below.toList.head? ≠ some '/') :
    t.locate (Path.join path below) = t.walk l (Path.segments below) := by
  unfold Path.join
  split
  next hfirst =>
      obtain rfl : path = "" := by simpa [hbelow] using hfirst
      obtain rfl : t.base = l := by
        have hbase : t.isDirectory t.base = true := isDirectory_iff.mpr (.inl List.prefix_rfl)
        have hstay : t.locate "" = .ok t.base := by
          change t.walk t.base [""] = .ok t.base
          rw [walk, if_pos hbase]
          rfl
        exact Except.ok.inj (hstay.symm.trans h)
      rw [locate, startOf, if_neg hbelow]
  next hfirst =>
      have hne : path ≠ "" := by
        rintro rfl
        exact hfirst (by simp)
      split
      next hslash =>
          obtain ⟨cs, hcs⟩ := List.getLast?_eq_some_iff.mp hslash
          have hpath : Path.segments path = Path.segmentsFrom [] cs ++ [""] := by
            rw [Path.segments, hcs, Path.segmentsFrom_slash]
            rfl
          have hall : Path.segments (path ++ below) =
              Path.segmentsFrom [] cs ++ Path.segments below := by
            rw [Path.segments, String.toList_append, hcs, List.append_assoc,
              List.singleton_append, Path.segmentsFrom_slash]
            rfl
          rw [locate, hpath, walk_append] at h
          rw [locate, hall, startOf_append hne, walk_append]
          cases hinit : t.walk (t.startOf path) (Path.segmentsFrom [] cs) with
          | error e =>
              rw [hinit] at h
              exact absurd h (by simp [Except.bind])
          | ok k =>
              rw [hinit] at h
              change t.walk k [""] = .ok l at h
              obtain rfl := walk_eq_ok h
              rfl
      next hslash =>
          rw [locate] at h
          rw [locate, Path.segments_slash, String.append_assoc, startOf_append hne, walk_append, h]
          rfl

end FileTree

namespace Command

theorem exists_of_map_eq_ok {ε α β : Type} {x : Except ε α} {f : α → β} {b : β}
    (h : x.map f = .ok b) : ∃ a, x = .ok a ∧ f a = b := by
  cases x with
  | error e => exact absurd h (by simp [Except.map])
  | ok a => exact ⟨a, rfl, Except.ok.inj h⟩

/-- An input is a file of the tree, and its output goes to a path that ends in a name. -/
structure Input.IsLocated (i : Input) (t : FileTree) : Prop where
  locate : t.locate i.path = .ok (t.place i.path)
  relative : Path.EndsInName i.relative

theorem isLocated_of_file {t : FileTree} (ht : t.WellFormed) {path : String} {l : Location}
    (h : t.fileAt? path = some l) :
    (⟨path, (Path.fileName? path).getD path⟩ : Input).IsLocated t := by
  unfold FileTree.fileAt? at h
  split at h
  next m hm =>
      split at h
      next hfile =>
          have hplace : m = t.place path := FileTree.walk_eq_ok hm
          exact ⟨hplace ▸ hm, ht.endsInName hm hfile⟩
      next => exact absurd h (by simp)
  next => exact absurd h (by simp)

theorem isLocated_of_below {t : FileTree} (ht : t.WellFormed) {path : String} {l : Location}
    (h : t.directoryAt? path = some l) {names : Location} (hnames : names ∈ t.below l) :
    (⟨Path.join path (FileTree.pathOf names), FileTree.pathOf names⟩ : Input).IsLocated t := by
  have hlocate : t.locate path = .ok l := by
    unfold FileTree.directoryAt? at h
    split at h
    next m hm =>
        split at h
        next => exact Option.some.inj h ▸ hm
        next => exact absurd h (by simp)
    next => exact absurd h (by simp)
  rw [FileTree.below, List.mem_mergeSort, List.mem_map] at hnames
  obtain ⟨f, hf, rfl⟩ := hnames
  rw [List.mem_filter, FileTree.isBelow, Bool.and_eq_true, decide_eq_true_eq,
    List.isPrefixOf_iff_prefix] at hf
  obtain ⟨hmem, hlength, rest, hrest⟩ := hf
  have hdrop : f.location.drop l.length = rest := by rw [← hrest, List.drop_left]
  rw [hdrop]
  have hne : rest ≠ [] := by
    rintro rfl
    rw [← hrest, List.append_nil] at hlength
    exact Nat.lt_irrefl _ hlength
  have hnames : ∀ name ∈ rest, Path.IsName name :=
    fun name hname => ht.names f hmem name (hrest ▸ List.mem_append_right l hname)
  have hsegments := FileTree.segments_pathOf hnames hne
  refine ⟨?_, ?_⟩
  · have hwalk : t.locate (Path.join path (FileTree.pathOf rest)) = .ok f.location := by
      rw [FileTree.locate_join hlocate (FileTree.head?_pathOf hnames), hsegments]
      exact ht.walk_names hmem hrest.symm
    have hplace : f.location = t.place (Path.join path (FileTree.pathOf rest)) :=
      FileTree.walk_eq_ok hwalk
    exact hplace ▸ hwalk
  · obtain ⟨init, name, rfl⟩ := (List.eq_nil_or_concat' rest).resolve_left hne
    exact ⟨init, name, hsegments, hnames name (by simp)⟩

/-- The inputs that are found are located in the tree. -/
theorem isLocated_of_collectInputs {t : FileTree} (ht : t.WellFormed) {all : Bool}
    {paths : List String} {inputs : List Input}
    (h : (collectInputs t all paths).found = .ok inputs) : ∀ i ∈ inputs, i.IsLocated t := by
  induction paths generalizing inputs with
  | nil =>
      obtain rfl := Except.ok.inj h
      simp
  | cons path paths ih =>
      rw [collectInputs] at h
      split at h
      next l hfile =>
          obtain ⟨rest, hrest, rfl⟩ := exists_of_map_eq_ok h
          exact List.forall_mem_cons.mpr ⟨isLocated_of_file ht hfile, ih hrest⟩
      next l hfile hdirectory =>
          obtain ⟨rest, hrest, rfl⟩ := exists_of_map_eq_ok h
          refine List.forall_mem_append.mpr ⟨fun i hi => ?_, ih hrest⟩
          simp only [inputsBelow, List.mem_filter, List.mem_map] at hi
          obtain ⟨⟨names, ⟨hnames, -⟩, rfl⟩, -⟩ := hi
          exact isLocated_of_below ht hdirectory hnames
      next => exact absurd h (by simp)

end Command

end Contracts
