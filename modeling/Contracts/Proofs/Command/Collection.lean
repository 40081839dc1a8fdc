import Contracts.Proofs.Command.Exclusion
import Contracts.Proofs.Command.Walking

/-!
# Which files are inputs

The arguments of a run stand for its inputs, one after the other. A file stands for
itself, whatever it is called. A directory stands for the scripts below it, in the order
of a walk through it, and unless all are asked for only for those of them that are in no
excluded directory (`Command.Contributes`). The directories that count for this are those
below the argument: where the argument itself lies does not matter.

What an argument contributes is settled by this (`Command.Contributes.unique`), each
argument that leads to something contributes something
(`Command.exists_contributes`), and the inputs that are found are what the arguments
contribute (`Command.found_collectInputs`).
-/

namespace Contracts

theorem Path.isScriptName_iff {name : String} :
    isScriptName name = true ↔ ∃ stem, stem ≠ "" ∧ name = stem ++ ".js" := by
  have hname : ∀ stem : List Char, name = String.ofList stem.reverse ++ ".js" ↔
      name.toList.reverse = 's' :: 'j' :: '.' :: stem := by
    intro stem
    rw [← String.toList_inj, List.reverse_eq_iff]
    simp
  unfold isScriptName
  constructor
  · intro h
    split at h
    next stem hstem =>
        refine ⟨String.ofList stem.reverse, ?_, (hname stem).mpr hstem⟩
        simpa using h
    next => exact absurd h (by simp)
  · rintro ⟨stem, hne, hstem⟩
    rw [← String.ofList_toList (s := stem), ← List.reverse_reverse stem.toList, hname] at hstem
    rw [hstem]
    simpa using hne

namespace FileTree

variable {t : FileTree} {path : String} {l : Location}

theorem fileAt?_eq_some_iff :
    t.fileAt? path = some l ↔ t.locate path = .ok l ∧ t.isFile l = true := by
  unfold fileAt?
  cases t.locate path with
  | error e => simp
  | ok m =>
      dsimp only
      split
      next h => simpa using fun heq => heq ▸ h
      next h => simpa using fun heq => heq ▸ Bool.eq_false_of_not_eq_true h

theorem directoryAt?_eq_some_iff :
    t.directoryAt? path = some l ↔ t.locate path = .ok l ∧ t.isDirectory l = true := by
  unfold directoryAt?
  cases t.locate path with
  | error e => simp
  | ok m =>
      dsimp only
      split
      next h => simpa using fun heq => heq ▸ h
      next h => simpa using fun heq => heq ▸ Bool.eq_false_of_not_eq_true h

theorem WellFormed.isFile_eq_false (ht : t.WellFormed) (h : t.isDirectory l = true) :
    t.isFile l = false := by
  by_contra hfile
  obtain ⟨f, hf, rfl⟩ := isFile_iff.mp (by simpa using hfile)
  exact absurd (ht.apart f hf) (by simp [h])

/-- A file is called at the end of its path what it is called in its directory. -/
theorem WellFormed.fileName?_eq (ht : t.WellFormed) {parent : Location} {name : String}
    (h : t.locate path = .ok (parent ++ [name])) (hfile : t.isFile (parent ++ [name]) = true) :
    Path.fileName? path = some name := by
  obtain ⟨init, last, hsegments, hlast⟩ := ht.exists_segments_eq h hfile
  have hplace : parent ++ [name] = t.place path := walk_eq_ok h
  rw [t.place_of_segments hsegments hlast] at hplace
  obtain rfl : name = last := List.singleton_inj.mp (List.append_inj' hplace rfl).2
  exact Path.fileName?_of_endsInName hsegments hlast

end FileTree

namespace Command

/-- The names lead from the directory to a script, and unless all scripts count they lead through no
excluded directory. -/
def IsWanted (t : FileTree) (all : Bool) (l names : Location) : Prop :=
  t.isFile (l ++ names) = true ∧
    ∃ directories stem, names = directories ++ [stem ++ ".js"] ∧ stem ≠ "" ∧
      (all = true ∨
        ∀ d ∈ directories, ¬ (d = "node_modules" ∨ d = "test" ∨ d = "tests"))

/-- The input that names below a directory stand for. -/
def inputAt (path : String) (names : Location) : Input :=
  ⟨Path.join path (FileTree.pathOf names), FileTree.pathOf names⟩

/-- What an argument stands for: a file for itself, and a directory for the wanted scripts below it
in the order of a walk. -/
inductive Contributes (t : FileTree) (all : Bool) (path : String) : List Input → Prop
  | file {parent : Location} {name : String} (hlocate : t.locate path = .ok (parent ++ [name]))
      (hfile : t.isFile (parent ++ [name]) = true) : Contributes t all path [⟨path, name⟩]
  | directory {l : Location} {scripts : List Location} (hlocate : t.locate path = .ok l)
      (hdirectory : t.isDirectory l = true) (horder : FileTree.InWalkOrder scripts)
      (hscripts : ∀ names, names ∈ scripts ↔ IsWanted t all l names) :
      Contributes t all path (scripts.map (inputAt path))

section Wanted

variable {t : FileTree} {all : Bool} {l names : Location}

theorem isWanted_iff (ht : t.WellFormed) :
    IsWanted t all l names ↔
      names ∈ t.below l ∧ Path.isScriptName (names.getLastD "") = true ∧
        (all || Path.isInstrumentable (FileTree.pathOf names)) = true := by
  rw [FileTree.mem_below, Path.isScriptName_iff, IsWanted]
  constructor
  · rintro ⟨hfile, directories, stem, rfl, hstem, hdirectories⟩
    refine ⟨⟨by simp, hfile⟩, ⟨stem, hstem, by simp⟩, ?_⟩
    rw [Bool.or_eq_true]
    refine hdirectories.imp_right fun hdirectories => ?_
    by_contra hexcluded
    rw [Bool.not_eq_true, Path.isInstrumentable_eq_false_iff] at hexcluded
    obtain ⟨f, hf, hlocation⟩ := FileTree.isFile_iff.mp hfile
    rw [Path.parts_pathOf fun name hname => ht.names f hf name (hlocation ▸
      List.mem_append_right l hname), List.dropLast_concat] at hexcluded
    obtain ⟨d, hd, hname⟩ := hexcluded
    exact hdirectories d hd hname
  · rintro ⟨⟨hne, hfile⟩, ⟨stem, hstem, hlast⟩, hincluded⟩
    obtain ⟨directories, last, rfl⟩ := (List.eq_nil_or_concat' names).resolve_left hne
    rw [List.getLastD_concat] at hlast
    refine ⟨hfile, directories, stem, by rw [hlast], hstem, ?_⟩
    rw [Bool.or_eq_true] at hincluded
    refine hincluded.imp_right fun hincluded d hd hname => ?_
    have hexcluded : Path.isInstrumentable (FileTree.pathOf (directories ++ [last])) = false := by
      rw [Path.isInstrumentable_eq_false_iff]
      obtain ⟨f, hf, hlocation⟩ := FileTree.isFile_iff.mp hfile
      rw [Path.parts_pathOf fun name hname => ht.names f hf name (hlocation ▸
        List.mem_append_right l hname), List.dropLast_concat]
      exact ⟨d, hd, hname⟩
    exact absurd hincluded (by simp [hexcluded])

/-- The scripts that are taken below a directory are the wanted ones, in the order of a walk. -/
theorem exists_inputsBelow_eq (ht : t.WellFormed) (hdistinct : t.Distinct) (all : Bool)
    (path : String) (l : Location) :
    ∃ scripts, FileTree.InWalkOrder scripts ∧ (∀ names, names ∈ scripts ↔ IsWanted t all l names) ∧
      (inputsBelow path all (t.below l)).1 = scripts.map (inputAt path) := by
  refine ⟨((t.below l).filter fun names => Path.isScriptName (names.getLastD "")).filter
    fun names => all || Path.isInstrumentable (FileTree.pathOf names), ?_, fun names => ?_, ?_⟩
  · exact ((ht.inWalkOrder_below hdistinct l).filter _).filter _
  · rw [List.mem_filter, List.mem_filter, and_assoc, isWanted_iff ht]
  · rw [inputsBelow, List.filter_map]
    rfl

end Wanted

section Contributing

variable {t : FileTree} {all : Bool} {path : String}

theorem Contributes.unique (ht : t.WellFormed) {inputs others : List Input}
    (h : Contributes t all path inputs) (hothers : Contributes t all path others) :
    inputs = others := by
  cases h with
  | file hlocate hfile =>
      cases hothers with
      | file hlocate' _ =>
          have heq := Except.ok.inj (hlocate.symm.trans hlocate')
          rw [List.singleton_inj.mp (List.append_inj' heq rfl).2]
      | directory hlocate' hdirectory _ _ =>
          obtain rfl := Except.ok.inj (hlocate.symm.trans hlocate')
          exact absurd hfile (by simp [ht.isFile_eq_false hdirectory])
  | directory hlocate hdirectory horder hscripts =>
      cases hothers with
      | file hlocate' hfile =>
          obtain rfl := Except.ok.inj (hlocate.symm.trans hlocate')
          exact absurd hfile (by simp [ht.isFile_eq_false hdirectory])
      | directory hlocate' _ horder' hscripts' =>
          obtain rfl := Except.ok.inj (hlocate.symm.trans hlocate')
          rw [horder.eq_of_mem_iff horder' fun names =>
            (hscripts names).trans (hscripts' names).symm]

theorem exists_contributes (ht : t.WellFormed) (hdistinct : t.Distinct) (all : Bool) {l : Location}
    (hlocate : t.locate path = .ok l) (hexists : t.isFile l = true ∨ t.isDirectory l = true) :
    ∃ inputs, Contributes t all path inputs := by
  obtain hfile | hdirectory := hexists
  · obtain ⟨init, name, hsegments, hname⟩ := ht.exists_segments_eq hlocate hfile
    obtain rfl : l = t.place path := FileTree.walk_eq_ok hlocate
    rw [t.place_of_segments hsegments hname] at hlocate hfile
    exact ⟨_, .file hlocate hfile⟩
  · obtain ⟨scripts, horder, hscripts, -⟩ := exists_inputsBelow_eq ht hdistinct all path l
    exact ⟨_, .directory hlocate hdirectory horder hscripts⟩

theorem exists_forall₂_contributes (ht : t.WellFormed) (hdistinct : t.Distinct) (all : Bool)
    {paths : List String}
    (hpaths : ∀ path ∈ paths, ∃ l, t.locate path = .ok l ∧
      (t.isFile l = true ∨ t.isDirectory l = true)) :
    ∃ blocks, List.Forall₂ (Contributes t all) paths blocks := by
  induction paths with
  | nil => exact ⟨[], .nil⟩
  | cons path paths ih =>
      rw [List.forall_mem_cons] at hpaths
      obtain ⟨l, hlocate, hexists⟩ := hpaths.1
      obtain ⟨inputs, hinputs⟩ := exists_contributes ht hdistinct all hlocate hexists
      obtain ⟨blocks, hblocks⟩ := ih hpaths.2
      exact ⟨inputs :: blocks, .cons hinputs hblocks⟩

/-- An argument is replaced by what it contributes. -/
theorem found_collectInputs_cons (ht : t.WellFormed) (hdistinct : t.Distinct) {inputs : List Input}
    (h : Contributes t all path inputs) (paths : List String) :
    (collectInputs t all (path :: paths)).found =
      (collectInputs t all paths).found.map (inputs ++ ·) := by
  cases h with
  | file hlocate hfile =>
      simp only [collectInputs, FileTree.fileAt?_eq_some_iff.mpr ⟨hlocate, hfile⟩,
        ht.fileName?_eq hlocate hfile]
      rfl
  | @directory l scripts hlocate hdirectory horder hscripts =>
      have hfile : t.fileAt? path = none := by
        refine Option.eq_none_iff_forall_ne_some.mpr fun m hm => ?_
        obtain ⟨hm, hfile⟩ := FileTree.fileAt?_eq_some_iff.mp hm
        obtain rfl := Except.ok.inj (hlocate.symm.trans hm)
        exact absurd hfile (by simp [ht.isFile_eq_false hdirectory])
      obtain ⟨scripts', horder', hscripts', hbelow⟩ :=
        exists_inputsBelow_eq ht hdistinct all path l
      have hsame : scripts' = scripts :=
        horder'.eq_of_mem_iff horder fun names => (hscripts' names).trans (hscripts names).symm
      simp only [collectInputs, hfile,
        FileTree.directoryAt?_eq_some_iff.mpr ⟨hlocate, hdirectory⟩, hbelow, hsame]

/-- The inputs that are found are what the arguments contribute, one after the other. -/
theorem found_collectInputs (ht : t.WellFormed) (hdistinct : t.Distinct) {paths : List String}
    {blocks : List (List Input)} (h : List.Forall₂ (Contributes t all) paths blocks) :
    (collectInputs t all paths).found = .ok blocks.flatten := by
  induction h with
  | nil => rfl
  | cons hpath _ ih =>
      rw [found_collectInputs_cons ht hdistinct hpath, ih]
      rfl

/-- Asking for all scripts adds some and leaves the order of the others as it is. -/
theorem Contributes.sublist (ht : t.WellFormed) {few many : List Input}
    (hfew : Contributes t false path few) (hmany : Contributes t true path many) :
    few.Sublist many := by
  cases hfew with
  | file hlocate hfile =>
      rw [Contributes.unique ht hmany (.file hlocate hfile)]
  | @directory l scripts hlocate hdirectory horder hscripts =>
      cases hmany with
      | file hlocate' hfile =>
          obtain rfl := Except.ok.inj (hlocate.symm.trans hlocate')
          exact absurd hfile (by simp [ht.isFile_eq_false hdirectory])
      | @directory _ every hlocate' _ horder' hscripts' =>
          obtain rfl := Except.ok.inj (hlocate.symm.trans hlocate')
          have hsame : scripts = every.filter fun names => decide (names ∈ scripts) := by
            refine horder.eq_of_mem_iff (horder'.filter _) fun names => ?_
            rw [List.mem_filter, decide_eq_true_eq, iff_and_self]
            intro hnames
            obtain ⟨hfile, directories, stem, heq, hstem, -⟩ := (hscripts names).mp hnames
            exact (hscripts' names).mpr ⟨hfile, directories, stem, heq, hstem, .inl rfl⟩
          rw [hsame]
          exact List.filter_sublist.map _

theorem sublist_flatten (ht : t.WellFormed) {paths : List String} {few many : List (List Input)}
    (hfew : List.Forall₂ (Contributes t false) paths few)
    (hmany : List.Forall₂ (Contributes t true) paths many) : few.flatten.Sublist many.flatten := by
  induction hfew generalizing many with
  | nil =>
      cases hmany
      exact List.nil_sublist _
  | cons hpath _ ih =>
      cases hmany with
      | cons hpath' hmany => exact (hpath.sublist ht hpath').append (ih hmany)

/-- What a directory contributes is called the same wherever the directory lies. -/
theorem Contributes.relative_eq (ht : t.WellFormed) {u : FileTree} (hu : u.WellFormed)
    {other : String} {l m : Location} (hl : t.directoryAt? path = some l)
    (hm : u.directoryAt? other = some m)
    (hsame : ∀ names, t.isFile (l ++ names) = u.isFile (m ++ names)) {inputs others : List Input}
    (h : Contributes t all path inputs) (hothers : Contributes u all other others) :
    inputs.map Input.relative = others.map Input.relative := by
  obtain ⟨hl, hldirectory⟩ := FileTree.directoryAt?_eq_some_iff.mp hl
  obtain ⟨hm, hmdirectory⟩ := FileTree.directoryAt?_eq_some_iff.mp hm
  cases h with
  | file hlocate hfile =>
      obtain rfl := Except.ok.inj (hl.symm.trans hlocate)
      exact absurd hfile (by simp [ht.isFile_eq_false hldirectory])
  | directory hlocate _ horder hscripts =>
      cases hothers with
      | file hlocate' hfile =>
          obtain rfl := Except.ok.inj (hm.symm.trans hlocate')
          exact absurd hfile (by simp [hu.isFile_eq_false hmdirectory])
      | directory hlocate' _ horder' hscripts' =>
          obtain rfl := Except.ok.inj (hl.symm.trans hlocate)
          obtain rfl := Except.ok.inj (hm.symm.trans hlocate')
          have heq := horder.eq_of_mem_iff horder' fun names => by
            rw [hscripts, hscripts', IsWanted, IsWanted, hsame]
          rw [heq, List.map_map, List.map_map]
          rfl

end Contributing

/-- The inputs of a run are what its arguments contribute, one after the other, and nothing else is
what they contribute. If excluded directories are left out, inputs are left out and the others stay
in their order. For what is found below a directory it does not matter where the directory lies. -/
theorem found_collectInputs_eq_contributed {t : FileTree} (ht : t.WellFormed)
    (hdistinct : t.Distinct) {paths : List String}
    (hpaths : ∀ path ∈ paths, ∃ l, t.locate path = .ok l ∧
      (t.isFile l = true ∨ t.isDirectory l = true)) :
    (∀ all, ∃ blocks, (collectInputs t all paths).found = .ok blocks.flatten ∧
        ∀ others, List.Forall₂ (Contributes t all) paths others ↔ others = blocks) ∧
      (∃ few many, (collectInputs t false paths).found = .ok few ∧
        (collectInputs t true paths).found = .ok many ∧ few.Sublist many) ∧
      ∀ (u : FileTree) (all : Bool) (path other : String) (l m : Location), u.WellFormed →
        u.Distinct → t.directoryAt? path = some l → u.directoryAt? other = some m →
          (∀ names, t.isFile (l ++ names) = u.isFile (m ++ names)) →
            (collectInputs t all [path]).found.map (List.map Input.relative) =
              (collectInputs u all [other]).found.map (List.map Input.relative) := by
  refine ⟨fun all => ?_, ?_, fun u all path other l m hu hudistinct hl hm hsame => ?_⟩
  · obtain ⟨blocks, hblocks⟩ := exists_forall₂_contributes ht hdistinct all hpaths
    have hunique : Relator.RightUnique (List.Forall₂ (Contributes t all)) :=
      Relator.RightUnique.forall₂ fun _ _ _ h h' => h.unique ht h'
    refine ⟨blocks, found_collectInputs ht hdistinct hblocks, fun others => ⟨fun h => ?_, ?_⟩⟩
    · exact hunique h hblocks
    · rintro rfl
      exact hblocks
  · obtain ⟨few, hfew⟩ := exists_forall₂_contributes ht hdistinct false hpaths
    obtain ⟨many, hmany⟩ := exists_forall₂_contributes ht hdistinct true hpaths
    exact ⟨_, _, found_collectInputs ht hdistinct hfew, found_collectInputs ht hdistinct hmany,
      sublist_flatten ht hfew hmany⟩
  · obtain ⟨hlocate, hdirectory⟩ := FileTree.directoryAt?_eq_some_iff.mp hl
    obtain ⟨hlocate', hdirectory'⟩ := FileTree.directoryAt?_eq_some_iff.mp hm
    obtain ⟨inputs, hinputs⟩ := exists_contributes ht hdistinct all hlocate (.inr hdirectory)
    obtain ⟨others, hothers⟩ := exists_contributes hu hudistinct all hlocate' (.inr hdirectory')
    rw [found_collectInputs ht hdistinct (.cons hinputs .nil),
      found_collectInputs hu hudistinct (.cons hothers .nil), List.flatten_singleton,
      List.flatten_singleton]
    exact congrArg Except.ok (hinputs.relative_eq ht hu hl hm hsame hothers)

/-- A directory that lies in an excluded one, with a script that comes behind the scripts of the
directory of nearly the same name, and a file that is no script. -/
theorem found_collectInputs_eq_contributed_vendored :
    let t : FileTree :=
      ⟨["node_modules"], [],
        [⟨["node_modules", "f"], "f".toUTF8⟩, ⟨["node_modules", "src", "b", "c.js"], "c".toUTF8⟩,
          ⟨["node_modules", "src", "b.js"], "b".toUTF8⟩,
          ⟨["node_modules", "src", "test", "d.js"], "d".toUTF8⟩]⟩
    (t.WellFormed ∧ t.Distinct) ∧
      ∃ blocks, List.Forall₂ (Contributes t false) ["f", "src/"] blocks ∧
        blocks.flatten =
          [⟨"f", "f"⟩, ⟨"src/b/c.js", "b/c.js"⟩, ⟨"src/b.js", "b.js"⟩] := by
  intro t
  have ht : t.WellFormed := by decide
  have hdistinct : t.Distinct := by decide
  refine ⟨⟨ht, hdistinct⟩, ?_⟩
  have hpaths : ∀ path ∈ ["f", "src/"], ∃ l, t.locate path = .ok l ∧
      (t.isFile l = true ∨ t.isDirectory l = true) := by
    simp only [List.forall_mem_cons]
    exact ⟨⟨["node_modules", "f"], by decide, by decide⟩,
      ⟨["node_modules", "src"], by decide, by decide⟩, by simp⟩
  obtain ⟨blocks, hfound, hblocks⟩ :=
    (found_collectInputs_eq_contributed ht hdistinct hpaths).1 false
  refine ⟨blocks, (hblocks blocks).mpr rfl, ?_⟩
  have hfile : t.fileAt? "f" = some ["node_modules", "f"] := by decide
  have hnone : t.fileAt? "src/" = none := by decide
  have hdirectory : t.directoryAt? "src/" = some ["node_modules", "src"] := by decide
  have hbelow : t.below ["node_modules", "src"] = [["b", "c.js"], ["b.js"], ["test", "d.js"]] :=
    List.mergeSort_of_pairwise (by decide)
  have hinputs : (collectInputs t false ["f", "src/"]).found =
      .ok [⟨"f", "f"⟩, ⟨"src/b/c.js", "b/c.js"⟩, ⟨"src/b.js", "b.js"⟩] := by
    simp only [collectInputs, hfile, hnone, hdirectory, hbelow]
    decide +kernel
  exact Except.ok.inj (hfound.symm.trans hinputs)

end Command

end Contracts
