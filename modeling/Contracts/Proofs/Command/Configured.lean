import Contracts.Proofs.Command.Batch
import Contracts.Proofs.Command.Outputs

/-!
# A run with a configuration file

Without further options a run takes over all fields of its configuration file but
one: whether there is a source map is always decided by the command line
(`overrideConfig`). The field makes no difference to the rest of the work
(`Work.onFile_unmapped`). So a run on one file writes the code that the
configuration asks for, and it never writes a source map (`run_configured`), also
where the configuration asks for one (`not_run_configured`).
-/

namespace Contracts

namespace Work

theorem ofParsed_unmapped (config : Config) (p : Parsed) (found : Directive.Collected) :
    let work := ofParsed { config with sourceMap := false } p found
    work.result =
        (ofParsed config p found).result.map (fun out => { out with sourceMap := none }) ∧
      work.sites = (ofParsed config p found).sites := by
  intro work
  by_cases h : config.strictDirectives = true → found.errors = []
  · have hmapped := ofParsed_printed p h
    have hunmapped : work.result = _ ∧ work.sites = _ := ofParsed_printed p h
    rw [hmapped.1, hmapped.2, hunmapped.1, hunmapped.2]
    exact ⟨rfl, rfl⟩
  · rw [Classical.not_imp] at h
    obtain ⟨e, es, herrors⟩ := List.exists_cons_of_ne_nil h.2
    have hstrict : ({ config with sourceMap := false } : Config).strictDirectives = true := h.1
    have hmapped := ofParsed_strict h.1 p herrors
    have hunmapped : work.result = _ ∧ work.sites = _ := ofParsed_strict hstrict p herrors
    rw [hmapped.1, hmapped.2, hunmapped.1, hunmapped.2]
    exact ⟨rfl, rfl⟩

/-- Whether a source map is asked for decides about the source map only. -/
theorem onFile_unmapped (config : Config) (contents file : String) :
    let work := onFile { config with sourceMap := false } contents file
    work.result =
        (onFile config contents file).result.map (fun out => { out with sourceMap := none }) ∧
      work.sites = (onFile config contents file).sites := by
  unfold onFile
  cases (Source.ofContents file contents).parse with
  | error e => exact ⟨rfl, rfl⟩
  | ok p => exact ofParsed_unmapped config p (Directive.collect p.comments)

end Work

namespace Command

theorem collectInputs_file {t : FileTree} {file contents : String}
    (h : t.read file = .ok contents) (all : Bool) :
    collectInputs t all [file] = ⟨.ok [⟨file, (Path.fileName? file).getD file⟩], []⟩ := by
  obtain ⟨hlocate, f, hf, -⟩ := FileTree.read_eq_ok_iff.mp h
  have hfile : t.fileAt? file = some (t.place file) := by
    rw [FileTree.fileAt?, hlocate]
    simp [FileTree.isFile, hf]
  simp only [collectInputs, hfile]
  rfl

namespace Batch

variable {b : Batch} {i : Input} {contents : String}

theorem outcome_of_refused (hread : b.files.read i.path = .ok contents) {e : InstrumentError}
    (h : (Work.onFile b.config contents i.path).result = .error e) :
    (b.outcome [i]).exit = 1 ∧ (b.outcome [i]).Ends b.files
      ((Session.start b.config).instrument contents i.path).2.stats := by
  obtain ⟨lines, hstep⟩ :=
    Progress.step_of_refused (p := b.start) b.request b.directory rfl hread h
  have hsession : ((Session.start b.config).instrument contents i.path).2 = .start b.config :=
    Session.instrument_of_error h
  have hafter : b.after [i] =
      { b.start with succeeded := false, messages := b.start.messages ++ lines } := hstep
  rw [hsession]
  exact ⟨exit_outcome hafter, ends_outcome hafter rfl⟩

theorem outcome_of_accepted (hread : b.files.read i.path = .ok contents) {out : Instrumented}
    (h : (Work.onFile b.config contents i.path).result = .ok out) {u : FileTree} {isWritten : Bool}
    (hstored : stored b.files (Path.join b.directory i.relative) out = (u, isWritten)) :
    (b.outcome [i]).exit = (if isWritten then 0 else 1) ∧
      (b.outcome [i]).Ends u ((Session.start b.config).instrument contents i.path).2.stats := by
  obtain ⟨lines, hstep⟩ :=
    Progress.step_of_accepted (p := b.start) b.request b.directory rfl hread h
  have hafter : b.after [i] = { b.start with
      session := ((Session.start b.config).instrument contents i.path).2
      files := u
      succeeded := isWritten
      messages := b.start.messages ++ lines } := by
    rw [after, List.foldl_cons, hstep, show b.start.files = b.files from rfl, hstored]
    rfl
  exact ⟨exit_outcome hafter, ends_outcome hafter rfl⟩

end Batch

/-- A run on one file with a configuration file and no other option: what is written is the code
that a session with this configuration gives. A source map is never written, though the session
gives one where the configuration asks for it. -/
theorem run_configured (arguments : List String) (t : FileTree) (r : Request)
    (file directory configFile text contents : String) (all : Bool) (c : Config)
    (hread : Request.read arguments = .ok r)
    (haction : r.action =
      .instrument [file] (some directory) false (some configFile) none false all)
    (htext : t.read configFile = .ok text) (hconfig : Config.read text = .ok c)
    (hcontents : t.read file = .ok contents) :
    let path := Path.join directory ((Path.fileName? file).getD file)
    let done := (Session.start c).instrument contents file
    (∀ e, done.1 = .error e →
      (run arguments t).exit = 1 ∧ (run arguments t).Ends t done.2.stats) ∧
      ∀ out, done.1 = .ok out → out.sourceMap.isSome = c.sourceMap ∧
        (∀ u, t.write path (out.code ++ "\n") = .ok u →
          (run arguments t).exit = 0 ∧ (run arguments t).Ends u done.2.stats) ∧
        ∀ e, t.write path (out.code ++ "\n") = .error e →
          (run arguments t).exit = 1 ∧ (run arguments t).Ends t done.2.stats := by
  intro path done
  have hloaded : loadConfig t (some configFile) = .ok c := by
    simp only [loadConfig, htext, hconfig]
  let i : Input := ⟨file, (Path.fileName? file).getD file⟩
  let b : Batch := ⟨r, directory, { c with sourceMap := false }, t,
    logLines r (collectInputs t all [file]).log⟩
  have hrun : run arguments t = b.outcome [i] :=
    run_eq_outcome hread haction hloaded (by rw [collectInputs_file hcontents])
  obtain ⟨hresult, hsites⟩ := Work.onFile_unmapped c contents file
  have hstats : ((Session.start b.config).instrument contents file).2.stats = done.2.stats :=
    congrArg Stats.zero.addSites hsites
  have hdone : (Work.onFile c contents file).result = done.1 := rfl
  rw [hrun, ← hstats]
  refine ⟨?_, ?_⟩
  · intro e he
    have hrefused : (Work.onFile b.config contents file).result = .error e := by
      rw [hresult, hdone, he]
      rfl
    exact Batch.outcome_of_refused (b := b) (i := i) hcontents hrefused
  · intro out hout
    have haccepted : (Work.onFile b.config contents file).result =
        .ok { out with sourceMap := none } := by
      rw [hresult, hdone, hout]
      rfl
    refine ⟨Work.isSome_sourceMap hout, ?_, ?_⟩
    · intro u hu
      have hstored : stored t path { out with sourceMap := none } = (u, true) := by
        rw [stored, hu]
      exact Batch.outcome_of_accepted (b := b) (i := i) hcontents haccepted hstored
    · intro e he
      have hstored : stored t path { out with sourceMap := none } = (t, false) := by
        rw [stored, he]
      exact Batch.outcome_of_accepted (b := b) (i := i) hcontents haccepted hstored

/-- A configuration file that does not let malformed directives pass. -/
theorem run_configured_strict :
    let t : FileTree := ⟨[], [], [⟨["a.js"], "/*typify: adt A\nb*/".toUTF8⟩,
      ⟨["c.json"], "\x7b\"strict_directives\": true\x7d".toUTF8⟩]⟩
    let arguments := ["instrument", "a.js", "--config", "c.json", "--out-dir", "out"]
    (run arguments t).exit = 1 ∧ (run arguments t).files = t := by
  intro t arguments
  let c : Config := { Config.default with strictDirectives := true }
  have htext : t.read "c.json" = .ok "\x7b\"strict_directives\": true\x7d" := by decide +kernel
  have hconfig : Config.read "\x7b\"strict_directives\": true\x7d" = .ok c := by decide +kernel
  have hcontents : t.read "a.js" = .ok "/*typify: adt A\nb*/" := by decide +kernel
  have hrefused : c.refuses "/*typify: adt A\nb*/" "a.js" = true := by decide +kernel
  obtain ⟨e, he⟩ := Work.exists_result_error_iff.mpr hrefused
  obtain ⟨hexit, hends⟩ := (run_configured arguments t
    ⟨0, false, .instrument ["a.js"] (some "out") false (some "c.json") none false false⟩
    "a.js" "out" "c.json" _ _ false c rfl rfl htext hconfig hcontents).1 e he
  exact ⟨hexit, hends.files_eq⟩

/-- A configuration file that asks for a source map: a session with this configuration gives one,
and the run writes none. -/
theorem not_run_configured :
    let t : FileTree := ⟨[], [], [⟨["a.js"], "a;\n".toUTF8⟩,
      ⟨["c.json"], "\x7b\"source_map\": true\x7d".toUTF8⟩]⟩
    let arguments := ["instrument", "a.js", "--config", "c.json", "--out-dir", "out"]
    let c : Config := { Config.default with sourceMap := true }
    loadConfig t (some "c.json") = .ok c ∧ t.read "a.js" = .ok "a;\n" ∧
      (∃ out, ((Session.start c).instrument "a;\n" "a.js").1 = .ok out ∧
        out.sourceMap.isSome = true) ∧
      (run arguments t).exit = 0 ∧
      (run arguments t).files.isFile ["out", "a.js"] = true ∧
      (run arguments t).files.isFile ["out", "a.js.map"] = false := by
  intro t arguments c
  have hmap : ((Session.start c).instrument "a;\n" "a.js").1.map
      (fun out => out.sourceMap.isSome) = .ok true := by
    decide +kernel
  obtain ⟨out, hout, hmapped⟩ := exists_of_map_eq_ok hmap
  exact ⟨by decide +kernel, by decide +kernel, ⟨out, hout, hmapped⟩, by decide +kernel,
    by decide +kernel, by decide +kernel⟩

end Command

end Contracts
