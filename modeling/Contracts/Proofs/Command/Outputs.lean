import Contracts.Proofs.Command.Batch
import Contracts.Proofs.Command.Inputs

/-!
# Where the outputs of a run end up

A run with an output directory that succeeds reads one input after the other,
instruments it, and puts the result at the place of its output before it goes on
(`Delivers`). The inputs are found once, at the start, but they are read from the
files as they are by then.

So an input comes out as it should if nothing else goes to its place before it is
read, and nothing else to the place of its output after that was written
(`output_of_run`). Nothing in a run makes sure of it: two inputs can have the
same output, and an output can be an input that is still to be read
(`not_output_of_run`).
-/

namespace Contracts

/-- There is a source map just where one is asked for. -/
theorem Work.isSome_sourceMap {config : Config} {contents file : String} {out : Instrumented}
    (h : (onFile config contents file).result = .ok out) :
    out.sourceMap.isSome = config.sourceMap := by
  unfold onFile at h
  split at h
  next => exact absurd h (by simp)
  next p hparse =>
      change (ofParsed config p (Directive.collect p.comments)).result = .ok out at h
      obtain ⟨e, herror, -⟩ | hprinted := ofParsed_cases config p (Directive.collect p.comments)
      · rw [herror] at h
        exact absurd h (by simp)
      · rw [(ofParsed_printed p hprinted).1] at h
        obtain rfl := Except.ok.inj h
        simp only [Script.generate]
        cases config.sourceMap <;> rfl

namespace Command

/-- The paths that are written for an input. -/
def Input.written (i : Input) (directory : String) (isMapped : Bool) : List String :=
  let path := Path.join directory i.relative
  path :: if isMapped then [path ++ ".map"] else []

/-- The files after the result for an input was written. -/
def delivered (t : FileTree) (directory : String) (i : Input) (out : Instrumented) : FileTree :=
  let path := Path.join directory i.relative
  let u := t.put (t.place path) (out.code ++ "\n").toUTF8
  match out.sourceMap with
  | some map => u.put (t.place (path ++ ".map")) (map ++ "\n").toUTF8
  | none => u

/-- From the files `t` the inputs are read, instrumented and written one after the other, which
leaves the files `u`. -/
inductive Delivers (config : Config) (directory : String) :
    FileTree → List Input → FileTree → Prop
  | nil (t : FileTree) : Delivers config directory t [] t
  | cons {t u : FileTree} {i : Input} {inputs : List Input} {contents : String}
      {out : Instrumented} (hread : t.read i.path = .ok contents)
      (hresult : (Work.onFile config contents i.path).result = .ok out)
      (hrest : Delivers config directory (delivered t directory i out) inputs u) :
      Delivers config directory t (i :: inputs) u

section Delivered

variable {t : FileTree} {directory : String} {i : Input} {out : Instrumented}

theorem base_delivered : (delivered t directory i out).base = t.base := by
  unfold delivered
  split <;> simp

/-- What is written for an input leaves all other places as they are. -/
theorem find?_delivered {isMapped : Bool} (hmapped : out.sourceMap.isSome = true → isMapped = true)
    {l : Location} (hl : ∀ path ∈ i.written directory isMapped, t.place path ≠ l) :
    (delivered t directory i out).find? l = t.find? l := by
  have hcode := hl (Path.join directory i.relative) List.mem_cons_self
  unfold delivered
  split
  next map hmap =>
      have hmem : Path.join directory i.relative ++ ".map" ∈ i.written directory isMapped := by
        rw [Input.written, hmapped (by rw [hmap]; rfl)]
        simp
      rw [FileTree.find?_put, if_neg (Ne.symm (hl _ hmem)), FileTree.find?_put,
        if_neg (Ne.symm hcode)]
  next => rw [FileTree.find?_put, if_neg (Ne.symm hcode)]

/-- The code is at the place of the output; the source map goes elsewhere. -/
theorem find?_delivered_output (hrelative : Path.EndsInName i.relative) :
    (delivered t directory i out).find? (t.place (Path.join directory i.relative)) =
      some ⟨t.place (Path.join directory i.relative), (out.code ++ "\n").toUTF8⟩ := by
  have hmap := FileTree.place_append_ne t (hrelative.join directory)
  unfold delivered
  split
  next map _ => rw [FileTree.find?_put, if_neg (Ne.symm hmap), FileTree.find?_put, if_pos rfl]
  next => rw [FileTree.find?_put, if_pos rfl]

end Delivered

namespace Delivers

variable {config : Config} {directory : String} {t u : FileTree} {inputs : List Input}

theorem base_eq (h : Delivers config directory t inputs u) : u.base = t.base := by
  induction h with
  | nil => rfl
  | cons _ _ _ ih => exact ih.trans base_delivered

theorem exists_of_append {before after : List Input}
    (h : Delivers config directory t (before ++ after) u) :
    ∃ m, Delivers config directory t before m ∧ Delivers config directory m after u := by
  induction before generalizing t with
  | nil => exact ⟨t, .nil t, h⟩
  | cons i before ih =>
      cases h with
      | cons hread hresult hrest =>
          obtain ⟨m, hbefore, hafter⟩ := ih hrest
          exact ⟨m, .cons hread hresult hbefore, hafter⟩

/-- A place that no output goes to keeps what it has. -/
theorem find?_eq (h : Delivers config directory t inputs u) {l : Location}
    (hl : ∀ i ∈ inputs, ∀ path ∈ i.written directory config.sourceMap, t.place path ≠ l) :
    u.find? l = t.find? l := by
  induction h with
  | nil => rfl
  | @cons t u i inputs contents out hread hresult hrest ih =>
      rw [List.forall_mem_cons] at hl
      have hbase : (delivered t directory i out).base = t.base := base_delivered
      rw [ih (by simpa only [FileTree.place_eq_of_base_eq hbase] using hl.2)]
      exact find?_delivered (fun hmap => (Work.isSome_sourceMap hresult).symm.trans hmap) hl.1

end Delivers

/-- A result that was written as a whole is at the places where it goes. -/
theorem stored_eq_delivered {t : FileTree} {directory : String} {i : Input} {out : Instrumented}
    (hrelative : Path.EndsInName i.relative)
    (h : (stored t (Path.join directory i.relative) out).2 = true) :
    (stored t (Path.join directory i.relative) out).1 = delivered t directory i out := by
  have hpath := hrelative.join directory
  unfold stored at h ⊢
  unfold delivered
  cases hcode : t.write (Path.join directory i.relative) (out.code ++ "\n") with
  | error e =>
      rw [hcode] at h
      exact absurd h (by simp)
  | ok u =>
      obtain rfl := FileTree.write_eq_ok hpath hcode
      rw [hcode] at h
      cases hmap : out.sourceMap with
      | none => rfl
      | some map =>
          simp only [hmap] at h ⊢
          split at h
          next => exact absurd h (by simp)
          next v hbeside =>
              rw [FileTree.write_eq_ok (hpath.append (by decide) (by decide)) hbeside,
                FileTree.place_eq_of_base_eq (FileTree.base_put _ _ _)]

namespace Progress

variable {r : Request} {p : Progress} {directory : String} {i : Input}

/-- Only an accepted input does not fail a run. -/
theorem exists_accepted_of_step (hstopped : p.stopped = false)
    (h : (p.step r (some directory) i).succeeded = true) :
    ∃ contents out lines, p.files.read i.path = .ok contents ∧
      (Work.onFile p.session.config contents i.path).result = .ok out ∧
      p.step r (some directory) i = { p with
        session := (p.session.instrument contents i.path).2
        files := (stored p.files (Path.join directory i.relative) out).1
        succeeded := p.succeeded && (stored p.files (Path.join directory i.relative) out).2
        messages := p.messages ++ lines } := by
  cases hread : p.files.read i.path with
  | error e =>
      obtain ⟨_, hstep⟩ := step_of_unread r directory hstopped hread
      rw [hstep] at h
      exact absurd h (by simp)
  | ok contents =>
      cases hresult : (Work.onFile p.session.config contents i.path).result with
      | error e =>
          obtain ⟨_, hstep⟩ := step_of_refused r directory hstopped hread hresult
          rw [hstep] at h
          exact absurd h (by simp)
      | ok out =>
          obtain ⟨lines, hstep⟩ := step_of_accepted r directory hstopped hread hresult
          exact ⟨contents, out, lines, rfl, hresult, hstep⟩

/-- A run that has failed stays so. -/
theorem succeeded_of_step (h : (p.step r (some directory) i).succeeded = true) :
    p.succeeded = true := by
  cases hstopped : p.stopped with
  | true => rwa [step_of_stopped r directory hstopped] at h
  | false =>
      obtain ⟨_, _, _, -, -, hstep⟩ := exists_accepted_of_step hstopped h
      rw [hstep] at h
      exact (Bool.and_eq_true_iff.mp h).1

/-- Work on an input that does not fail a run: the input is read and instrumented, and its result
is written. -/
theorem step_of_succeeded (hstopped : p.stopped = false)
    (hrelative : Path.EndsInName i.relative)
    (h : (p.step r (some directory) i).succeeded = true) :
    (p.step r (some directory) i).stopped = false ∧
      (p.step r (some directory) i).session.config = p.session.config ∧
      ∃ contents out, p.files.read i.path = .ok contents ∧
        (Work.onFile p.session.config contents i.path).result = .ok out ∧
        (p.step r (some directory) i).files = delivered p.files directory i out := by
  obtain ⟨contents, out, lines, hread, hresult, hstep⟩ := exists_accepted_of_step hstopped h
  rw [hstep] at h ⊢
  refine ⟨hstopped, rfl, contents, out, hread, hresult, ?_⟩
  exact stored_eq_delivered hrelative (Bool.and_eq_true_iff.mp h).2

theorem succeeded_of_foldl {inputs : List Input}
    (h : (inputs.foldl (step r (some directory)) p).succeeded = true) : p.succeeded = true := by
  induction inputs generalizing p with
  | nil => exact h
  | cons i inputs ih => exact succeeded_of_step (ih h)

theorem delivers_of_foldl (p : Progress) {inputs : List Input}
    (hstopped : p.stopped = false) (hrelative : ∀ i ∈ inputs, Path.EndsInName i.relative)
    (h : (inputs.foldl (step r (some directory)) p).succeeded = true) :
    Delivers p.session.config directory p.files inputs
      (inputs.foldl (step r (some directory)) p).files := by
  induction inputs generalizing p with
  | nil => exact .nil p.files
  | cons i inputs ih =>
      rw [List.forall_mem_cons] at hrelative
      rw [List.foldl_cons] at h ⊢
      obtain ⟨hgoing, hconfig, contents, out, hread, hresult, hfiles⟩ :=
        step_of_succeeded hstopped hrelative.1 (succeeded_of_foldl h)
      have hrest := ih _ hgoing hrelative.2 h
      rw [hconfig, hfiles] at hrest
      exact .cons hread hresult hrest

end Progress

section Running

variable {arguments paths : List String} {t : FileTree} {r : Request} {directory : String}
  {configFile checker : Option String} {sourceMap strict all : Bool}

/-- A successful run has read its configuration and found its inputs. -/
theorem exists_found_of_run (hread : Request.read arguments = .ok r)
    (haction : r.action =
      .instrument paths (some directory) sourceMap configFile checker strict all)
    (hexit : (run arguments t).exit = 0) :
    ∃ loaded inputs, loadConfig t configFile = .ok loaded ∧
      (collectInputs t all paths).found = .ok inputs := by
  rw [run, hread] at hexit
  simp only [Request.run, haction, runInstrument] at hexit
  cases hloaded : loadConfig t configFile with
  | error message =>
      simp only [hloaded] at hexit
      exact absurd hexit (by simp [failed])
  | ok loaded =>
      cases hfound : (collectInputs t all paths).found with
      | error message =>
          simp only [hloaded, hfound] at hexit
          exact absurd hexit (by simp [failed])
      | ok inputs => exact ⟨loaded, inputs, rfl, rfl⟩

/-- A successful run with an output directory delivers all its inputs. -/
theorem exists_delivers_of_run (ht : t.WellFormed) (hread : Request.read arguments = .ok r)
    (haction : r.action =
      .instrument paths (some directory) sourceMap configFile checker strict all)
    (hexit : (run arguments t).exit = 0) :
    ∃ loaded inputs, loadConfig t configFile = .ok loaded ∧
      (collectInputs t all paths).found = .ok inputs ∧
      Delivers (overrideConfig loaded checker strict sourceMap) directory t inputs
        (run arguments t).files := by
  obtain ⟨loaded, inputs, hloaded, hfound⟩ := exists_found_of_run hread haction hexit
  refine ⟨loaded, inputs, hloaded, hfound, ?_⟩
  let b : Batch := ⟨r, directory, overrideConfig loaded checker strict sourceMap, t,
    logLines r (collectInputs t all paths).log⟩
  have hrun : run arguments t = b.outcome inputs := run_eq_outcome hread haction hloaded hfound
  rw [hrun] at hexit ⊢
  have hsucceeded : (b.after inputs).succeeded = true := by
    by_contra hfailed
    rw [Batch.exit_outcome rfl, if_neg hfailed] at hexit
    exact absurd hexit (by simp)
  exact Progress.delivers_of_foldl b.start rfl
    (fun i hi => (isLocated_of_collectInputs ht hfound i hi).relative) hsucceeded

end Running

/-- After a successful run with an output directory, the output of an input is the code of what the
input was at the start, with one line end behind it, if none of the inputs before it is written to
its place and none of those after it to the place of its output. -/
theorem output_of_run (arguments paths : List String) (t : FileTree) (r : Request)
    (directory : String) (configFile checker : Option String) (sourceMap strict all : Bool)
    (ht : t.WellFormed) (hread : Request.read arguments = .ok r)
    (haction : r.action =
      .instrument paths (some directory) sourceMap configFile checker strict all)
    (hexit : (run arguments t).exit = 0) :
    ∃ loaded inputs, loadConfig t configFile = .ok loaded ∧
      (collectInputs t all paths).found = .ok inputs ∧
      ∀ before i after, inputs = before ++ i :: after →
        (∀ j ∈ before, ∀ path ∈ j.written directory sourceMap, t.place path ≠ t.place i.path) →
        (∀ j ∈ after, ∀ path ∈ j.written directory sourceMap,
          t.place path ≠ t.place (Path.join directory i.relative)) →
        ∃ contents out, t.read i.path = .ok contents ∧
          ((Session.start (overrideConfig loaded checker strict sourceMap)).instrument
            contents i.path).1 = .ok out ∧
          ((run arguments t).files.find? (t.place (Path.join directory i.relative))).map
            File.bytes = some (out.code ++ "\n").toUTF8 := by
  obtain ⟨loaded, inputs, hloaded, hfound, hrun⟩ := exists_delivers_of_run ht hread haction hexit
  refine ⟨loaded, inputs, hloaded, hfound, ?_⟩
  rintro before i after rfl hbefore hafter
  obtain ⟨hlocate, hrelative⟩ :=
    isLocated_of_collectInputs ht hfound i (List.mem_append_right before List.mem_cons_self)
  obtain ⟨m, hfirst, hsecond⟩ := hrun.exists_of_append
  cases hsecond with
  | @cons _ _ _ _ contents out hread hresult hrest =>
      have hplace := FileTree.place_eq_of_base_eq hfirst.base_eq
      refine ⟨contents, out, ?_, hresult, ?_⟩
      · obtain ⟨-, f, hf, htext⟩ := FileTree.read_eq_ok_iff.mp hread
        rw [hplace, hfirst.find?_eq hbefore] at hf
        exact FileTree.read_eq_ok_iff.mpr ⟨hlocate, f, hf, htext⟩
      · have hbase : (delivered m directory i out).base = t.base :=
          base_delivered.trans hfirst.base_eq
        have hlater : ∀ j ∈ after, ∀ path ∈ j.written directory sourceMap,
            (delivered m directory i out).place path ≠
              t.place (Path.join directory i.relative) := by
          simpa only [FileTree.place_eq_of_base_eq hbase] using hafter
        rw [hrest.find?_eq hlater, ← hplace, find?_delivered_output hrelative]
        rfl

/-- A file and a file in a directory, with an output directory of their own. -/
theorem output_of_run_apart :
    let t : FileTree :=
      ⟨[], [], [⟨["a.js"], "a;\n".toUTF8⟩, ⟨["in", "b.js"], "b;\n".toUTF8⟩]⟩
    let arguments := ["instrument", "a.js", "in", "--out-dir", "out"]
    (t.WellFormed ∧ (run arguments t).exit = 0) ∧
      ∃ out, ((Session.start .default).instrument "b;\n" "in/b.js").1 = .ok out ∧
        ((run arguments t).files.find? ["out", "b.js"]).map File.bytes =
          some (out.code ++ "\n").toUTF8 := by
  intro t arguments
  have ht : t.WellFormed := by decide
  have hexit : (run arguments t).exit = 0 := by decide +kernel
  refine ⟨⟨ht, hexit⟩, ?_⟩
  obtain ⟨loaded, inputs, hloaded, hfound, houtputs⟩ :=
    output_of_run arguments ["a.js", "in"] t
      ⟨0, false, .instrument ["a.js", "in"] (some "out") false none none false false⟩
      "out" none none false false false ht rfl rfl hexit
  obtain rfl : Config.default = loaded := Except.ok.inj hloaded
  have hinputs : (collectInputs t false ["a.js", "in"]).found =
      .ok [⟨"a.js", "a.js"⟩, ⟨"in/b.js", "b.js"⟩] := by
    decide +kernel
  obtain rfl := Except.ok.inj (hinputs.symm.trans hfound)
  obtain ⟨contents, out, hread, hresult, hfile⟩ :=
    houtputs [⟨"a.js", "a.js"⟩] ⟨"in/b.js", "b.js"⟩ [] rfl (by decide) (by simp)
  have hcontents : t.read "in/b.js" = .ok "b;\n" := by
    decide +kernel
  obtain rfl : "b;\n" = contents := Except.ok.inj (hcontents.symm.trans hread)
  exact ⟨out, hresult, hfile⟩

/-- The output of the first input is the second one, which is read after that: at the place of its
own output there is the code of the first. -/
theorem not_output_of_run :
    let t : FileTree :=
      ⟨[], [], [⟨["a.js"], "a;\n".toUTF8⟩, ⟨["in", "b", "a.js"], "c;\n".toUTF8⟩]⟩
    let arguments := ["instrument", "a.js", "in", "--out-dir", "in/b"]
    let i : Input := ⟨"in/b/a.js", "b/a.js"⟩
    (t.WellFormed ∧ (run arguments t).exit = 0) ∧
      (collectInputs t false ["a.js", "in"]).found = .ok [⟨"a.js", "a.js"⟩, i] ∧
      t.read i.path = .ok "c;\n" ∧
      ∃ out, ((Session.start .default).instrument "c;\n" i.path).1 = .ok out ∧
        ((run arguments t).files.find? (t.place (Path.join "in/b" i.relative))).map
          File.bytes ≠ some (out.code ++ "\n").toUTF8 := by
  intro t arguments i
  refine ⟨⟨by decide, by decide +kernel⟩, by decide +kernel, by decide +kernel, ?_⟩
  have hfile : ((run arguments t).files.find? (t.place (Path.join "in/b" i.relative))).map
      File.bytes = some "a;\n".toUTF8 := by
    decide +kernel
  have hcode : (((Session.start .default).instrument "c;\n" i.path).1.map Instrumented.code) =
      .ok "c;" := by
    decide +kernel
  obtain ⟨out, hout, hsame⟩ := exists_of_map_eq_ok hcode
  refine ⟨out, hout, ?_⟩
  rw [hfile, hsame]
  decide +kernel

end Command

end Contracts
