import Contracts.Proofs.Command.Batch
import Contracts.Proofs.Command.Trees

/-!
# Inputs that are refused

Whether an input is refused is settled when its turn comes, by what the file is by
then: the output of an earlier input may have taken its place. So the inputs of a
run are listed with the point at which each of them is met (`Progress.turns`), and
the ones that are accepted are read off that list (`Progress.accepted`).

A refused input fails the run and leaves everything else but the messages as it is.
So a run on all inputs and one on the accepted inputs go through the same files and
the same statistics, where the second one stands still whenever the first one meets
an input that it refuses (`Progress.Agrees`).
-/

namespace Contracts.Command

/-- An input, and where a run stands when its turn comes. -/
structure Turn where
  progress : Progress
  input : Input

namespace Turn

/-- Whether the input can be read and is refused. -/
def isRefused (turn : Turn) : Bool :=
  match turn.progress.files.read turn.input.path with
  | .error _ => false
  | .ok contents => turn.progress.session.config.refuses contents turn.input.path

/-- Whether all can be written that there is to write for the input. -/
def isWritable (directory : String) (turn : Turn) : Bool :=
  match turn.progress.files.read turn.input.path with
  | .error _ => true
  | .ok contents =>
    match (turn.progress.session.instrument contents turn.input.path).1 with
    | .error _ => true
    | .ok out =>
      (stored turn.progress.files (Path.join directory turn.input.relative) out).2

end Turn

theorem exists_read_stored {t : FileTree} {path other : String} (out : Instrumented)
    (h : ∃ contents, t.read other = .ok contents) :
    ∃ contents, (stored t path out).1.read other = .ok contents := by
  unfold stored
  cases hcode : t.write path (out.code ++ "\n") with
  | error e => exact h
  | ok u =>
      have hu := FileTree.exists_read_of_write hcode h
      cases out.sourceMap with
      | none => exact hu
      | some map =>
          dsimp only
          cases hbeside : u.write (path ++ ".map") (map ++ "\n") with
          | error e => exact hu
          | ok v => exact FileTree.exists_read_of_write hbeside hu

namespace Progress

variable (r r' : Request) (directory : String)

/-- The turns of inputs from some point of a run on. -/
def turns (p : Progress) : List Input → List Turn
  | [] => []
  | i :: inputs => ⟨p, i⟩ :: (p.step r (some directory) i).turns inputs

/-- The inputs that are not refused when their turn comes. -/
def accepted (p : Progress) (inputs : List Input) : List Input :=
  ((p.turns r directory inputs).filter fun turn => !turn.isRefused).map Turn.input

/-- Two runs stand at the same point, up to the messages and to whether they have failed so far. -/
structure Agrees (p q : Progress) : Prop where
  session : q.session = p.session
  files : q.files = p.files
  stopped : q.stopped = p.stopped

variable {r r' directory} {p q : Progress} {i : Input} {inputs : List Input}

theorem Agrees.refl (p : Progress) : p.Agrees p :=
  ⟨rfl, rfl, rfl⟩

theorem Agrees.trans {p q s : Progress} (h : p.Agrees q) (h' : q.Agrees s) : p.Agrees s :=
  ⟨h'.session.trans h.session, h'.files.trans h.files, h'.stopped.trans h.stopped⟩

theorem accepted_cons_of_isRefused (h : (⟨p, i⟩ : Turn).isRefused = true) :
    p.accepted r directory (i :: inputs) =
      (p.step r (some directory) i).accepted r directory inputs := by
  simp [accepted, turns, h]

theorem accepted_cons_of_not_isRefused (h : (⟨p, i⟩ : Turn).isRefused = false) :
    p.accepted r directory (i :: inputs) =
      i :: (p.step r (some directory) i).accepted r directory inputs := by
  simp [accepted, turns, h]

/-- What is made of an input that can be read. -/
theorem exists_result_of_isRefused (h : (⟨p, i⟩ : Turn).isRefused = true) :
    ∃ contents e, p.files.read i.path = .ok contents ∧
      (Work.onFile p.session.config contents i.path).result = .error e := by
  unfold Turn.isRefused at h
  split at h
  next => exact absurd h (by simp)
  next contents hread =>
      obtain ⟨e, he⟩ := Work.exists_result_error_iff.mpr h
      exact ⟨contents, e, hread, he⟩

theorem exists_result_of_not_isRefused (h : (⟨p, i⟩ : Turn).isRefused = false)
    {contents : String} (hread : p.files.read i.path = .ok contents) :
    ∃ out, (Work.onFile p.session.config contents i.path).result = .ok out := by
  simp only [Turn.isRefused, hread] at h
  cases hresult : (Work.onFile p.session.config contents i.path).result with
  | ok out => exact ⟨out, rfl⟩
  | error e =>
      have hrefused := Work.exists_result_error_iff.mp ⟨e, hresult⟩
      rw [h] at hrefused
      exact absurd hrefused (by simp)

/-- A refused input changes neither the files nor the statistics. -/
theorem agrees_step_of_isRefused (h : (⟨p, i⟩ : Turn).isRefused = true) :
    (p.step r (some directory) i).Agrees p := by
  cases hstopped : p.stopped with
  | true =>
      rw [step_of_stopped r directory hstopped]
      exact .refl p
  | false =>
      obtain ⟨contents, e, hread, hresult⟩ := exists_result_of_isRefused h
      obtain ⟨lines, hstep⟩ := step_of_refused r directory hstopped hread hresult
      rw [hstep]
      exact ⟨rfl, rfl, rfl⟩

/-- What an input changes does not depend on what was told before it. -/
theorem Agrees.step (h : p.Agrees q) (i : Input) :
    (p.step r (some directory) i).Agrees (q.step r' (some directory) i) := by
  obtain ⟨hsession, hfiles, hsame⟩ := h
  cases hstopped : p.stopped with
  | true =>
      rw [step_of_stopped r directory hstopped,
        step_of_stopped r' directory (hsame.trans hstopped)]
      exact ⟨hsession, hfiles, hsame⟩
  | false =>
      have hgoing : q.stopped = false := hsame.trans hstopped
      cases hread : p.files.read i.path with
      | error e =>
          obtain ⟨_, hp⟩ := step_of_unread r directory hstopped hread
          obtain ⟨_, hq⟩ := step_of_unread r' directory hgoing (hfiles ▸ hread)
          rw [hp, hq]
          exact ⟨hsession, hfiles, rfl⟩
      | ok contents =>
          cases hresult : (Work.onFile p.session.config contents i.path).result with
          | error e =>
              obtain ⟨_, hp⟩ := step_of_refused r directory hstopped hread hresult
              obtain ⟨_, hq⟩ := step_of_refused r' directory hgoing (hfiles ▸ hread)
                (hsession ▸ hresult)
              rw [hp, hq]
              exact ⟨hsession, hfiles, hsame⟩
          | ok out =>
              obtain ⟨_, hp⟩ := step_of_accepted r directory hstopped hread hresult
              obtain ⟨_, hq⟩ := step_of_accepted r' directory hgoing (hfiles ▸ hread)
                (hsession ▸ hresult)
              rw [hp, hq]
              exact ⟨by simp only [hsession], by simp only [hfiles], hsame⟩

/-- A run on the inputs and a run on those that the first one accepts. -/
theorem Agrees.foldl_accepted (h : p.Agrees q) :
    (inputs.foldl (Progress.step r (some directory)) p).Agrees
      ((p.accepted r directory inputs).foldl (Progress.step r' (some directory)) q) := by
  induction inputs generalizing p q with
  | nil => exact h
  | cons i inputs ih =>
      rw [List.foldl_cons]
      cases hrefused : (⟨p, i⟩ : Turn).isRefused with
      | true =>
          rw [accepted_cons_of_isRefused hrefused]
          exact ih ((agrees_step_of_isRefused hrefused).trans h)
      | false =>
          rw [accepted_cons_of_not_isRefused hrefused, List.foldl_cons]
          exact ih (h.step i)

theorem exists_read_step {path : String} (h : ∃ contents, p.files.read path = .ok contents) :
    ∃ contents, (p.step r (some directory) i).files.read path = .ok contents := by
  cases hstopped : p.stopped with
  | true => rwa [step_of_stopped r directory hstopped]
  | false =>
      cases hread : p.files.read i.path with
      | error e =>
          obtain ⟨_, hstep⟩ := step_of_unread r directory hstopped hread
          rwa [hstep]
      | ok contents =>
          cases hresult : (Work.onFile p.session.config contents i.path).result with
          | error e =>
              obtain ⟨_, hstep⟩ := step_of_refused r directory hstopped hread hresult
              rwa [hstep]
          | ok out =>
              obtain ⟨_, hstep⟩ := step_of_accepted r directory hstopped hread hresult
              rw [hstep]
              exact exists_read_stored out h

theorem stopped_step (hstopped : p.stopped = false)
    (hread : ∃ contents, p.files.read i.path = .ok contents) :
    (p.step r (some directory) i).stopped = false := by
  obtain ⟨contents, hread⟩ := hread
  cases hresult : (Work.onFile p.session.config contents i.path).result with
  | error e =>
      obtain ⟨_, hstep⟩ := step_of_refused r directory hstopped hread hresult
      rw [hstep, hstopped]
  | ok out =>
      obtain ⟨_, hstep⟩ := step_of_accepted r directory hstopped hread hresult
      rw [hstep, hstopped]

variable (r directory) in
/-- From some point of a run on, its inputs can be read and their outputs can be written. -/
structure Unhindered (p : Progress) (inputs : List Input) : Prop where
  going : p.stopped = false
  readable : ∀ i ∈ inputs, ∃ contents, p.files.read i.path = .ok contents
  writable : ∀ turn ∈ p.turns r directory inputs, turn.isWritable directory = true

namespace Unhindered

variable (h : p.Unhindered r directory (i :: inputs))

include h

theorem step : (p.step r (some directory) i).Unhindered r directory inputs where
  going := stopped_step h.going (h.readable i List.mem_cons_self)
  readable j hj := exists_read_step (h.readable j (List.mem_cons_of_mem i hj))
  writable turn hturn := h.writable turn (List.mem_cons_of_mem _ hturn)

theorem succeeded_step_of_isRefused (hrefused : (⟨p, i⟩ : Turn).isRefused = true) :
    (p.step r (some directory) i).succeeded = false := by
  obtain ⟨contents, e, hread, hresult⟩ := exists_result_of_isRefused hrefused
  obtain ⟨_, hstep⟩ := step_of_refused r directory h.going hread hresult
  rw [hstep]

/-- An accepted input does not fail a run, nor another one that stands at the same point. -/
theorem succeeded_step (hq : p.Agrees q) (haccepted : (⟨p, i⟩ : Turn).isRefused = false) :
    (q.step r' (some directory) i).succeeded = q.succeeded := by
  obtain ⟨contents, hread⟩ := h.readable i List.mem_cons_self
  obtain ⟨out, hresult⟩ := exists_result_of_not_isRefused haccepted hread
  have hstored : (stored p.files (Path.join directory i.relative) out).2 = true := by
    simpa only [Turn.isWritable, hread, Session.instrument, hresult] using
      h.writable ⟨p, i⟩ List.mem_cons_self
  obtain ⟨_, hstep⟩ := step_of_accepted r' directory (hq.stopped.trans h.going)
    (hq.files ▸ hread) (hq.session ▸ hresult)
  rw [hstep]
  simp only [hq.files, hstored, Bool.and_true]

end Unhindered

/-- A run that is not hindered goes through to its end. -/
theorem Unhindered.stopped_foldl (h : p.Unhindered r directory inputs) :
    (inputs.foldl (Progress.step r (some directory)) p).stopped = false := by
  induction inputs generalizing p with
  | nil => exact h.going
  | cons i inputs ih => exact ih h.step

/-- Only refused inputs make it fail. -/
theorem Unhindered.succeeded_foldl (h : p.Unhindered r directory inputs) :
    (inputs.foldl (Progress.step r (some directory)) p).succeeded =
      (p.succeeded && (p.turns r directory inputs).all fun turn => !turn.isRefused) := by
  induction inputs generalizing p with
  | nil => simp [turns]
  | cons i inputs ih =>
      rw [List.foldl_cons, ih h.step, turns, List.all_cons]
      cases hrefused : (⟨p, i⟩ : Turn).isRefused with
      | true => simp [h.succeeded_step_of_isRefused hrefused]
      | false => simp [h.succeeded_step (.refl p) hrefused]

theorem Unhindered.succeeded_foldl_accepted (h : p.Unhindered r directory inputs)
    (hq : p.Agrees q) :
    ((p.accepted r directory inputs).foldl (Progress.step r' (some directory)) q).succeeded =
      q.succeeded := by
  induction inputs generalizing p q with
  | nil => rfl
  | cons i inputs ih =>
      cases hrefused : (⟨p, i⟩ : Turn).isRefused with
      | true =>
          rw [accepted_cons_of_isRefused hrefused]
          exact ih h.step ((agrees_step_of_isRefused hrefused).trans hq)
      | false =>
          rw [accepted_cons_of_not_isRefused hrefused, List.foldl_cons, ih h.step (hq.step i)]
          exact h.succeeded_step hq hrefused

end Progress

namespace Batch

def turns (b : Batch) (inputs : List Input) : List Turn :=
  b.start.turns b.request b.directory inputs

def accepted (b : Batch) (inputs : List Input) : List Input :=
  b.start.accepted b.request b.directory inputs

variable {b b' : Batch} {inputs : List Input}

/-- The inputs that one run accepts, in a run of their own: they all come out, with the same files
and statistics. -/
theorem outcome_accepted (h : b.start.Unhindered b.request b.directory inputs)
    (hdirectory : b'.directory = b.directory) (hconfig : b'.config = b.config)
    (hfiles : b'.files = b.files) :
    (b'.outcome (b.accepted inputs)).exit = 0 ∧
      (b'.outcome (b.accepted inputs)).Ends (b.after inputs).files
        (b.after inputs).session.stats := by
  have hstart : b.start.Agrees b'.start :=
    ⟨by simp only [start, hconfig], hfiles, rfl⟩
  have hsame : (b.after inputs).Agrees (b'.after (b.accepted inputs)) := by
    rw [after, after, hdirectory]
    exact hstart.foldl_accepted
  have hsucceeded : (b'.after (b.accepted inputs)).succeeded = true := by
    rw [after, hdirectory]
    exact h.succeeded_foldl_accepted hstart
  refine ⟨by rw [exit_outcome rfl, hsucceeded, if_pos rfl], ?_⟩
  rw [← hsame.files, ← hsame.session]
  exact ends_outcome rfl (hsame.stopped.trans h.stopped_foldl)

theorem exit_outcome_eq_one_iff (h : b.start.Unhindered b.request b.directory inputs) :
    (b.outcome inputs).exit = 1 ↔ ∃ turn ∈ b.turns inputs, turn.isRefused = true := by
  have hsucceeded : (b.after inputs).succeeded =
      ((b.turns inputs).all fun turn => !turn.isRefused) :=
    h.succeeded_foldl
  rw [exit_outcome rfl, hsucceeded]
  simp

end Batch

/-- A run whose inputs can be read and whose outputs can be written fails just when one of its
inputs is refused. A refused input leaves the files and the statistics as they are, and without all
refused inputs the run succeeds, with the same files and the same statistics in the end. This also
holds for a run that is given other paths and finds just the accepted inputs. -/
theorem run_accepted (arguments paths : List String) (t : FileTree) (r : Request)
    (directory : String) (configFile checker : Option String) (sourceMap strict all : Bool)
    (loaded : Config) (inputs : List Input) (hread : Request.read arguments = .ok r)
    (haction : r.action =
      .instrument paths (some directory) sourceMap configFile checker strict all)
    (hloaded : loadConfig t configFile = .ok loaded)
    (hfound : (collectInputs t all paths).found = .ok inputs)
    (hreadable : ∀ i ∈ inputs, ∃ contents, t.read i.path = .ok contents)
    (hwritable : ∀ turn ∈ (⟨r, directory, overrideConfig loaded checker strict sourceMap, t,
      logLines r (collectInputs t all paths).log⟩ : Batch).turns inputs,
        turn.isWritable directory = true) :
    let b : Batch := ⟨r, directory, overrideConfig loaded checker strict sourceMap, t,
      logLines r (collectInputs t all paths).log⟩
    let stats := (b.after inputs).session.stats
    ((run arguments t).exit = 1 ↔ ∃ turn ∈ b.turns inputs, turn.isRefused = true) ∧
      (∀ turn ∈ b.turns inputs, turn.isRefused = true →
        let next := turn.progress.step r (some directory) turn.input
        next.files = turn.progress.files ∧ next.session = turn.progress.session) ∧
      (run arguments t).Ends (run arguments t).files stats ∧
      ((b.outcome (b.accepted inputs)).exit = 0 ∧
        (b.outcome (b.accepted inputs)).Ends (run arguments t).files stats) ∧
      ∀ arguments' paths' r' all', Request.read arguments' = .ok r' →
        r'.action = .instrument paths' (some directory) sourceMap configFile checker strict all' →
        (collectInputs t all' paths').found = .ok (b.accepted inputs) →
        (run arguments' t).exit = 0 ∧ (run arguments' t).Ends (run arguments t).files stats := by
  intro b stats
  have hrun : run arguments t = b.outcome inputs := run_eq_outcome hread haction hloaded hfound
  have hfiles : (b.outcome inputs).files = (b.after inputs).files := rfl
  have hfree : b.start.Unhindered r directory inputs := ⟨rfl, hreadable, hwritable⟩
  rw [hrun, hfiles]
  refine ⟨Batch.exit_outcome_eq_one_iff hfree, ?_, Batch.ends_outcome rfl hfree.stopped_foldl,
    Batch.outcome_accepted hfree rfl rfl rfl, ?_⟩
  · intro turn _ hrefused next
    have hnext : next.Agrees turn.progress := Progress.agrees_step_of_isRefused hrefused
    exact ⟨hnext.files.symm, hnext.session.symm⟩
  · intro arguments' paths' r' all' hread' haction' hfound'
    rw [run_eq_outcome hread' haction' hloaded hfound']
    exact Batch.outcome_accepted hfree rfl rfl rfl

/-- The first of two files cannot be parsed, and the run fails; the second one comes out as it does
without the first. -/
theorem run_accepted_second :
    let t : FileTree := ⟨[], [], [⟨["a.js"], "(".toUTF8⟩, ⟨["b.js"], "b;\n".toUTF8⟩]⟩
    let arguments := ["instrument", "a.js", "b.js", "--out-dir", "out"]
    (run arguments t).exit = 1 ∧
      (run ["instrument", "b.js", "--out-dir", "out"] t).exit = 0 ∧
      (run ["instrument", "b.js", "--out-dir", "out"] t).files = (run arguments t).files := by
  intro t arguments
  let r : Request :=
    ⟨0, false, .instrument ["a.js", "b.js"] (some "out") false none none false false⟩
  let inputs : List Input := [⟨"a.js", "a.js"⟩, ⟨"b.js", "b.js"⟩]
  let b : Batch := ⟨r, "out", overrideConfig .default none false false, t,
    logLines r (collectInputs t false ["a.js", "b.js"]).log⟩
  have hreadable : ∀ i ∈ inputs, ∃ contents, t.read i.path = .ok contents := by
    have ha : t.read "a.js" = .ok "(" := by decide +kernel
    have hb : t.read "b.js" = .ok "b;\n" := by decide +kernel
    simp only [inputs, List.forall_mem_cons]
    exact ⟨⟨_, ha⟩, ⟨_, hb⟩, by simp⟩
  have hwritable : ∀ turn ∈ b.turns inputs, turn.isWritable "out" = true :=
    List.all_eq_true.mp (by decide +kernel)
  have haccepted : b.accepted inputs = [⟨"b.js", "b.js"⟩] := by decide +kernel
  obtain ⟨hexit, -, -, -, hruns⟩ := run_accepted arguments ["a.js", "b.js"] t r "out" none none
    false false false .default inputs rfl rfl rfl (by decide +kernel) hreadable hwritable
  have hrest := hruns ["instrument", "b.js", "--out-dir", "out"] ["b.js"]
    ⟨0, false, .instrument ["b.js"] (some "out") false none none false false⟩ false rfl rfl
    (haccepted ▸ by decide +kernel)
  refine ⟨hexit.mpr ?_, hrest.1, hrest.2.files_eq⟩
  exact ⟨_, List.mem_cons_self, by decide +kernel⟩

end Contracts.Command
