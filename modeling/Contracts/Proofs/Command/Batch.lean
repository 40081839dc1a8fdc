import Contracts.Command.Run
import Contracts.Proofs.Instrument.Accumulation

/-!
# The work on a list of inputs

When its configuration is read and its inputs are found, what is left of a run with
an output directory is one loop over the inputs, from a `Batch` on
(`run_eq_outcome`). Each input can be met in one of three ways, and it is said once
for each of them what changes besides the messages: an input that cannot be read
stops the run (`Progress.step_of_unread`), one that is refused fails it and changes
nothing else (`Progress.step_of_refused`), and the result for one that is accepted is
written (`Progress.step_of_accepted`).
-/

namespace Contracts

/-- Whether a file is refused: it cannot be parsed, or it has a malformed directive and this is not
to be passed over. -/
def Config.refuses (config : Config) (contents file : String) : Bool :=
  match (Source.ofContents file contents).parse with
  | .error _ => true
  | .ok p => config.strictDirectives && !(Directive.collect p.comments).errors.isEmpty

theorem Work.exists_result_error_iff {config : Config} {contents file : String} :
    (∃ e, (onFile config contents file).result = .error e) ↔
      config.refuses contents file = true := by
  unfold onFile Config.refuses
  cases (Source.ofContents file contents).parse with
  | error e => simp
  | ok p =>
      change (∃ e, (ofParsed config p (Directive.collect p.comments)).result = .error e) ↔ _
      cases herrors : (Directive.collect p.comments).errors with
      | nil => simp [(ofParsed_printed p fun _ => herrors).1, herrors]
      | cons e es =>
          cases hstrict : config.strictDirectives with
          | true => simp [(ofParsed_strict hstrict p herrors).1, herrors]
          | false => simp [(ofParsed_printed p (fun h => absurd (hstrict ▸ h) (by simp))).1]

/-- A file that is refused leaves a session as it is. -/
theorem Session.instrument_of_error {s : Session} {contents file : String} {e : InstrumentError}
    (h : (Work.onFile s.config contents file).result = .error e) :
    (s.instrument contents file).2 = s := by
  rw [instrument, Work.sites_of_error h]
  rfl

namespace Command

/-- Write a result to a path, and its source map beside it, and tell whether all was written. -/
def stored (t : FileTree) (path : String) (out : Instrumented) : FileTree × Bool :=
  match t.write path (out.code ++ "\n") with
  | .error _ => (t, false)
  | .ok u =>
    match out.sourceMap with
    | none => (u, true)
    | some map =>
      match u.write (path ++ ".map") (map ++ "\n") with
      | .error _ => (u, false)
      | .ok v => (v, true)

namespace Progress

variable {r : Request} {p : Progress} {directory : String} {i : Input}

theorem write_of_ok {path text : String} {u : FileTree}
    (h : p.files.write path (text ++ "\n") = .ok u) (log : List LogEvent) :
    p.write r path text log =
      ({ p with files := u, messages := p.messages ++ logLines r log }, true) := by
  unfold write
  rw [h]
  rfl

theorem write_of_error {path text : String} {e : FileError}
    (h : p.files.write path (text ++ "\n") = .error e) (log : List LogEvent) :
    ∃ lines, p.write r path text log =
      ({ p with succeeded := false, messages := p.messages ++ lines }, false) := by
  unfold write
  rw [h]
  exact ⟨_, rfl⟩

theorem deliver_eq (r : Request) (p : Progress) (directory : String) (i : Input)
    (out : Instrumented) :
    ∃ lines, p.deliver r (some directory) i out =
      { p with
        files := (stored p.files (Path.join directory i.relative) out).1
        succeeded := p.succeeded && (stored p.files (Path.join directory i.relative) out).2
        messages := p.messages ++ lines } := by
  unfold deliver stored
  dsimp only
  generalize Path.join directory i.relative = path
  cases hcode : p.files.write path (out.code ++ "\n") with
  | error e =>
      obtain ⟨lines, hwrite⟩ := write_of_error hcode [.wrote path]
      rw [hwrite]
      exact ⟨lines, by simp⟩
  | ok u =>
      rw [write_of_ok hcode]
      cases out.sourceMap with
      | none => exact ⟨logLines r [.wrote path], by simp⟩
      | some map =>
          dsimp only
          cases hbeside : u.write (path ++ ".map") (map ++ "\n") with
          | error e =>
              obtain ⟨lines, hwrite⟩ := @write_of_error r
                { p with files := u, messages := p.messages ++ logLines r [.wrote path] }
                _ _ e hbeside []
              rw [hwrite]
              exact ⟨logLines r [.wrote path] ++ lines, by simp⟩
          | ok v =>
              rw [write_of_ok hbeside]
              exact ⟨logLines r [.wrote path] ++ logLines r [], by simp⟩

variable (r directory)

theorem step_of_stopped (h : p.stopped = true) : p.step r (some directory) i = p := by
  rw [step, if_pos h]

theorem step_of_unread (hstopped : p.stopped = false) {e : FileError}
    (hread : p.files.read i.path = .error e) :
    ∃ lines, p.step r (some directory) i =
      { p with succeeded := false, stopped := true, messages := p.messages ++ lines } := by
  rw [step, if_neg (by simp [hstopped]), hread]
  exact ⟨_, rfl⟩

theorem step_of_refused (hstopped : p.stopped = false) {contents : String}
    (hread : p.files.read i.path = .ok contents) {e : InstrumentError}
    (hresult : (Work.onFile p.session.config contents i.path).result = .error e) :
    ∃ lines, p.step r (some directory) i =
      { p with succeeded := false, messages := p.messages ++ lines } := by
  have hstats : p.session.stats.addSites (Work.onFile p.session.config contents i.path).sites =
      p.session.stats :=
    congrArg Session.stats (Session.instrument_of_error hresult)
  rw [step, if_neg (by simp [hstopped]), hread]
  dsimp only
  rw [hresult, hstats]
  exact ⟨_, rfl⟩

theorem step_of_accepted (hstopped : p.stopped = false) {contents : String}
    (hread : p.files.read i.path = .ok contents) {out : Instrumented}
    (hresult : (Work.onFile p.session.config contents i.path).result = .ok out) :
    ∃ lines, p.step r (some directory) i =
      { p with
        session := (p.session.instrument contents i.path).2
        files := (stored p.files (Path.join directory i.relative) out).1
        succeeded := p.succeeded && (stored p.files (Path.join directory i.relative) out).2
        messages := p.messages ++ lines } := by
  obtain ⟨lines, hlines⟩ := deliver_eq r
    ({ p with session := (p.session.instrument contents i.path).2 }.say
      (logLines r (Work.onFile p.session.config contents i.path).log ++
        report i contents (.ok out))) directory i out
  refine ⟨logLines r (Work.onFile p.session.config contents i.path).log ++
    report i contents (.ok out) ++ lines, ?_⟩
  rw [step, if_neg (by simp [hstopped]), hread]
  dsimp only
  rw [hresult]
  refine hlines.trans ?_
  simp [say]

end Progress

/-- A run ends with these files, and its last messages are the lines of these statistics. -/
structure Outcome.Ends (o : Outcome) (files : FileTree) (stats : Stats) : Prop where
  files_eq : o.files = files
  exists_messages_eq : ∃ told, o.messages = told ++ stats.lines

/-- What is settled before a run with an output directory turns to its inputs. -/
structure Batch where
  request : Request
  directory : String
  config : Config
  files : FileTree
  /-- The messages so far. -/
  told : List String

namespace Batch

def start (b : Batch) : Progress :=
  ⟨.start b.config, b.files, "", b.told, true, false⟩

/-- Where a run stands after these inputs. -/
def after (b : Batch) (inputs : List Input) : Progress :=
  inputs.foldl (Progress.step b.request (some b.directory)) b.start

/-- What comes out of a run on these inputs. -/
def outcome (b : Batch) (inputs : List Input) : Outcome :=
  let p := b.after inputs
  ⟨if p.succeeded then 0 else 1, p.output,
    p.messages ++ if p.stopped then [] else p.session.stats.lines, p.files⟩

variable {b : Batch} {inputs : List Input}

theorem exit_outcome {p : Progress} (h : b.after inputs = p) :
    (b.outcome inputs).exit = if p.succeeded then 0 else 1 := by
  rw [outcome, h]

theorem ends_outcome {p : Progress} (h : b.after inputs = p) (hgoing : p.stopped = false) :
    (b.outcome inputs).Ends p.files p.session.stats := by
  rw [outcome, h]
  exact ⟨rfl, p.messages, by simp [hgoing]⟩

end Batch

theorem run_eq_outcome {arguments paths : List String} {t : FileTree} {r : Request}
    {directory : String} {configFile checker : Option String} {sourceMap strict all : Bool}
    {loaded : Config} {inputs : List Input} (hread : Request.read arguments = .ok r)
    (haction : r.action =
      .instrument paths (some directory) sourceMap configFile checker strict all)
    (hloaded : loadConfig t configFile = .ok loaded)
    (hfound : (collectInputs t all paths).found = .ok inputs) :
    run arguments t =
      (⟨r, directory, overrideConfig loaded checker strict sourceMap, t,
        logLines r (collectInputs t all paths).log⟩ : Batch).outcome inputs := by
  have hsilent : logLines r [] = [] := by
    unfold logLines
    split <;> rfl
  rw [run, hread]
  simp only [Request.run, haction, runInstrument, hloaded, hfound, Option.isNone_some,
    Bool.false_and, Bool.and_false, Bool.false_eq_true, if_false, Option.isSome_some,
    Bool.and_true, hsilent, List.append_nil]
  rfl

end Command

end Contracts
