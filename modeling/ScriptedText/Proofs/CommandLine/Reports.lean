import ScriptedText.CommandLine.Program
import ScriptedText.Proofs.CommandLine.Arguments

/-!
How a command that fails reports it. The format that was asked for is known only once the arguments are accepted: from then
on every failure is reported in it, and before that none is.
-/

namespace ScriptedText.CommandLine

/-- The values that follow the option for the format, in a list that may have mistakes. Options that nobody knows stand by
themselves. -/
def formatsGiven : List String → List String
  | [] => []
  | a :: rest =>
    match ValueFlag.ofText? a, rest with
    | some .format, v :: rest => v :: formatsGiven rest
    | some _, _ :: rest => formatsGiven rest
    | _, rest => formatsGiven rest

/-- JSON is the last format that is given. -/
def AsksForJson (argv : List String) : Prop := (formatsGiven argv).getLast? = some "json"

instance (argv : List String) : Decidable (AsksForJson argv) :=
  inferInstanceAs (Decidable ((formatsGiven argv).getLast? = some "json"))

/-- What is on the error stream when a document is done: what it wrote there, and the lines about events if they are wanted. -/
def printed (verbose : Bool) (w : World) : String :=
  (w.context ⟨0⟩).err ++ if verbose then lines (w.events.filterMap fun e => (LogEntry.ofEvent? e).map LogEntry.line) else ""

/-- The command fails, with `before` on the error stream by then. There is a case for each stage that a failure can leave; the
last one is looking the document up, compiling it and executing it. -/
inductive Fails (t : Files.Tree) (cwd : Files.Path) (argv : List String) : String → Failure → Prop
  | arguments {m : Mistake} (h : parse argv = .error m) : Fails t cwd argv "" (.error m.message)
  | configuration {r : Request} {f : ConfigFault} (h : parse argv = .ok (.run r))
      (hconfig : Config.resolve t cwd (t.locate cwd (r.base.getD "")) r.config r.language = .error f) :
      Fails t cwd argv "" (.error f.message)
  | document {r : Request} {c : Config} {f : Failure} (h : parse argv = .ok (.run r))
      (hconfig : Config.resolve t cwd (t.locate cwd (r.base.getD "")) r.config r.language = .ok c)
      (hf : (execute (world t (t.locate cwd (r.base.getD "")) c) r.document).2 = .error f) :
      Fails t cwd argv (printed r.verbose (execute (world t (t.locate cwd (r.base.getD "")) c) r.document).1) f

variable {t : Files.Tree} {cwd : Files.Path} {argv : List String} {gs : List Group} {r : Request} {before : String}
  {f : Failure} {m : Mistake}

theorem formatsGiven_of_not_flag {a : String} (h : ValueFlag.ofText? a = none) (rest : List String) :
    formatsGiven (a :: rest) = formatsGiven rest := by
  rw [formatsGiven.eq_def]
  dsimp only
  rw [h]

/-- In a list that is split into groups, the formats given are those of the groups. -/
theorem formatsGiven_flatMap_words (h : ∀ g ∈ gs, g.Fits) : formatsGiven (gs.flatMap Group.words) = valuesFor .format gs := by
  induction gs with
  | nil => rfl
  | cons g gs ih =>
      have hmore := ih fun g hg => h g (List.mem_cons_of_mem _ hg)
      rw [List.flatMap_cons]
      cases g with
      | verbose => exact (formatsGiven_of_not_flag (by decide) _).trans hmore
      | value flag text =>
          have hflag : ValueFlag.ofText? flag.text = some flag := ValueFlag.ofText?_eq_some_iff.2 rfl
          change formatsGiven (flag.text :: text :: gs.flatMap Group.words) = _
          rw [formatsGiven.eq_def]
          dsimp only
          rw [hflag]
          cases flag with
          | format => exact congrArg (text :: ·) hmore
          | base | language | config => exact hmore
      | positional text =>
          have hplain := looksLikeFlag_eq_false_iff.2 (h _ (List.mem_cons_self ..))
          refine (formatsGiven_of_not_flag (Option.eq_none_iff_forall_ne_some.2 fun flag hflag => ?_) _).trans hmore
          rw [ValueFlag.ofText?_eq_some_iff.1 hflag, looksLikeFlag_text] at hplain
          cases hplain

/-- Who asks for JSON makes a request for it, if the arguments are accepted. -/
theorem AsksForJson.format_eq (h : AsksForJson argv) (hparse : parse argv = .ok (.run r)) : r.format = .json := by
  obtain ⟨gs, hwords, hfits, hdescribes⟩ : ∃ gs, gs.flatMap Group.words = argv ∧ (∀ g ∈ gs, g.Fits) ∧ Describes gs r := by
    cases parse_eq_ok_iff.1 hparse with
    | run _ _ hwords hfits hdescribes => exact ⟨_, hwords, hfits, hdescribes⟩
  have hlast : lastValue? .format gs = some "json" := by
    rw [lastValue?_eq_getLast?, ← formatsGiven_flatMap_words hfits, hwords]
    exact h
  rcases hdescribes.format with ⟨hnone, -⟩ | hsome
  · cases hlast.symm.trans (lastValue?_eq_iff.2 hnone)
  · have hname := Option.some.inj (hlast.symm.trans (lastValue?_eq_iff.2 hsome))
    revert hname
    cases r.format <;> decide

/-- Arguments that are refused are reported in the form for people, whatever they ask for. -/
theorem run_of_refused (h : parse argv = .error m) :
    run t cwd argv = { err := "error: " ++ m.message ++ "\n", status := 1 } := by
  rw [run, h]
  rfl

theorem run_of_accepted (h : parse argv = .ok (.run r)) : run t cwd argv = runRequest t cwd r := by
  rw [run, h]

theorem runRequest_of_configured {c : Config}
    (h : Config.resolve t cwd (t.locate cwd (r.base.getD "")) r.config r.language = .ok c) :
    runRequest t cwd r =
      let done := execute (world t (t.locate cwd (r.base.getD "")) c) r.document
      match done.2 with
      | .ok _ => { out := (done.1.context ⟨0⟩).out, err := printed r.verbose done.1 }
      | .error f =>
        { out := (done.1.context ⟨0⟩).out, err := printed r.verbose done.1 ++ failureLines r.format r.verbose f, status := 1 } := by
  unfold runRequest
  dsimp only
  rw [h]
  rfl

/-- Every other failure is reported in the format that was asked for, behind what is on the error stream by then. -/
theorem run_of_fails (h : Fails t cwd argv before f) (hparse : parse argv = .ok (.run r)) :
    ∃ out, run t cwd argv = { out, err := before ++ failureLines r.format r.verbose f, status := 1 } := by
  cases h with
  | arguments hm => cases hparse.symm.trans hm
  | configuration hr hconfig =>
      cases hparse.symm.trans hr
      refine ⟨"", ?_⟩
      rw [run_of_accepted hparse, runRequest]
      dsimp only
      rw [hconfig, String.empty_append]
      rfl
  | @document _ c _ hr hconfig hf =>
      cases hparse.symm.trans hr
      refine ⟨((execute (world t (t.locate cwd (r.base.getD "")) c) r.document).1.context ⟨0⟩).out, ?_⟩
      rw [run_of_accepted hparse, runRequest_of_configured hconfig]
      dsimp only
      rw [hf]

theorem Fails.exists_request {a : Arguments} (h : Fails t cwd argv before f) (hparse : parse argv = .ok a) :
    ∃ r, a = .run r := by
  cases h with
  | arguments hm => cases hparse.symm.trans hm
  | configuration hr _ => exact ⟨_, Except.ok.inj (hparse.symm.trans hr)⟩
  | document hr _ _ => exact ⟨_, Except.ok.inj (hparse.symm.trans hr)⟩

/-- The command ends with status 1 just if some stage fails. -/
theorem status_eq_one_iff : (run t cwd argv).status = 1 ↔ ∃ before f, Fails t cwd argv before f := by
  constructor
  · intro h
    cases hparse : parse argv with
    | error m => exact ⟨_, _, .arguments hparse⟩
    | ok a =>
        cases a with
        | help =>
            rw [run, hparse] at h
            cases h
        | version =>
            rw [run, hparse] at h
            cases h
        | run r =>
            cases hconfig : Config.resolve t cwd (t.locate cwd (r.base.getD "")) r.config r.language with
            | error f => exact ⟨_, _, .configuration hparse hconfig⟩
            | ok c =>
                cases hdone : (execute (world t (t.locate cwd (r.base.getD "")) c) r.document).2 with
                | error f => exact ⟨_, _, .document hparse hconfig hdone⟩
                | ok _ =>
                    rw [run_of_accepted hparse, runRequest_of_configured hconfig] at h
                    dsimp only at h
                    rw [hdone] at h
                    cases h
  · rintro ⟨before, f, h⟩
    cases hparse : parse argv with
    | error m => rw [run_of_refused hparse]
    | ok a =>
        obtain ⟨r, rfl⟩ := h.exists_request hparse
        obtain ⟨out, hout⟩ := run_of_fails h hparse
        rw [hout]

/-- A report in JSON is a record. -/
theorem head?_jsonReport (f : Failure) : (jsonReport f).toList.head? = some '\x7b' := by
  have hblock (lines : List String) : (Value.block "\x7b" "\x7d" 0 lines).toList.head? = some '\x7b' := by
    unfold Value.block
    split <;> simp
  cases f <;> simp only [jsonReport, Value.indented] <;> exact hblock _

theorem head?_humanReport {verbose : Bool} {text : String} (h : humanReport verbose f = .ok text) :
    text.toList.head? = some 'e' := by
  cases f with
  | fault f =>
      have hjoin (code : String) (more : List String) :
          ("\n".intercalate (("error[" ++ code ++ "]: " ++ f.message) :: more)).toList.head? = some 'e' := by
        cases more with
        | nil => simp
        | cons line more => simp [String.intercalate_cons_cons]
      unfold humanReport at h
      cases verbose with
      | false =>
          cases h
          exact hjoin _ _
      | true =>
          cases hdetails : detailLines (f.details.getD []) with
          | error f =>
              dsimp only at h
              rw [hdetails] at h
              cases h
          | ok details =>
              dsimp only at h
              rw [hdetails] at h
              cases h
              exact hjoin _ _
  | error | misuse | thrown | endless =>
      cases h
      simp

end ScriptedText.CommandLine
