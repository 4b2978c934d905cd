import ScriptedText.Proofs.Engine.Idling
import ScriptedText.Proofs.Engine.Meaning

/-!
What a run reports. Its start and its end stand around all that is reported meanwhile, and so do its hooks around what its
segments report: whatever is aside of runs, and the runs of other documents that its programs ask for, each in brackets of its own.
-/

namespace ScriptedText

/-- The failure of the hook before a run. -/
def Run.refusal? (run : Run) : Option Failure :=
  match run.hooks.before with
  | some (.error f) => some f
  | _ => none

/-- What is reported at the end of a run. Text that a program threw is not reported. -/
def closing (name : String) : Outcome → List Event
  | .ok _ => [.ended name]
  | .error (.thrown _) | .error .endless => []
  | .error f => [.failed name f.describe]

/-- All that a run reports, `inner` while its segments run. If the hook before them fails they do not run, and neither does the
hook after them. -/
def Run.bracket (run : Run) (name : String) (runs : Nat) (inner : List Event) (o : Outcome) : List Event :=
  .started name runs ::
    ((if run.hooks.before.isSome then [.initialized run.context] else []) ++
      (if run.refusal?.isSome then []
        else inner ++ if run.hooks.after.isSome then [.finalized run.context] else []) ++
      closing name o)

namespace World

variable (w : World) (run : Run)

/-- Whether the run is left out. -/
def skips (options : RunOptions) : Bool :=
  let x := w.executable run.executable
  0 < x.count && (options.unlessRan || options.unlessCached && w.clock - x.last < x.cacheDuration)

/-- The run as its context allows it: with no hooks if that is claimed. -/
def allowed : Run := if (w.context run.context).immutable then { run with hooks := {} } else run

/-- The world in which the segments of a run begin. -/
def begun : World :=
  let x := w.executable run.executable
  let w := w.emit (.started x.name x.count)
  if run.hooks.before.isSome then w.emit (.initialized run.context) else w

/-- The executable whose run is completed, if there is such an executable. -/
def completes : Outcome → List ExecutableId
  | .ok _ => if run.executable.index < w.executables.length then [run.executable] else []
  | .error _ => []

/-- Executables have run as often as in the first world, and once more for each time that they are on the list. -/
def Tallies (w₀ w : World) (past : List ExecutableId) : Prop :=
  ∀ e, (w.executable e).count = (w₀.executable e).count + past.count e

end World

namespace Move

/-- The end of a run whose segments came to `r`. -/
def sealed (w : World) (run : Run) (r : Except Failure Unit) : Move :=
  match run.refusal? with
  | some f => close w run (.error f)
  | none => close (hooked w run) run (verdict run r)

end Move

/-- What is reported between two worlds, and which runs have been completed since the first world: `past` before, and `past'`
in the end. Whatever is not aside of runs is reported by runs that have no hooks, each of them with its number among the runs
of its executable, and with what is reported meanwhile between its start and its end. -/
inductive Chronicle (id : TaskId) (w₀ : World) :
    List ExecutableId → World → List Event → List ExecutableId → World → Prop
  | aside {past : List ExecutableId} {w w' : World} {es : List Event} (h : w.Mutters w')
      (haside : es.all Event.isAside = true) (hes : w'.events = w.events ++ es) : Chronicle id w₀ past w es past w'
  | append {past past₁ past' : List ExecutableId} {w w₁ w' : World} {es es' : List Event}
      (h : Chronicle id w₀ past w es past₁ w₁) (h' : Chronicle id w₀ past₁ w₁ es' past' w') :
      Chronicle id w₀ past w (es ++ es') past' w'
  | run {past past' : List ExecutableId} {w w₁ w' : World} {run : Run} {inner : List Event} {r : Except Failure Unit}
      {o : Outcome} (hhooks : run.hooks = {}) (hcall : Task.Ends id w ⟨[], .call (.execute run {})⟩ w' o)
      (hinner : Chronicle id w₀ past (w.begun run) inner past' w₁)
      (hname : (w₁.executable run.executable).name = (w.executable run.executable).name)
      (hsealed : (Move.sealed w₁ run r).Ends id w' o) :
      Chronicle id w₀ past w
        (run.bracket (w.executable run.executable).name
          ((w₀.executable run.executable).count + past.count run.executable) inner o)
        (past' ++ w₁.completes run o) w'

namespace World

variable {w w' w₀ w₁ : World} {run : Run} {e : ExecutableId} {past : List ExecutableId}

theorem name_of_names (h : w.executables.map Executable.name <+: w'.executables.map Executable.name)
    (he : e.index < w.executables.length) : (w'.executable e).name = (w.executable e).name := by
  have hget := h.getElem (i := e.index) (by simpa using he)
  have he' : e.index < w'.executables.length := by
    have hle := h.length_le
    simp only [List.length_map] at hle
    exact Nat.lt_of_lt_of_le he hle
  unfold executable
  rw [List.getElem?_eq_getElem he, List.getElem?_eq_getElem he']
  simpa using hget.symm

theorem tallies_refl (w : World) : Tallies w w [] := fun e => by simp

theorem Mutters.tallies (h : w.Mutters w') (ht : Tallies w₀ w past) : Tallies w₀ w' past :=
  fun e => (h.count e).trans (ht e)

theorem executables_begun (w : World) (run : Run) : (w.begun run).executables = w.executables := by
  unfold begun
  dsimp only
  split <;> rfl

theorem tallies_begun (ht : Tallies w₀ w past) : Tallies w₀ (w.begun run) past := fun e => by
  unfold executable
  rw [executables_begun]
  exact ht e

theorem events_begun (w : World) (run : Run) : (w.begun run).events = w.events ++
    .started (w.executable run.executable).name (w.executable run.executable).count ::
      (if run.hooks.before.isSome then [.initialized run.context] else []) := by
  unfold begun
  dsimp only
  split <;> simp [emit]

theorem allowed_of_no_hooks (w : World) (h : run.hooks = {}) : w.allowed run = run := by
  unfold allowed
  split
  · rw [← h]
  · rfl

end World

namespace Move

variable {id : TaskId} {w w' w₀ : World} {run : Run} {r : Except Failure Unit} {o : Outcome} {past : List ExecutableId}

theorem events_reportFailure (w : World) (name : String) (f : Failure) :
    (w.reportFailure name f).events = w.events ++ closing name (.error f) := by
  cases f <;> first | rfl | exact (List.append_nil _).symm

theorem executables_reportFailure (w : World) (name : String) (f : Failure) :
    (w.reportFailure name f).executables = w.executables := by
  cases f <;> rfl

/-- What the end of a run does: it is reported, and it counts if nothing failed. -/
structure Closed (run : Run) (w w' : World) (o : Outcome) : Prop where
  outcome : o = .ok (.flag true) ∨ ∃ f, o = .error f
  events : w'.events = w.events ++ closing (w.executable run.executable).name o
  count : ∀ e, (w'.executable e).count = (w.executable e).count + (w.completes run o).count e
  names : w'.executables.map Executable.name = w.executables.map Executable.name

theorem count_ran (w : World) (run : Run) (r : Reply) (e : ExecutableId) :
    ((w.modifyExecutable run.executable (·.ran w.clock)).executable e).count =
      (w.executable e).count + (w.completes run (.ok r)).count e := by
  simp only [World.executable, World.modifyExecutable, World.completes, List.getElem?_modify]
  by_cases he : run.executable = e
  · subst he
    by_cases hlt : run.executable.index < w.executables.length
    · simp [Executable.ran, hlt]
    · simp [hlt]
  · have hindex : run.executable.index ≠ e.index := fun h => he (by cases e; cases h; rfl)
    have hnone : List.count e (if run.executable.index < w.executables.length then [run.executable] else []) = 0 := by
      split <;> simp [he]
    rw [hnone]
    simp [hindex]

theorem closed_of_close (h : (close w run r).Ends id w' o) : Closed run w w' o := by
  cases r with
  | error f =>
      obtain ⟨rfl, rfl⟩ := ends_settle.1 h
      have hsame := executables_reportFailure w (w.executable run.executable).name f
      refine ⟨.inr ⟨f, rfl⟩, events_reportFailure w _ f, fun e => ?_, by rw [hsame]⟩
      rw [World.executable, hsame]
      rfl
  | ok _ =>
      obtain ⟨rfl, rfl⟩ := ends_settle.1 h
      have hnames := w.names_modifyExecutable run.executable (f := (·.ran w.clock)) fun _ => rfl
      refine ⟨.inl rfl, ?_, count_ran w run _, hnames⟩
      have hname : ((w.modifyExecutable run.executable (·.ran w.clock)).executable run.executable).name =
          (w.executable run.executable).name := by
        simp only [World.executable, World.modifyExecutable, List.getElem?_modify_eq]
        cases w.executables[run.executable.index]? <;> rfl
      exact congrArg (fun name => w.events ++ [Event.ended name]) hname

theorem executables_hooked (w : World) (run : Run) : (hooked w run).executables = w.executables := by
  unfold hooked
  split <;> rfl

theorem events_hooked (w : World) (run : Run) :
    (hooked w run).events = w.events ++ if run.hooks.after.isSome then [.finalized run.context] else [] := by
  unfold hooked
  split
  · rfl
  · exact (List.append_nil _).symm

/-- What is reported at the end of a run, its last hook included. -/
theorem closed_of_sealed (h : (Move.sealed w run r).Ends id w' o) :
    (o = .ok (.flag true) ∨ ∃ f, o = .error f) ∧
      (w'.events = w.events ++
        (if run.refusal?.isSome then [] else if run.hooks.after.isSome then [.finalized run.context] else []) ++
          closing (w.executable run.executable).name o) ∧
      (∀ e, (w'.executable e).count = (w.executable e).count + (w.completes run o).count e) ∧
      w'.executables.map Executable.name = w.executables.map Executable.name := by
  unfold Move.sealed at h
  cases hrefusal : run.refusal? with
  | some f =>
      rw [hrefusal] at h
      have hclosed := closed_of_close h
      refine ⟨hclosed.outcome, ?_, hclosed.count, hclosed.names⟩
      rw [hclosed.events]
      simp
  | none =>
      rw [hrefusal] at h
      obtain ⟨houtcome, hevents, hcount, hnames⟩ := closed_of_close h
      simp only [World.completes, World.executable, executables_hooked] at hevents hcount hnames
      refine ⟨houtcome, ?_, hcount, hnames⟩
      rw [hevents, events_hooked]
      rfl

end Move

namespace Chronicle

variable {id : TaskId} {w₀ w w' : World} {past past' : List ExecutableId} {es : List Event}

theorem names (h : Chronicle id w₀ past w es past' w') :
    w.executables.map Executable.name <+: w'.executables.map Executable.name := by
  induction h with
  | aside h _ _ => exact h.names
  | append _ _ ih ih' => exact ih.trans ih'
  | @run _ _ w _ _ run _ _ _ _ _ _ _ hsealed ih =>
      rw [w.executables_begun run] at ih
      exact (Move.closed_of_sealed hsealed).2.2.2 ▸ ih

theorem tallies (h : Chronicle id w₀ past w es past' w') (ht : World.Tallies w₀ w past) : World.Tallies w₀ w' past' := by
  induction h with
  | aside h _ _ => exact h.tallies ht
  | append _ _ ih ih' => exact ih' (ih ht)
  | run _ _ _ _ hsealed ih =>
      intro e
      rw [(Move.closed_of_sealed hsealed).2.2.1, ih (World.tallies_begun ht) e, List.count_append, Nat.add_assoc]

/-- What is reported is just that. -/
theorem events (h : Chronicle id w₀ past w es past' w') (ht : World.Tallies w₀ w past) : w'.events = w.events ++ es := by
  induction h with
  | aside _ _ hes => exact hes
  | append h _ ih ih' => rw [ih' (h.tallies ht), ih ht, List.append_assoc]
  | @run _ _ w _ _ run inner _ _ hhooks _ _ hname hsealed ih =>
      rw [(Move.closed_of_sealed hsealed).2.1, ih (World.tallies_begun ht), World.events_begun, hname, ht run.executable]
      simp [Run.bracket, Run.refusal?, hhooks]

end Chronicle

/-! The steps of a run. -/

namespace Move

variable {id : TaskId} {w w' w₀ : World} {run : Run} {o : Outcome}

theorem execute_of_skips {options : RunOptions} (h : w.skips run options = true) :
    execute w run options = reply w (.flag false) := if_pos h

theorem execute_of_not_skips {options : RunOptions} (h : w.skips run options = false) :
    execute w run options = runHook
      (w.emit (.started (w.executable run.executable).name (w.executable run.executable).count))
      (w.allowed run).hooks.before (.initialized (w.allowed run).context) [.initialized (w.allowed run)] :=
  if_neg (Bool.eq_false_iff.1 h)

end Move

section runs

variable {id : TaskId} {w w' w₀ : World} {run : Run} {o : Outcome} {n : ℕ} {past : List ExecutableId}

theorem executable_allowed (w : World) (run : Run) : (w.allowed run).executable = run.executable := by
  unfold World.allowed
  split <;> rfl

/-- After two steps a run is at its first segment, unless the hook before that has failed. -/
theorem exists_first_segment {options : RunOptions} (hskips : w.skips run options = false)
    (h : Task.EndsIn id n w ⟨[], .call (.execute run options)⟩ w' o) :
    let run' := w.allowed run
    let m := match run'.refusal? with
      | some f => Move.close (w.begun run') run' (.error f)
      | none => Move.runSegments (w.begun run') id run' (w.executable run.executable).segments
    ∃ k < n, Task.EndsIn id k m.world ⟨m.push, m.control⟩ w' o := by
  obtain ⟨k, rfl, hbegun⟩ := h.exists_step rfl
  have hexecutable := executable_allowed w run
  have hsame : (w.begun (w.allowed run)).executable run.executable = w.executable run.executable := by
    unfold World.executable
    rw [World.executables_begun]
  have hrest {f : Frame} {v : World} {o₁ : Outcome} (h : Task.EndsIn id k v ⟨[f], .settled o₁⟩ w' o) :
      ∃ l < k + 1, Task.EndsIn id l (Move.resume v id f o₁).world
        ⟨(Move.resume v id f o₁).push, (Move.resume v id f o₁).control⟩ w' o := by
    obtain ⟨l, rfl, hnext⟩ := h.exists_step rfl
    exact ⟨l, by omega, List.append_nil (Move.push _) ▸ hnext⟩
  dsimp only
  change Task.EndsIn id k (Move.execute w run options).world
    ⟨(Move.execute w run options).push ++ [], (Move.execute w run options).control⟩ w' o at hbegun
  rw [Move.execute_of_not_skips hskips, List.append_nil] at hbegun
  rw [← hsame, ← hexecutable]
  rw [← hexecutable] at hbegun
  generalize w.allowed run = run' at hbegun ⊢
  unfold Move.runHook at hbegun
  unfold Run.refusal? World.begun
  cases hbefore : run'.hooks.before with
  | none =>
      rw [hbefore] at hbegun
      exact hrest hbegun
  | some hook =>
      rw [hbefore] at hbegun
      cases hook <;> exact hrest hbegun

/-- A task with nothing of a run on its stack, which is not about to begin one but for a program. -/
def Task.IsInner (t : Task) : Prop := t.stack.all Frame.isInner = true ∧ t.control.isInner = true

theorem chronicle_of_mutters (h : w.Mutters w') : ∃ es, Chronicle id w₀ past w es past w' := by
  obtain ⟨es, haside, hes⟩ := h.events
  exact ⟨es, .aside h haside hes⟩

theorem Chronicle.behind {w₁ : World} {es : List Event} {past' : List ExecutableId} (h : w.Mutters w₁)
    (hrest : Chronicle id w₀ past w₁ es past' w') : ∃ es, Chronicle id w₀ past w es past' w' := by
  obtain ⟨es', haside⟩ := chronicle_of_mutters h
  exact ⟨es' ++ es, haside.append hrest⟩

/-- All that shorter evaluations come to is told by a chronicle. -/
def ChroniclesBelow (id : TaskId) (w₀ : World) (n : ℕ) : Prop :=
  ∀ k < n, ∀ past w t w' o, t.IsInner → Task.EndsIn id k w t w' o →
    ∃ es past', Chronicle id w₀ past w es past' w'

/-- The segments of a run, one after the other, up to its end. -/
theorem exists_chronicle_of_segments (past : List ExecutableId) (ih : ChroniclesBelow id w₀ n)
    {segments : List PlacedSegment} {k : ℕ} (hk : k < n)
    (h : Task.EndsIn id k (Move.runSegments w id run segments).world
      ⟨(Move.runSegments w id run segments).push, (Move.runSegments w id run segments).control⟩ w' o) :
    ∃ inner past' w₁ r, Chronicle id w₀ past w inner past' w₁ ∧ (segments = [] → w₁ = w) ∧
      (Move.finish w₁ run r).Ends id w' o := by
  induction segments generalizing past w k with
  | nil => exact ⟨[], past, w, .ok (), .aside (World.Idles.refl w).toMutters rfl (List.append_nil _).symm, fun _ => rfl, h.ends⟩
  | cons s rest ihs =>
      have hidles := Move.idles_runSegment w id run s
      obtain ⟨k₁, k₂, w₁, o₁, hsum, hsegment, hrest⟩ := h.exists_parts
      obtain ⟨es, past₁, hes⟩ := ih k₁ (by omega) past _ _ _ _ ⟨hidles.push, hidles.control⟩ hsegment
      obtain ⟨inner, hinner⟩ := hes.behind ((w.mutters_reached run s).trans hidles.world.toMutters)
      obtain ⟨k₃, rfl, hafter⟩ := hrest.exists_step rfl
      rw [List.append_nil] at hafter
      cases o₁ with
      | error f => exact ⟨inner, past₁, w₁, .error f, hinner, nofun, hafter.ends⟩
      | ok reply =>
          obtain ⟨inner', past', w₂, r, hinner', -, hfinish⟩ := ihs past₁ (by omega) hafter
          exact ⟨inner ++ inner', past', w₂, r, hinner.append hinner', nofun, hfinish⟩

/-- A run that is not left out, whose segments are told by a chronicle. -/
theorem exists_chronicle_of_run (past : List ExecutableId) {options : RunOptions} (hskips : w.skips run options = false)
    (ih : ChroniclesBelow id w₀ n) (h : Task.EndsIn id n w ⟨[], .call (.execute run options)⟩ w' o) :
    ∃ inner past' w₁ r, Chronicle id w₀ past (w.begun (w.allowed run)) inner past' w₁ ∧
      ((w.allowed run).refusal?.isSome = true → inner = []) ∧
      (w₁.executable run.executable).name = (w.executable run.executable).name ∧
      (Move.sealed w₁ (w.allowed run) r).Ends id w' o := by
  obtain ⟨k, hk, hfirst⟩ := exists_first_segment hskips h
  have hname : ((w.begun (w.allowed run)).executable run.executable).name = (w.executable run.executable).name := by
    unfold World.executable
    rw [World.executables_begun]
  unfold Move.sealed
  cases hrefusal : (w.allowed run).refusal? with
  | some f =>
      rw [hrefusal] at hfirst
      refine ⟨[], past, _, .ok (), .aside (World.Idles.refl _).toMutters rfl (List.append_nil _).symm, fun _ => rfl, hname, ?_⟩
      exact hfirst.ends
  | none =>
      rw [hrefusal] at hfirst
      obtain ⟨inner, past', w₁, r, hinner, hnone, hfinish⟩ := exists_chronicle_of_segments past ih hk hfirst
      refine ⟨inner, past', w₁, r, hinner, nofun, ?_, Move.ends_finish.1 hfinish⟩
      -- An executable that is not there has no segments, so that none can come to be there meanwhile.
      cases hsegments : (w.executable run.executable).segments with
      | nil => rw [hnone hsegments, hname]
      | cons s rest =>
          have hlt : run.executable.index < w.executables.length := by
            refine Nat.lt_of_not_le fun hle => ?_
            rw [World.executable, List.getElem?_eq_none hle] at hsegments
            cases hsegments
          rw [← hname]
          exact World.name_of_names hinner.names (by rw [World.executables_begun]; exact hlt)

theorem eq_default_of_isInner {options : RunOptions} (h : (Call.execute run options).isInner = true) :
    run.hooks = {} ∧ options = {} := by
  obtain ⟨e, c, container, before, after⟩ := run
  obtain ⟨unlessRan, unlessCached⟩ := options
  simp only [Call.isInner, Bool.and_eq_true, Option.isNone_iff_eq_none, Bool.not_eq_true'] at h
  obtain ⟨⟨⟨rfl, rfl⟩, rfl⟩, rfl⟩ := h
  exact ⟨rfl, rfl⟩

theorem chroniclesBelow (id : TaskId) (w₀ : World) (n : ℕ) : ChroniclesBelow id w₀ n := by
  induction n with
  | zero => exact fun k hk => absurd hk (Nat.not_lt_zero k)
  | succ n ih =>
      intro k hk past w t w' o hinner h
      obtain ⟨stack, control⟩ := t
      obtain ⟨hstack, hcontrol⟩ := hinner
      have hidle {m : Move} {rest : List Frame} (ha : Task.advance w id ⟨stack, control⟩ = some (m, rest))
          (hm : m.Idles w) (hrest : rest.all Frame.isInner = true) : ∃ es past', Chronicle id w₀ past w es past' w' := by
        obtain ⟨l, rfl, hnext⟩ := h.exists_step ha
        have hbelow : (m.push ++ rest).all Frame.isInner = true := by rw [List.all_append, hm.push, hrest]; rfl
        obtain ⟨es, past', hes⟩ := ih l (by omega) past _ _ _ _ ⟨hbelow, hm.control⟩ hnext
        obtain ⟨es', hes'⟩ := hes.behind hm.world.toMutters
        exact ⟨es', past', hes'⟩
      cases control with
      | settled o₁ =>
          cases stack with
          | nil =>
              cases h with
              | settled => exact ⟨[], past, .aside (World.Idles.refl w).toMutters rfl (List.append_nil _).symm⟩
              | step ha _ => cases ha
          | cons f rest =>
              obtain ⟨hf, hrest⟩ := Bool.and_eq_true_iff.1 hstack
              exact hidle rfl (Move.idles_resume w id hf o₁) hrest
      | talking s d => exact hidle rfl (Move.idles_converse w id s d) hstack
      | waiting => exact absurd h.ends Task.not_ends_waiting
      | call c =>
          cases c with
          | execute run options =>
              obtain ⟨hhooks, rfl⟩ := eq_default_of_isInner hcontrol
              have hskips : w.skips run {} = false := by simp [World.skips]
              have happended : Task.EndsIn id k w ⟨[] ++ stack, .call (.execute run {})⟩ w' o := h
              obtain ⟨k₁, k₂, w₁, o₁, hsum, hcall, hrest⟩ := happended.exists_parts
              obtain ⟨l, rfl, -⟩ := hcall.exists_step rfl
              obtain ⟨inner, past₁, w₂, r, hrun, -, hname, hsealed⟩ := exists_chronicle_of_run past hskips
                (fun j hj => ih j (by omega)) hcall
              rw [w.allowed_of_no_hooks hhooks] at hrun hsealed
              obtain ⟨es, past', hes⟩ := ih k₂ (by omega) _ _ ⟨stack, .settled o₁⟩ _ _ ⟨hstack, rfl⟩ hrest
              exact ⟨_, _, (Chronicle.run hhooks hcall.ends hrun hname hsealed).append hes⟩
          | makeEnterable run => cases hcontrol
          | _ => exact hidle rfl (Move.idles_begin w id rfl) hstack

/-- A run that is not left out reports its start, with the number of times that its executable has run before, and then its end if
it comes to true, or else its failure. All that is reported between them is the run's hooks and, between those, whatever its
programs bring about: runs of other documents in brackets of their own, and events aside of runs. The hook after the segments is
called once, when these are done and nothing is left of the run but to report its end, unless the hook before them has failed; in a
claimed context neither is called. -/
theorem execute_brackets {options : RunOptions} (h : Task.Ends id w ⟨[], .call (.execute run options)⟩ w' o) :
    (w.skips run options = true ∧ w' = w ∧ o = .ok (.flag false)) ∨
      (w.skips run options = false ∧ (o = .ok (.flag true) ∨ ∃ f, o = .error f) ∧
        ∃ inner past w₁ r, Chronicle id w [] (w.begun (w.allowed run)) inner past w₁ ∧
          (Move.sealed w₁ (w.allowed run) r).Ends id w' o ∧
          w'.events = w.events ++ (w.allowed run).bracket (w.executable run.executable).name
            (w.executable run.executable).count inner o ∧
          w.Tallies w' (past ++ w₁.completes run o)) := by
  cases hskips : w.skips run options with
  | true =>
      rw [Task.ends_call, Move.begin, Move.execute_of_skips hskips] at h
      obtain ⟨rfl, rfl⟩ := Move.ends_settle.1 h
      exact .inl ⟨rfl, rfl, rfl⟩
  | false =>
      obtain ⟨n, hn⟩ := h.exists_endsIn
      obtain ⟨inner, past, w₁, r, hinner, hnone, hname, hsealed⟩ :=
        exists_chronicle_of_run [] hskips (chroniclesBelow id w n) hn
      have htallies : w.Tallies (w.begun (w.allowed run)) [] := World.tallies_begun w.tallies_refl
      have hexecutable := executable_allowed w run
      obtain ⟨houtcome, hevents, hcount, -⟩ := Move.closed_of_sealed hsealed
      refine .inr ⟨rfl, houtcome, inner, past, w₁, r, hinner, hsealed, ?_, fun e => ?_⟩
      · rw [hevents, hinner.events htallies, World.events_begun, hexecutable, hname]
        unfold Run.bracket
        cases hrefusal : (w.allowed run).refusal?.isSome with
        | true => simp [hnone hrefusal]
        | false => simp
      · have hsame : w₁.completes (w.allowed run) o = w₁.completes run o := by
          unfold World.completes
          rw [hexecutable]
        rw [hcount, hsame, hinner.tallies htallies e, List.count_append, Nat.add_assoc]

end runs

/-! A document whose program includes another one, which fails, and does not mind. -/

/-- A language in which a program includes the document that it names, whether that fails or not. Some programs fail. -/
def forgivingAdapter : Adapter where
  info := ⟨"a", "", "a", ["a"], [], "a", ""⟩
  threadSafe := true
  forms _ := ⟨id, id, id⟩
  prepare _ := .ok ()
  run source exposed :=
    if source = "fail" then .fail (.error "oops")
    else do
      match Service.handle? (← Dialogue.service? exposed) with
      | some h => .ask (.call h .include source) fun _ => .done ()
      | none => .done ()

def forgivingWorld : World :=
  let w : World :=
    { tree := { origin := "" }, registry := .ofAdapters [forgivingAdapter], contexts := [{}]
      sources := [{ storage := .memory "" }], host := some ⟨⟨0⟩, [], { tag := "a" }⟩ }
  ((w.setDocument ⟨0⟩ "inner" "<%a fail%>" "" none).1.compile
    { tag := "a", document := "outer", registered := "outer", text := "<%a inner%>" }).1

def forgivingRun : Run := ⟨⟨0⟩, ⟨0⟩, some .host, ⟨some (.ok ()), some (.ok ())⟩⟩

/-- The run of the document that is included fails between the hooks of the one that includes it, which comes to its end. -/
theorem brackets_of_forgiven :
    ∃ w' o, Task.Ends ⟨0⟩ forgivingWorld ⟨[], .call (.execute forgivingRun {})⟩ w' o ∧
      w'.events = forgivingWorld.events ++
        [.started "outer" 0, .initialized ⟨0⟩, .compiled "inner" 1, .started "inner" 0, .failed "inner" "oops",
          .finalized ⟨0⟩, .ended "outer"] ∧
      (∃ inner past w₁ r, Chronicle ⟨0⟩ forgivingWorld [] (forgivingWorld.begun forgivingRun) inner past w₁ ∧
        (Move.sealed w₁ forgivingRun r).Ends ⟨0⟩ w' o ∧
        w'.events = forgivingWorld.events ++ forgivingRun.bracket "outer" 0 inner o ∧
        forgivingWorld.Tallies w' (past ++ w₁.completes forgivingRun o)) := by
  have hdrive : (Task.drive ⟨0⟩ 60 forgivingWorld ⟨[], .call (.execute forgivingRun {})⟩).any (fun x =>
      x.1.events = forgivingWorld.events ++
        [.started "outer" 0, .initialized ⟨0⟩, .compiled "inner" 1, .started "inner" 0, .failed "inner" "oops",
          .finalized ⟨0⟩, .ended "outer"]) = true := by decide +kernel
  obtain ⟨⟨w', o⟩, hdrive, hevents⟩ := (Option.any_eq_true _ _).1 hdrive
  have hends := Task.ends_of_drive hdrive
  have hskips : forgivingWorld.skips forgivingRun {} = false := by decide +kernel
  have hallowed : forgivingWorld.allowed forgivingRun = forgivingRun := by rfl
  have hname : (forgivingWorld.executable ⟨0⟩).name = "outer" := by decide +kernel
  have hcount : (forgivingWorld.executable ⟨0⟩).count = 0 := by decide +kernel
  refine ⟨w', o, hends, of_decide_eq_true hevents, ?_⟩
  obtain ⟨hskipped, -⟩ | ⟨-, -, inner, past, w₁, r, hinner, hsealed, hbracket, htallies⟩ := execute_brackets hends
  · exact Bool.noConfusion (hskips.symm.trans hskipped)
  · rw [hallowed] at hinner hsealed hbracket
    change _ = _ ++ Run.bracket _ (forgivingWorld.executable ⟨0⟩).name (forgivingWorld.executable ⟨0⟩).count _ _ at hbracket
    rw [hname, hcount] at hbracket
    exact ⟨inner, past, w₁, r, hinner, hsealed, hbracket, htallies⟩

end ScriptedText
