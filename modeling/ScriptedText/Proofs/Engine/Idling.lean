import ScriptedText.Proofs.Engine.SegmentRun
import ScriptedText.Proofs.Engine.Step

/-!
Steps that are no part of a run as a whole. Nothing that they report tells of a run, no run counts by them, and contexts keep
the adapters that they have on record; only where a run comes to a program is another one put there.
-/

namespace ScriptedText

/-- Whether the frame belongs neither to a run as a whole nor to a claim. -/
def Frame.isInner : Frame → Bool
  | .initialized _ | .segment _ _ | .finalized _ _ | .claiming _ => false
  | _ => true

/-- Whether the call is a run, which may claim its context. -/
def Call.isRun : Call → Bool
  | .execute _ _ | .makeEnterable _ => true
  | _ => false

/-- A call that a program can lead to. What it runs has no hooks then, and is not left out. -/
def Call.isInner : Call → Bool
  | .execute run options =>
    run.hooks.before.isNone && run.hooks.after.isNone && !options.unlessRan && !options.unlessCached
  | .makeEnterable _ => false
  | _ => true

def Control.isInner : Control → Bool
  | .call c => c.isInner
  | _ => true

theorem Frame.isInner_of_looksUp {f : Frame} (h : f.looksUp) : f.isInner := by
  cases f <;> first | rfl | cases h

theorem Control.isInner_of_looksUp {c : Control} (h : c.looksUp) : c.isInner := by
  cases c with
  | call c => cases c <;> first | rfl | cases h
  | _ => rfl

namespace World

/-- The adapters that contexts have on record. -/
def adapters (w : World) : List (Option AdapterId) := w.contexts.map Context.adapter

/-- What is reported is none of a run, and no run counts. Executables keep their names. -/
structure Mutters (w w' : World) : Prop where
  events : ∃ aside, aside.all Event.isAside = true ∧ w'.events = w.events ++ aside
  count : ∀ e, (w'.executable e).count = (w.executable e).count
  names : w.executables.map Executable.name <+: w'.executables.map Executable.name

/-- As far as runs go, nothing happens. -/
structure Idles (w w' : World) : Prop extends Mutters w w' where
  adapters : w'.adapters = w.adapters

/-- The world in which a run has come to a segment. -/
def reached (w : World) (run : Run) (s : PlacedSegment) : World :=
  if s.isProgram then (w.registry.forTag? s.tag).elim w (w.recorded run) else w

variable {w w' w₁ w₂ : World} {e : ExecutableId} {c : ContextId} {a : AdapterId}

theorem adapter_context (w : World) (c : ContextId) : (w.context c).adapter = (w.adapters[c.index]?).getD none := by
  simp only [context, adapters, List.getElem?_map]
  cases w.contexts[c.index]? <;> rfl

theorem adapters_modifyContext (w : World) (c : ContextId) {f : Context → Context}
    {g : Option AdapterId → Option AdapterId} (h : ∀ x, (f x).adapter = g x.adapter) :
    (w.modifyContext c f).adapters = w.adapters.modify c.index g := map_modify h

theorem adapters_recorded (w : World) (run : Run) (a : AdapterId) :
    (w.recorded run a).adapters = w.adapters.modify run.context.index fun _ => some a :=
  w.adapters_modifyContext run.context fun _ => rfl

theorem count_modifyExecutable (w : World) (e : ExecutableId) {f : Executable → Executable}
    (hf : ∀ x, (f x).count = x.count) (e' : ExecutableId) :
    ((w.modifyExecutable e f).executable e').count = (w.executable e').count := read_modify hf e'.index _

theorem names_modifyExecutable (w : World) (e : ExecutableId) {f : Executable → Executable}
    (hf : ∀ x, (f x).name = x.name) :
    (w.modifyExecutable e f).executables.map Executable.name = w.executables.map Executable.name :=
  map_modify_of_eq fun x _ => hf x

theorem count_addExecutable (w : World) {x : Executable} (hx : x.IsNew) (e : ExecutableId) :
    ((w.addExecutable x).1.executable e).count = (w.executable e).count := by
  unfold addExecutable executable
  dsimp only
  rcases Nat.lt_trichotomy e.index w.executables.length with hlt | heq | hgt
  · rw [List.getElem?_append_left hlt]
  · simp [heq, hx.count]
    rfl
  · rw [List.getElem?_eq_none (by simp; omega), List.getElem?_eq_none (Nat.le_of_lt hgt)]

theorem Mutters.trans (h : w.Mutters w₁) (h' : w₁.Mutters w₂) : w.Mutters w₂ where
  events := by
    obtain ⟨aside, hall, heq⟩ := h.events
    obtain ⟨aside', hall', heq'⟩ := h'.events
    exact ⟨aside ++ aside', by rw [List.all_append, hall, hall']; rfl, by rw [heq', heq, List.append_assoc]⟩
  count e := (h'.count e).trans (h.count e)
  names := h.names.trans h'.names

theorem mutters_of_executables_eq (hevents : w'.events = w.events) (hexecutables : w'.executables = w.executables) :
    w.Mutters w' where
  events := ⟨[], rfl, by rw [hevents, List.append_nil]⟩
  count e := by simp only [executable, hexecutables]
  names := hexecutables ▸ List.prefix_refl _

theorem mutters_reached (w : World) (run : Run) (s : PlacedSegment) : w.Mutters (w.reached run s) := by
  unfold reached
  split
  · cases w.registry.forTag? s.tag <;> exact mutters_of_executables_eq rfl rfl
  · exact mutters_of_executables_eq rfl rfl

namespace Idles

theorem of_eq (hevents : w'.events = w.events) (hexecutables : w'.executables = w.executables)
    (hcontexts : w'.contexts = w.contexts) : w.Idles w' where
  toMutters := mutters_of_executables_eq hevents hexecutables
  adapters := congrArg (List.map Context.adapter) hcontexts

theorem refl (w : World) : w.Idles w := of_eq rfl rfl rfl

theorem trans (h : w.Idles w₁) (h' : w₁.Idles w₂) : w.Idles w₂ where
  toMutters := h.toMutters.trans h'.toMutters
  adapters := h'.adapters.trans h.adapters

theorem emit (h : w.Idles w₁) {event : Event} (he : event.isAside = true) : w.Idles (w₁.emit event) :=
  h.trans ⟨⟨⟨[event], by simp [he], rfl⟩, fun _ => rfl, List.prefix_refl _⟩, rfl⟩

theorem modifyContext (h : w.Idles w₁) (c : ContextId) {f : Context → Context} (hf : ∀ x, (f x).adapter = x.adapter) :
    w.Idles (w₁.modifyContext c f) :=
  h.trans ⟨mutters_of_executables_eq rfl rfl, (w₁.adapters_modifyContext c hf).trans (List.modify_id ..)⟩

theorem modifyExecutable (h : w.Idles w₁) (e : ExecutableId) {f : Executable → Executable}
    (hf : ∀ x, (f x).count = x.count) (hname : ∀ x, (f x).name = x.name) : w.Idles (w₁.modifyExecutable e f) :=
  h.trans ⟨⟨⟨[], rfl, (List.append_nil _).symm⟩, w₁.count_modifyExecutable e hf,
    w₁.names_modifyExecutable e hname ▸ List.prefix_refl _⟩, rfl⟩

theorem setLock (h : w.Idles w₁) (r : RegistrationId) (l : Lock ContextId TaskId) : w.Idles (w₁.setLock r l) :=
  h.trans (of_eq rfl rfl rfl)

end Idles

/-- To look documents up, to read them and to compile them is no part of a run. -/
theorem Looks.idles (h : Looks w w') : w.Idles w' := by
  induction h with
  | refl => exact .refl _
  | addExecutable _ x hx ih => exact ih.trans ⟨⟨⟨[], rfl, (List.append_nil _).symm⟩, count_addExecutable _ hx, by simp [World.addExecutable]⟩, rfl⟩
  | emit _ e he ih => exact ih.emit he
  | modifySource _ _ _ ih => exact ih.trans (.of_eq rfl rfl rfl)
  | modifyDocument _ _ _ ih => exact ih.trans (.of_eq rfl rfl rfl)
  | addDocument _ _ ih => exact ih.trans (.of_eq rfl rfl rfl)
  | countInFlow _ _ ih => exact ih.trans (.of_eq rfl rfl rfl)

theorem idles_reportFailure (w : World) (document : String) (f : Failure) : w.Idles (w.reportFailure document f) :=
  (Move.looks_reportFailure w document f).idles

theorem idles_release (w : World) (e : ExecutableId) : w.Idles (w.release e) := by
  unfold release
  split
  · exact .refl w
  · dsimp only
    have hunclaimed := ((Idles.refl w).modifyExecutable e (f := Executable.unclaim) (fun _ => rfl) fun _ => rfl).modifyContext
      ‹ContextId› (f := fun x => { x with immutable := false }) fun _ => rfl
    split
    · exact hunclaimed
    · split
      · split
        · refine Idles.emit (hunclaimed.modifyContext _ fun x => ?_) rfl
          rfl
        · exact hunclaimed.modifyContext _ fun _ => rfl
      · exact hunclaimed

end World

namespace Move

/-- A move that is no part of a run as a whole, and begins none but one for a program. -/
structure Idles (w : World) (m : Move) : Prop where
  world : w.Idles m.world
  push : m.push.all Frame.isInner = true
  control : m.control.isInner = true

variable {w w₁ : World} {m : Move}

theorem Idles.behind (h : Idles w₁ m) (hw : w.Idles w₁) : Idles w m := ⟨hw.trans h.world, h.push, h.control⟩

theorem Idles.under (h : Idles w m) {push : List Frame} (hpush : push.all Frame.isInner = true) :
    Idles w (m.under push) := by
  refine ⟨h.world, ?_, h.control⟩
  unfold Move.under
  rw [List.all_append, h.push, hpush]
  rfl

theorem Searches.idles (h : Searches w m) : Idles w m where
  world := h.looks.idles
  push := List.all_eq_true.2 fun f hf => f.isInner_of_looksUp (List.all_eq_true.1 h.push f hf)
  control := Control.isInner_of_looksUp h.control

variable (w) (t : TaskId) (run : Run)

theorem idles_settle (o : Outcome) : Idles w (settle w o) := ⟨.refl w, rfl, rfl⟩

theorem idles_startProgram (s : PlacedSegment) (a : AdapterId) : Idles w (startProgram w run s a) := by
  unfold startProgram
  dsimp only
  split
  · have hservice : w.Idles (if (w.context run.context).immutable then w else
        w.modifyContext run.context (·.setService (w.executable run.executable).exposed
          (some (Service.handle ⟨run.executable, run.context, run.container⟩)))) := by
      split
      · exact .refl w
      · exact (World.Idles.refl w).modifyContext _ fun _ => rfl
    split
    · exact ⟨hservice.emit rfl, rfl, rfl⟩
    · exact ⟨hservice, rfl, rfl⟩
  · exact idles_settle w _

theorem idles_goInside (inside : Inside) : Idles w (goInside w inside) := by
  cases inside with
  | program run s a => exact idles_startProgram w run s a
  | entry e =>
      unfold goInside startEntry
      dsimp only
      split <;> exact ⟨.refl w, rfl, rfl⟩

theorem idles_lockAndGo (r : RegistrationId) (inside : Inside) : Idles w (lockAndGo w t r inside) := by
  unfold lockAndGo
  split
  · exact idles_goInside w inside
  · refine ⟨(World.Idles.refl w).setLock r _, rfl, ?_⟩
    dsimp only
    split <;> rfl

theorem idles_afterGranted (r : RegistrationId) (inside : Inside) : Idles w (afterGranted w r inside) :=
  ((idles_goInside _ inside).behind ((World.Idles.refl w).setLock r _)).under rfl

/-- Once the adapter is on record, an attempt at a segment is no part of the run as a whole. -/
theorem idles_runSegment (s : PlacedSegment) : Idles (w.reached run s) (runSegment w t run s) := by
  unfold runSegment World.reached Registry.forTag?
  split
  · cases w.registry.registration? s.tag with
    | none => exact idles_settle w _
    | some r =>
        simp only [Option.bind_some]
        cases w.registry.owner? r with
        | none => exact idles_settle w _
        | some a =>
            dsimp only
            split
            · exact idles_startProgram _ run s a
            · exact idles_lockAndGo _ t r _
  · exact ⟨(World.Idles.refl w).modifyContext _ fun _ => rfl, rfl, rfl⟩

theorem idles_afterProgram (site : Site) (swap : Option Swap) (o : Outcome) :
    Idles w (afterProgram w run site swap o) := by
  have hback : w.Idles (w.concealed run swap) := by
    cases swap with
    | none => exact .refl w
    | some swap =>
        refine (World.Idles.refl w).modifyContext _ fun x => ?_
        cases swap.previous <;> rfl
  cases swap <;> cases o <;> exact ⟨hback, rfl, rfl⟩

theorem idles_afterClaiming (o : Outcome) : Idles w (afterClaiming w run o) := by
  unfold afterClaiming
  split
  · exact idles_settle w _
  · split
    · exact idles_settle w _
    · have himmutable := (World.Idles.refl w).modifyContext run.context (f := fun c => { c with immutable := true })
        fun _ => rfl
      exact ⟨himmutable.modifyExecutable run.executable (f := (·.claim run.context)) (fun _ => rfl) fun _ => rfl, rfl, rfl⟩

theorem idles_enter (e : ExecutableId) (name : String) (args : List Value) : Idles w (enter w t e name args) := by
  unfold enter
  dsimp only
  split
  · exact idles_settle w _
  · split
    · exact idles_settle w _
    · split
      · exact idles_settle w _
      · refine Idles.under ?_ rfl
        split
        · split
          · exact idles_goInside w (.entry _)
          · exact idles_lockAndGo w t _ _
        · exact idles_goInside w (.entry _)

theorem idles_runOnce (name : String) (c : ContextId) : Idles w (runOnce w name c) := by
  have hadapter (x : Context) : (x.markExecuted name).1.adapter = x.adapter := by
    unfold Context.markExecuted
    dsimp only
    split <;> rfl
  have hmark : w.Idles (markExecuted w name c).1 := by
    refine ⟨World.mutters_of_executables_eq rfl rfl, ?_⟩
    change (w.modifyContext c fun _ => ((w.context c).markExecuted name).1).adapters = w.adapters
    refine map_modify_of_eq fun x hx => ?_
    rw [hadapter, World.context, hx]
    rfl
  unfold runOnce
  generalize markExecuted w name c = marked at hmark ⊢
  obtain ⟨w', fresh⟩ := marked
  cases fresh <;> exact ⟨hmark, rfl, rfl⟩

theorem idles_answer (s : Speaker) (q : Ask) (k : q.Answer → Dialogue Reply) : Idles w (answer w t s q k) := by
  cases q with
  | call h mode name =>
      unfold answer callOther
      dsimp only
      split
      · exact ⟨.refl w, rfl, rfl⟩
      · exact ⟨.refl w, rfl, rfl⟩
      · exact ⟨(World.Idles.refl w).modifyContext _ fun _ => rfl, rfl, rfl⟩
      · exact ⟨.refl w, rfl, rfl⟩
  | callOnce h name =>
      unfold answer callOnce
      dsimp only
      split <;> exact ⟨.refl w, rfl, rfl⟩
  | gate name =>
      unfold answer waitForGate
      dsimp only
      split <;> exact ⟨.of_eq rfl rfl rfl, rfl, rfl⟩
  | write stream text =>
      refine ⟨(World.Idles.refl w).modifyContext _ fun _ => ?_, rfl, rfl⟩
      cases stream <;> rfl
  | setService name v => exact ⟨(World.Idles.refl w).modifyContext _ fun _ => rfl, rfl, rfl⟩
  | setVariable name v => exact ⟨(World.Idles.refl w).modifyContext _ fun _ => rfl, rfl, rfl⟩
  | setAttribute name text => exact ⟨(World.Idles.refl w).modifyContext _ fun _ => rfl, rfl, rfl⟩
  | putNote key n => exact ⟨(World.Idles.refl w).modifyContext _ fun _ => rfl, rfl, rfl⟩
  | _ => exact ⟨.refl w, rfl, rfl⟩

theorem idles_converse (s : Speaker) (d : Dialogue Reply) : Idles w (converse w t s d) := by
  cases d with
  | ask q k => exact idles_answer w t s q k
  | _ => exact idles_settle w _

theorem idles_begin {c : Call} (hc : c.isRun = false) : Idles w (begin w t c) := by
  cases c with
  | execute run options => cases hc
  | makeEnterable run => cases hc
  | enter e name args => exact idles_enter w t e name args
  | runOnce name c => exact idles_runOnce w name c
  | «include» name c => exact ⟨.refl w, rfl, rfl⟩
  | runSource name c => exact ⟨.refl w, rfl, rfl⟩
  | _ => exact (searches_begin w t rfl).idles

/-- A document that a program asks for is run without hooks. -/
theorem idles_afterFetched (name : String) (isText : Bool) (c : ContextId) (e : ExecutableId) :
    Idles w (afterFetched w name isText c e) := by
  unfold afterFetched
  dsimp only
  split
  · split
    · exact ⟨(looks_recordDependency w name c _).idles, rfl, rfl⟩
    · exact ⟨.refl w, rfl, rfl⟩
  · exact ⟨.refl w, rfl, rfl⟩

theorem idles_resume {f : Frame} (hf : f.isInner = true) (o : Outcome) : Idles w (resume w t f o) := by
  cases f with
  | initialized run => cases hf
  | segment run rest => cases hf
  | finalized run outcome => cases hf
  | claiming run => cases hf
  | program run site swap => exact idles_afterProgram w run site swap o
  | granted r inside => exact idles_afterGranted w r inside
  | holding r => exact ⟨(World.Idles.refl w).setLock r _, rfl, rfl⟩
  | entering name =>
      unfold resume afterEntering
      dsimp only
      split <;> exact ⟨.refl w, rfl, rfl⟩
  | conversation s k => exact ⟨.refl w, rfl, rfl⟩
  | fetched name isText c =>
      cases o with
      | error f => exact idles_settle w _
      | ok reply =>
          cases reply with
          | executable e => exact idles_afterFetched w name isText c e
          | _ => exact idles_settle w _
  | included => cases o <;> exact idles_settle w _
  | ranOnce => cases o <;> exact idles_settle w _
  | _ => exact (searches_resume w t rfl o).idles

end Move

end ScriptedText
