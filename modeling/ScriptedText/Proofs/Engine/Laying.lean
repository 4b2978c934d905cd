import ScriptedText.Proofs.Engine.SegmentRun
import ScriptedText.Proofs.Engine.Step

/-!
What one step of a task does to the frames of runs and to services. A run lays a frame for the segment that it is at, and
the program of the segment one for itself, on which it puts down what it found in place of its executable's service.
-/

namespace ScriptedText

/-- Whether the frame has nothing to do with the segment that a run is at. -/
def Frame.isFree : Frame → Bool
  | .segment _ _ | .program _ _ _ | .granted _ (.program _ _ _) | .holding _ => false
  | _ => true

def Frame.isProgram : Frame → Bool
  | .program _ _ _ => true
  | _ => false

/-- Whether a task does nothing but wait, or go on with the frame on top. -/
def Control.isStill : Control → Bool
  | .settled _ | .waiting => true
  | _ => false

namespace World

variable {w w₁ : World} {run : Run} {a : AdapterId} {c : ContextId}

def services (w : World) : List (OrderedMap String Service) := w.contexts.map Context.services

theorem services_context (w : World) (c : ContextId) : (w.context c).services = (w.services[c.index]?).getD ∅ := by
  simp only [context, services, List.getElem?_map]
  cases w.contexts[c.index]? <;> rfl

theorem services_modifyContext (w : World) (c : ContextId) {f : Context → Context}
    {g : OrderedMap String Service → OrderedMap String Service} (h : ∀ x, (f x).services = g x.services) :
    (w.modifyContext c f).services = w.services.modify c.index g := map_modify h

theorem services_modifyContext_of_eq (w : World) (c : ContextId) {f : Context → Context}
    (h : ∀ x, (f x).services = x.services) : (w.modifyContext c f).services = w.services :=
  (w.services_modifyContext c h).trans (List.modify_id ..)

theorem services_of_contexts (h : w₁.contexts = w.contexts) : w₁.services = w.services := congrArg (List.map _) h

theorem services_setService (x : Context) (name : String) (s : Option Service) :
    (x.setService name s).services = x.services.put name s := by
  cases s <;> rfl

theorem services_exposed (w : World) (run : Run) : (w.exposed run).services =
    if (w.context run.context).immutable then w.services
    else w.services.modify run.context.index (·.insert (w.executable run.executable).exposed (.handle run.handle)) := by
  unfold exposed
  split
  · rfl
  · exact w.services_modifyContext run.context fun _ => rfl

theorem services_concealed (w : World) (run : Run) (swap : Option Swap) : (w.concealed run swap).services =
    match swap with
    | none => w.services
    | some swap => w.services.modify run.context.index (·.put swap.name swap.previous) := by
  cases swap with
  | none => rfl
  | some swap => exact w.services_modifyContext run.context fun x => services_setService x _ _

/-- As far as services go, worlds are the same to a run. -/
structure Serves (run : Run) (w w₁ : World) : Prop where
  services : w₁.services = w.services
  immutable : (w₁.context run.context).immutable = (w.context run.context).immutable
  executable : w₁.executable run.executable = w.executable run.executable

theorem Serves.swap?_eq (h : Serves run w w₁) : w₁.swap? run = w.swap? run := by
  simp only [swap?, h.immutable, h.executable, services_context, h.services]

theorem Serves.exposed_eq (h : Serves run w w₁) : (w₁.exposed run).services = (w.exposed run).services := by
  simp only [services_exposed, h.immutable, h.executable, h.services]

theorem serves_recorded (w : World) (run : Run) (a : AdapterId) : Serves run w (w.recorded run a) where
  services := w.services_modifyContext_of_eq run.context fun _ => rfl
  immutable := read_modifyContext Context.immutable w run.context (f := fun c => { c with adapter := some a }) (fun _ => rfl) _
  executable := rfl

end World

namespace Move

/-- A move that is no part of the segment of a run, and leaves services alone. -/
structure Free (w : World) (m : Move) : Prop where
  push : m.push.all Frame.isFree
  services : m.world.services = w.services

/-- What an attempt at a segment can come to. -/
inductive Tries (w : World) (run : Run) (s : PlacedSegment) (m : Move) : Prop
  /-- It is done, or it has failed. -/
  | done (hpush : m.push = []) (hcontrol : m.control.isStill = true) (h : m.world.services = w.services)
  | asks (r : RegistrationId) (a : AdapterId) (hpush : m.push = [.granted r (.program run s a)])
      (hcontrol : m.control.isStill = true) (h : m.world.services = w.services)
  | starts (hpush : m.push = [.program run (s.site (w.executable run.executable).name) (w.swap? run)])
      (h : m.world.services = (w.exposed run).services)

/-- What a step does to frames and services, with the frame that it takes from the stack, if any. -/
inductive Lays (w : World) : Control → List Frame → Move → Prop
  | call {c : Control} {m : Move} (hc : c.isStill = false) (h : Free w m) : Lays w c [] m
  | free {c : Control} {f : Frame} {m : Move} (hf : f.isFree = true) (h : Free w m) : Lays w c [f] m
  | finishes {c : Control} {run : Run} {rest : List PlacedSegment} {m : Move} (h : Free w m) :
      Lays w c [.segment run rest] m
  /-- The first segment of a run is tried, or the next one. -/
  | tries {c : Control} {f : Frame} {run : Run} {s : PlacedSegment} {rest : List PlacedSegment} {m : Move}
      (hf : f = .initialized run ∧ (w.executable run.executable).segments = s :: rest ∨ f = .segment run (s :: rest))
      (h : Tries w run s m) : Lays w c [f] (m.under [.segment run rest])
  | enters {c : Control} {r : RegistrationId} {run : Run} {s : PlacedSegment} {a : AdapterId} {m : Move}
      (h : Tries w run s m) : Lays w c [.granted r (.program run s a)] (m.under [.holding r])
  | lets {c : Control} {r : RegistrationId} {e : Entry} {m : Move} (hpush : m.push = [.holding r])
      (h : m.world.services = w.services) : Lays w c [.granted r (.entry e)] m
  | leaves {c : Control} {r : RegistrationId} {m : Move} (hpush : m.push = []) (hcontrol : m.control.isStill = true)
      (h : m.world.services = w.services) : Lays w c [.holding r] m
  | ends {c : Control} {run : Run} {site : Site} {swap : Option Swap} {m : Move} (hpush : m.push = [])
      (hcontrol : m.control.isStill = true) (h : m.world.services = (w.concealed run swap).services) :
      Lays w c [.program run site swap] m
  /-- A program changes services by itself. -/
  | sets {s : Speaker} {name : String} {v : Value} {k : Unit → Dialogue Reply} {m : Move} (hpush : m.push = [])
      (h : m.world.services = w.services.modify s.context.index (·.put name (some (.value v)))) :
      Lays w (.talking s (.ask (.setService name v) k)) [] m

variable {w w₁ : World} {m : Move} {run : Run} {s : PlacedSegment}

theorem Free.under (h : Free w m) {push : List Frame} (hpush : push.all Frame.isFree) : Free w (m.under push) := by
  refine ⟨?_, h.services⟩
  simp only [Move.under, List.all_append, h.push, hpush, Bool.and_self]

theorem Searches.free (h : Searches w m) : Free w m := by
  refine ⟨?_, World.services_of_contexts h.looks.contexts_eq⟩
  refine List.all_eq_true.2 fun f hf => ?_
  have hlooks := List.all_eq_true.1 h.push f hf
  cases f with
  | program _ _ _ => cases hlooks
  | segment _ _ => cases hlooks
  | granted _ _ => cases hlooks
  | holding _ => cases hlooks
  | _ => rfl

theorem Tries.behind (h : Tries w₁ run s m) (hw : World.Serves run w w₁) : Tries w run s m := by
  cases h with
  | done hpush hcontrol h => exact .done hpush hcontrol (h.trans hw.services)
  | asks r a hpush hcontrol h => exact .asks r a hpush hcontrol (h.trans hw.services)
  | starts hpush h =>
      rw [hw.swap?_eq, hw.executable] at hpush
      exact .starts hpush (h.trans hw.exposed_eq)

variable (w) (t : TaskId) (run) (s)

theorem free_settle (o : Outcome) : Free w (settle w o) := ⟨rfl, rfl⟩

theorem free_runHook (hook : Hook) (event : Event) {push : List Frame} (hpush : push.all Frame.isFree) :
    Free w (runHook w hook event push) := by
  cases hook <;> exact ⟨hpush, rfl⟩

theorem free_execute (options : RunOptions) : Free w (execute w run options) := by
  unfold execute
  dsimp only
  split
  · exact free_settle w _
  · exact ⟨(free_runHook _ _ _ rfl).push, (free_runHook _ _ _ rfl).services⟩

theorem free_close (outcome : Except Failure Unit) : Free w (close w run outcome) := by
  cases outcome with
  | ok _ => exact ⟨rfl, rfl⟩
  | error f => exact ⟨rfl, World.services_of_contexts (looks_reportFailure w _ f).contexts_eq⟩

theorem free_finish (outcome : Except Failure Unit) : Free w (finish w run outcome) := free_runHook w _ _ rfl

theorem free_afterFinalized (outcome : Except Failure Unit) (o : Outcome) : Free w (afterFinalized w run outcome o) := by
  cases o with
  | error f => exact free_close w run (.error f)
  | ok _ => exact free_close w run outcome

theorem tries_startProgram (a : AdapterId) : Tries w run s (startProgram w run s a) := by
  cases hadapter : w.adapter? a with
  | none =>
      simp only [startProgram, hadapter]
      exact .done rfl rfl rfl
  | some adapter =>
      cases hprogram : s.program with
      | none =>
          simp only [startProgram, hadapter, hprogram]
          exact .done rfl rfl rfl
      | some source =>
          rw [startProgram_eq hadapter hprogram]
          refine .starts rfl ?_
          simp only [say, World.started]
          split <;> rfl

theorem tries_lockAndGo (r : RegistrationId) (a : AdapterId) :
    Tries w run s (lockAndGo w t r (.program run s a)) := by
  unfold lockAndGo
  split
  · exact tries_startProgram w run s a
  · refine .asks r a rfl ?_ rfl
    dsimp only
    split <;> rfl

theorem tries_runSegment : Tries w run s (runSegment w t run s) := by
  unfold runSegment
  split
  · split
    · next r a _ _ =>
        dsimp only
        split
        · exact (tries_startProgram _ run s a).behind (w.serves_recorded run a)
        · exact (tries_lockAndGo _ run s t r a).behind (w.serves_recorded run a)
    · exact .done rfl rfl rfl
  · exact .done rfl rfl (w.services_modifyContext_of_eq _ fun _ => rfl)

theorem free_startEntry (e : Entry) : Free w (startEntry w e) := by
  unfold startEntry
  split <;> exact ⟨rfl, rfl⟩

theorem free_lockAndGo (r : RegistrationId) (e : Entry) : Free w (lockAndGo w t r (.entry e)) := by
  unfold lockAndGo
  split
  · exact free_startEntry w e
  · exact ⟨rfl, rfl⟩

theorem free_enter (e : ExecutableId) (name : String) (args : List Value) : Free w (enter w t e name args) := by
  unfold enter
  dsimp only
  split
  · exact free_settle w _
  · split
    · exact free_settle w _
    · split
      · exact free_settle w _
      · refine Free.under ?_ rfl
        split
        · split
          · exact free_startEntry w _
          · exact free_lockAndGo w t _ _
        · exact free_startEntry w _

theorem free_afterClaiming (o : Outcome) : Free w (afterClaiming w run o) := by
  unfold afterClaiming
  split
  · exact ⟨rfl, rfl⟩
  · split
    · exact ⟨rfl, rfl⟩
    · exact ⟨rfl, w.services_modifyContext_of_eq run.context fun _ => rfl⟩

theorem free_afterEntering (name : String) (o : Outcome) : Free w (afterEntering w name o) := by
  unfold afterEntering
  split <;> exact ⟨rfl, rfl⟩

theorem free_afterFetched (name : String) (isText : Bool) (c : ContextId) (e : ExecutableId) :
    Free w (afterFetched w name isText c e) := by
  refine ⟨?_, ?_⟩
  · unfold afterFetched
    split <;> rfl
  · unfold afterFetched
    dsimp only
    split
    · split
      · exact World.services_of_contexts (looks_recordDependency w name c _).contexts_eq
      · rfl
    · rfl

theorem services_markExecuted (x : Context) (name : String) : (x.markExecuted name).1.services = x.services := by
  unfold Context.markExecuted
  dsimp only
  split <;> rfl

theorem services_modifyContext_markExecuted (c : ContextId) (name : String) :
    (w.modifyContext c fun _ => ((w.context c).markExecuted name).1).services = w.services := by
  refine map_modify_of_eq fun x hx => ?_
  rw [services_markExecuted, World.context, hx]
  rfl

theorem free_runOnce (name : String) (c : ContextId) : Free w (runOnce w name c) := by
  have hsame := services_modifyContext_markExecuted w c name
  unfold runOnce markExecuted
  dsimp only
  split
  · next heq =>
      obtain ⟨rfl, -⟩ := Prod.mk.inj heq
      exact ⟨rfl, hsame⟩
  · next heq =>
      obtain ⟨rfl, -⟩ := Prod.mk.inj heq
      exact ⟨rfl, hsame⟩

theorem free_callOther (h : Handle) (mode : CallMode) (name : String) {push : List Frame}
    (hpush : push.all Frame.isFree) : Free w (callOther w h mode name push) := by
  unfold callOther
  split
  · exact ⟨hpush, rfl⟩
  · exact ⟨hpush, rfl⟩
  · exact ⟨hpush, w.services_modifyContext_of_eq h.context fun _ => rfl⟩
  · exact ⟨hpush, rfl⟩

theorem lays_answer (s : Speaker) (q : Ask) (k : q.Answer → Dialogue Reply) :
    Lays w (.talking s (.ask q k)) [] (answer w t s q k) := by
  have hfree {m : Move} (h : Free w m) : Lays w (.talking s (.ask q k)) [] m := .call rfl h
  cases q with
  | setService name v => exact .sets rfl (w.services_modifyContext s.context fun x => World.services_setService x name _)
  | call h mode name => exact hfree (free_callOther w h mode name rfl)
  | callOnce h name =>
      unfold answer callOnce
      dsimp only
      split <;> exact hfree ⟨rfl, rfl⟩
  | gate name =>
      unfold answer waitForGate
      dsimp only
      split <;> exact hfree ⟨rfl, rfl⟩
  | write stream text =>
      refine hfree ⟨rfl, w.services_modifyContext_of_eq s.context fun _ => ?_⟩
      cases stream <;> rfl
  | setVariable name v => exact hfree ⟨rfl, w.services_modifyContext_of_eq s.context fun _ => rfl⟩
  | setAttribute name text => exact hfree ⟨rfl, w.services_modifyContext_of_eq s.context fun _ => rfl⟩
  | putNote key n => exact hfree ⟨rfl, w.services_modifyContext_of_eq s.context fun _ => rfl⟩
  | _ => exact hfree ⟨rfl, rfl⟩

theorem lays_converse (s : Speaker) (d : Dialogue Reply) : Lays w (.talking s d) [] (converse w t s d) := by
  cases d with
  | ask q k => exact lays_answer w t s q k
  | _ => exact .call rfl (free_settle w _)

theorem free_begin (c : Call) : Free w (begin w t c) := by
  cases c with
  | execute run options => exact free_execute w run options
  | makeEnterable run =>
      unfold begin makeEnterable
      dsimp only
      split <;> exact ⟨rfl, rfl⟩
  | enter e name args => exact free_enter w t e name args
  | «include» name c => exact ⟨rfl, rfl⟩
  | runSource name c => exact ⟨rfl, rfl⟩
  | runOnce name c => exact free_runOnce w name c
  | _ => exact (searches_begin w t rfl).free

/-- A run goes on with its next segment, unless there is none left. -/
theorem lays_runSegments {c : Control} {f : Frame} {segments : List PlacedSegment}
    (hf : f = .initialized run ∧ (w.executable run.executable).segments = segments ∨ f = .segment run segments) :
    Lays w c [f] (runSegments w t run segments) := by
  cases segments with
  | nil =>
      rcases hf with ⟨rfl, -⟩ | rfl
      · exact .free rfl (free_finish w run _)
      · exact .finishes (free_finish w run _)
  | cons s rest => exact .tries hf (tries_runSegment w run s t)

theorem lays_resume (f : Frame) (o : Outcome) : Lays w (.settled o) [f] (resume w t f o) := by
  cases f with
  | initialized run =>
      cases o with
      | error f => exact .free rfl (free_close w run (.error f))
      | ok _ => exact lays_runSegments w run t (.inl ⟨rfl, rfl⟩)
  | segment run rest =>
      cases o with
      | error f => exact .finishes (free_finish w run _)
      | ok _ => exact lays_runSegments w run t (.inr rfl)
  | finalized run outcome => exact .free rfl (free_afterFinalized w run outcome o)
  | program run site swap =>
      cases swap <;> cases o <;> exact .ends rfl rfl rfl
  | granted r inside =>
      cases inside with
      | program run s a =>
          refine .enters ((tries_startProgram _ run s a).behind ⟨rfl, rfl, rfl⟩)
      | entry e =>
          refine .lets ?_ ?_
          · simp only [resume, afterGranted, goInside, startEntry]
            split <;> rfl
          · exact (free_startEntry _ e).services
  | holding r => exact .leaves rfl rfl rfl
  | claiming run => exact .free rfl (free_afterClaiming w run o)
  | entering name => exact .free rfl (free_afterEntering w name o)
  | conversation s k => exact .free rfl ⟨rfl, rfl⟩
  | fetched name isText c =>
      cases o with
      | error f => exact .free rfl (free_settle w _)
      | ok reply =>
          cases reply with
          | executable e => exact .free rfl (free_afterFetched w name isText c e)
          | _ => exact .free rfl (free_settle w _)
  | included => cases o <;> exact .free rfl (free_settle w _)
  | ranOnce => cases o <;> exact .free rfl (free_settle w _)
  | _ => exact .free rfl (searches_resume w t rfl o).free

end Move

theorem Task.lays_of_advance {w : World} {id : TaskId} {t : Task} {m : Move} {rest : List Frame}
    (ha : t.advance w id = some (m, rest)) : ∃ popped, t.stack = popped ++ rest ∧ Move.Lays w t.control popped m := by
  obtain ⟨stack, control⟩ := t
  cases control with
  | call c =>
      cases ha
      exact ⟨[], rfl, .call rfl (Move.free_begin w id c)⟩
  | talking s d =>
      cases ha
      exact ⟨[], rfl, Move.lays_converse w id s d⟩
  | waiting => cases stack <;> cases ha
  | settled o =>
      cases stack with
      | nil => cases ha
      | cons f rest =>
          cases ha
          exact ⟨[f], rfl, Move.lays_resume w id f o⟩

end ScriptedText
