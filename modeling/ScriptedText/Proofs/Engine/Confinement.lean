import ScriptedText.Proofs.Engine.Step
import ScriptedText.Proofs.Language.Registry

/-!
Calls that keep to one context each. Programs find handles only among the services and notes of their own context,
and use no others; so whatever a call does, it does for the context that it works on.
-/

namespace ScriptedText

def Service.Local (c : ContextId) : Service → Prop
  | .value _ => True
  | .handle h => h.context = c

def Note.Local (c : ContextId) : Note → Prop
  | .handle h => h.context = c
  | .later n => n.Local c
  | _ => True

structure Context.Local (c : ContextId) (x : Context) : Prop where
  services : ∀ s ∈ x.services.entries, s.2.Local c
  notes : ∀ a, ∀ n ∈ (x.notesOf a).entries, n.2.Local c

def World.Local (w : World) : Prop := ∀ c, (w.context c).Local c

def Ask.Local (c : ContextId) : Ask → Prop
  | .call h _ _ | .callOnce h _ => h.context = c
  | .putNote _ n => n.Local c
  | _ => True

/-- Whether the handles in an answer are of the context. -/
def Ask.Answers (c : ContextId) : (q : Ask) → q.Answer → Prop
  | .services, (found : List (String × Service)) => ∀ s ∈ found, s.2.Local c
  | .notes, (found : List (NoteKey × Note)) => ∀ n ∈ found, n.2.Local c
  | _, _ => True

/-- A program that uses no handles but those of the context, if it is given no others. -/
def Dialogue.Local {α : Type} (c : ContextId) : Dialogue α → Prop
  | .done _ => True
  | .fail _ => True
  | .ask q k => q.Local c ∧ ∀ r, q.Answers c r → (k r).Local c

structure Adapter.Local (a : Adapter) : Prop where
  run : ∀ source exposed c, (a.run source exposed).Local c
  enter : ∀ enter, a.enter = some enter → ∀ name args c, (enter name args).Local c

namespace Registry

/-- A registered adapter whose programs run one at a time, and the registration whose lock guards it. -/
structure Guards (reg : Registry) (a : AdapterId) (r : RegistrationId) : Prop where
  registered : reg.registrationOf? a = some r
  guarded : ((reg.adapter? a).map (·.threadSafe)).getD true = false

end Registry

/-- A world in which calls keep to their contexts. -/
structure World.Confined (w : World) : Prop where
  contexts : w.Local
  adapters : ∀ a ∈ w.registry.adapters, a.Local
  coherent : w.registry.Coherent

theorem Dialogue.local_bind {α β : Type} {c : ContextId} {d : Dialogue α} {f : α → Dialogue β} (hd : d.Local c)
    (hf : ∀ a, (f a).Local c) : (d.bind f).Local c := by
  induction d with
  | done a => exact hf a
  | fail e => exact hd
  | ask q k ih => exact ⟨hd.1, fun r hr => ih r (hd.2 r hr)⟩

namespace Context.Local

variable {c : ContextId} {x : Context}

theorem of_eq {y : Context} (h : x.Local c) (hservices : y.services = x.services) (hnotes : y.notes = x.notes) :
    y.Local c where
  services := hservices ▸ h.services
  notes a := by
    unfold notesOf
    rw [hnotes]
    exact h.notes a

theorem setService (h : x.Local c) {name : String} {s : Option Service} (hs : ∀ y, s = some y → y.Local c) :
    (x.setService name s).Local c := by
  cases s with
  | none => exact ⟨fun y hy => h.services y (OrderedMap.mem_entries_erase hy), h.notes⟩
  | some s =>
      refine ⟨fun y hy => ?_, h.notes⟩
      rcases OrderedMap.mem_entries_insert hy with rfl | hy
      · exact hs s rfl
      · exact h.services y hy

theorem putNote (h : x.Local c) (a : AdapterId) (key : NoteKey) {n : Note} (hn : n.Local c) :
    (x.putNote a key n).Local c := by
  refine ⟨h.services, fun a' y hy => ?_⟩
  unfold Context.putNote notesOf at hy
  dsimp only at hy
  rw [OrderedMap.get?_insert] at hy
  split at hy
  · rcases OrderedMap.mem_entries_insert hy with rfl | hy
    · exact hn
    · exact h.notes a y hy
  · exact h.notes a' y hy

end Context.Local

namespace World.Local

variable {w w' : World}

theorem modifyContext (h : w.Local) (c : ContextId) {f : Context → Context} (hf : (f (w.context c)).Local c) :
    (w.modifyContext c f).Local := by
  intro c'
  unfold World.modifyContext context at *
  simp only [List.getElem?_modify]
  by_cases hc : c.index = c'.index
  · have hcc : c = c' := by cases c; cases c'; cases hc; rfl
    subst hcc
    cases hx : w.contexts[c.index]? with
    | none => exact ⟨nofun, nofun⟩
    | some x =>
        rw [hx] at hf
        simpa using hf
  · simpa [hc, context] using h c'

theorem of_contexts (h : w.Local) (hc : w'.contexts = w.contexts) : w'.Local := by
  intro c
  unfold context
  rw [hc]
  exact h c

end World.Local

def Inside.adapter : Inside → AdapterId
  | .program _ _ a => a
  | .entry e => e.speaker.adapter

/-! What a task looks like that keeps to its context. -/

section fits

variable (reg : Registry) (c : ContextId)

/-- A frame above others. Who speaks with a guarded adapter has its lock. -/
def Frame.Fits (below : List Frame) : Frame → Prop
  | .initialized run | .segment run _ | .finalized run _ | .claiming run => run.context = c
  | .program run _ swap => run.context = c ∧ ∀ x ∈ swap, ∀ s ∈ x.previous, s.Local c
  | .granted _ _ => False
  | .conversation s k => s.context = c ∧ (∀ r, reg.Guards s.adapter r → .holding r ∈ below) ∧ ∀ o, (k o).Local c
  | .fetched _ _ c' => c' = c
  | _ => True

def StackFits : List Frame → Prop
  | [] => True
  | f :: below => f.Fits reg c below ∧ StackFits below

/-- The calls that programs come to make, on the context. -/
def Call.Fits : Call → Prop
  | .execute run _ => run.context = c
  | .include _ c' | .runSource _ c' | .runOnce _ c' => c' = c
  | .makeEnterable _ | .enter _ _ _ => False
  | _ => True

def Control.Fits (stack : List Frame) : Control → Prop
  | .call asked => asked.Fits c
  | .talking s d => s.context = c ∧ (∀ r, reg.Guards s.adapter r → .holding r ∈ stack) ∧ d.Local c
  | _ => True

inductive Task.Fits : Task → Prop
  | plain {stack : List Frame} {control : Control} (hstack : StackFits reg c stack)
      (hcontrol : control.Fits reg c stack) : Fits ⟨stack, control⟩
  /-- The task is about to go inside, and does not have the lock already. -/
  | outside {r : RegistrationId} {inside : Inside} {rest : List Frame} {control : Control}
      (hstack : StackFits reg c rest) (hcontext : inside.context = c) (hother : .holding r ∉ rest)
      (hlock : ∀ r', reg.Guards inside.adapter r' → r' = r) (hcontrol : control = .waiting ∨ ∃ o, control = .settled o) :
      Fits ⟨.granted r inside :: rest, control⟩

/-- A move after which the task keeps to its context, above the frames that stay. -/
structure Move.Fits (rest : List Frame) (m : Move) : Prop where
  contexts : m.world.Local
  task : Task.Fits reg c ⟨m.push ++ rest, m.control⟩

end fits

namespace Move

variable {reg : Registry} {c : ContextId} {rest : List Frame} {m : Move} {w : World}

theorem fits_under {frames : List Frame} : Fits reg c rest (m.under frames) ↔ Fits reg c (frames ++ rest) m := by
  unfold under
  constructor
  · intro ⟨hw, ht⟩
    rw [List.append_assoc] at ht
    exact ⟨hw, ht⟩
  · intro ⟨hw, ht⟩
    refine ⟨hw, ?_⟩
    rw [List.append_assoc]
    exact ht

theorem fits_settle (hw : w.Local) (hrest : StackFits reg c rest) (o : Outcome) : Fits reg c rest (settle w o) :=
  ⟨hw, .plain hrest trivial⟩

theorem stackFits_of_looksUp {frames : List Frame} (h : frames.all Frame.looksUp) (hrest : StackFits reg c rest) :
    StackFits reg c (frames ++ rest) := by
  induction frames with
  | nil => exact hrest
  | cons f frames ih =>
      obtain ⟨hf, hframes⟩ := Bool.and_eq_true_iff.1 h
      refine ⟨?_, ih hframes⟩
      cases f <;> first | exact trivial | cases hf

theorem Searches.fits (h : Searches w m) (hw : w.Local) (hrest : StackFits reg c rest) : Fits reg c rest m := by
  refine ⟨hw.of_contexts h.looks.contexts_eq, .plain (stackFits_of_looksUp h.push hrest) ?_⟩
  have hcontrol := h.control
  cases hm : m.control with
  | call call =>
      rw [hm] at hcontrol
      cases call <;> first | exact trivial | cases hcontrol
  | settled o => trivial
  | talking s d =>
      rw [hm] at hcontrol
      cases hcontrol
  | waiting => trivial

section execution

variable (hw : w.Confined) (hrest : StackFits w.registry c rest)

include hw hrest

theorem fits_startProgram {run : Run} (hrun : run.context = c) (s : PlacedSegment) {a : AdapterId}
    (hinside : ∀ r, w.registry.Guards a r → .holding r ∈ rest) :
    Fits w.registry c rest (startProgram w run s a) := by
  subst hrun
  unfold startProgram
  dsimp only
  split
  · next adapter source hadapter hsource =>
      have hlocal := hw.adapters adapter (List.mem_of_getElem? hadapter)
      refine ⟨?_, .plain ⟨⟨rfl, ?_⟩, hrest⟩ ⟨rfl, fun r hr => List.mem_cons_of_mem _ (hinside r hr), ?_⟩⟩
      · have hservice : World.Local (if (w.context run.context).immutable then w else
            w.modifyContext run.context (·.setService (w.executable run.executable).exposed
              (some (Service.handle ⟨run.executable, run.context, run.container⟩)))) := by
          split
          · exact hw.contexts
          · refine hw.contexts.modifyContext _ ((hw.contexts _).setService fun y hy => ?_)
            cases hy
            rfl
        split
        · exact hservice.of_contexts rfl
        · exact hservice
      · intro x hx y hy
        split at hx
        · cases hx
        · cases hx
          exact (hw.contexts _).services _ (OrderedMap.mem_entries_of_get? hy)
      · exact Dialogue.local_bind (hlocal.run ..) fun _ => trivial
  · exact fits_settle hw.contexts hrest _

theorem fits_startEntry {e : Entry} (he : e.speaker.context = c)
    (hinside : ∀ r, w.registry.Guards e.speaker.adapter r → .holding r ∈ rest) :
    Fits w.registry c rest (startEntry w e) := by
  unfold startEntry
  split
  · next enter henter =>
      obtain ⟨adapter, hadapter, hsome⟩ := Option.bind_eq_some_iff.1 henter
      have hlocal := hw.adapters adapter (List.mem_of_getElem? hadapter)
      refine ⟨hw.contexts, .plain hrest ⟨he, hinside, ?_⟩⟩
      exact Dialogue.local_bind (hlocal.enter enter hsome ..) fun _ => trivial
  · exact fits_settle hw.contexts hrest _

theorem fits_goInside {inside : Inside} (hcontext : inside.context = c)
    (hinside : ∀ r, w.registry.Guards inside.adapter r → .holding r ∈ rest) :
    Fits w.registry c rest (goInside w inside) := by
  cases inside with
  | program run s a => exact fits_startProgram hw hrest hcontext s hinside
  | entry e => exact fits_startEntry hw hrest hcontext hinside

/-- The lock of a context is its task's own: then the task goes inside, and else it asks for the lock. -/
theorem fits_lockAndGo {id : TaskId} {r : RegistrationId} {inside : Inside} (hcontext : inside.context = c)
    (hown : (w.lock r).isHeldBy c = true ↔ .holding r ∈ rest)
    (hlock : ∀ r', w.registry.Guards inside.adapter r' → r' = r) :
    Fits w.registry c rest (lockAndGo w id r inside) := by
  unfold lockAndGo
  rw [hcontext]
  split
  · next hheld => exact fits_goInside hw hrest hcontext fun r' hr' => (hlock r' hr') ▸ hown.1 hheld
  · next hheld =>
      refine ⟨hw.contexts.of_contexts rfl, .outside hrest hcontext (fun h => hheld (hown.2 h)) hlock ?_⟩
      dsimp only
      split
      · exact .inr ⟨_, rfl⟩
      · exact .inl rfl

theorem fits_runSegment {id : TaskId} {run : Run} (hrun : run.context = c) (s : PlacedSegment)
    (hown : ∀ r, (w.lock r).isHeldBy c = true ↔ .holding r ∈ rest) :
    Fits w.registry c rest (runSegment w id run s) := by
  have hadapter (a : AdapterId) : (w.modifyContext run.context fun x => { x with adapter := some a }).Confined :=
    ⟨hw.contexts.modifyContext _ ((hw.contexts _).of_eq rfl rfl), hw.adapters, hw.coherent⟩
  unfold runSegment
  split
  · split
    · next r a hr ha =>
        have hlock (r' : RegistrationId) (hr' : w.registry.Guards a r') : r' = r := by
          obtain ⟨r'', hr'', howner⟩ := Option.bind_eq_some_iff.1 ha
          cases hr.symm.trans hr''
          exact Option.some.inj (hr'.registered.symm.trans (hw.coherent _ _ _ hr howner))
        dsimp only
        split
        · next hsafe =>
            exact fits_startProgram (hadapter a) hrest hrun s fun r' hr' => absurd (hsafe.symm.trans hr'.guarded) nofun
        · exact fits_lockAndGo (hadapter a) hrest hrun (hown r) hlock
    · exact fits_settle hw.contexts hrest _
  · refine ⟨hw.contexts.modifyContext _ ((hw.contexts _).of_eq ?_ ?_), .plain hrest trivial⟩
    · rfl
    · rfl

theorem fits_finish {run : Run} (hrun : run.context = c) (outcome : Except Failure Unit) :
    Fits w.registry c rest (finish w run outcome) := by
  unfold finish runHook
  split
  · exact ⟨hw.contexts, .plain ⟨hrun, hrest⟩ trivial⟩
  · exact ⟨hw.contexts.of_contexts rfl, .plain ⟨hrun, hrest⟩ trivial⟩

theorem fits_runSegments {id : TaskId} {run : Run} (hrun : run.context = c) (segments : List PlacedSegment)
    (hown : ∀ r, (w.lock r).isHeldBy c = true ↔ .holding r ∈ rest) :
    Fits w.registry c rest (runSegments w id run segments) := by
  cases segments with
  | nil => exact fits_finish hw hrest hrun _
  | cons s segments =>
      have hbelow : StackFits w.registry c (.segment run segments :: rest) := ⟨hrun, hrest⟩
      refine fits_under.2 (fits_runSegment hw hbelow hrun s fun r => (hown r).trans ?_)
      exact ⟨List.mem_cons_of_mem _, fun h => (List.mem_cons.1 h).resolve_left nofun⟩

theorem fits_execute {run : Run} (hrun : run.context = c) (options : RunOptions) :
    Fits w.registry c rest (execute w run options) := by
  unfold execute runHook
  dsimp only
  split
  · exact fits_settle hw.contexts hrest _
  · have hrun' : (if (w.context run.context).immutable then { run with hooks := {} } else run).context = c := by
      split
      · exact hrun
      · exact hrun
    split
    · exact ⟨hw.contexts.of_contexts rfl, .plain ⟨hrun', hrest⟩ trivial⟩
    · exact ⟨hw.contexts.of_contexts rfl, .plain ⟨hrun', hrest⟩ trivial⟩

theorem fits_close (run : Run) (outcome : Except Failure Unit) : Fits w.registry c rest (close w run outcome) := by
  cases outcome with
  | error f => exact fits_settle (hw.contexts.of_contexts (looks_reportFailure w _ f).contexts_eq) hrest _
  | ok _ => exact ⟨hw.contexts.of_contexts rfl, .plain hrest trivial⟩

theorem fits_afterProgram {run : Run} (hrun : run.context = c) {swap : Option Swap}
    (hswap : ∀ x ∈ swap, ∀ s ∈ x.previous, s.Local c) (site : Site) (o : Outcome) :
    Fits w.registry c rest (afterProgram w run site swap o) := by
  subst hrun
  unfold afterProgram
  cases swap with
  | none => cases o <;> exact fits_settle hw.contexts hrest _
  | some swap =>
      have hworld : (w.modifyContext run.context (·.setService swap.name swap.previous)).Local :=
        hw.contexts.modifyContext _ ((hw.contexts _).setService (hswap swap rfl))
      cases o <;> exact fits_settle hworld hrest _

theorem fits_enter {id : TaskId} {e : ExecutableId} (he : ∀ x, (w.executable e).claimed = some x → x = c)
    (hown : ∀ r, (w.lock r).isHeldBy c = true ↔ .holding r ∈ rest) (name : String) (args : List Value) :
    Fits w.registry c rest (enter w id e name args) := by
  have hrefuse (f : Failure) : Fits w.registry c rest (refuse w f) := fits_settle hw.contexts hrest _
  have hbelow : StackFits w.registry c (.entering name :: rest) := ⟨trivial, hrest⟩
  have hheld (r : RegistrationId) : (w.lock r).isHeldBy c = true ↔ .holding r ∈ Frame.entering name :: rest :=
    (hown r).trans ⟨List.mem_cons_of_mem _, fun h => (List.mem_cons.1 h).resolve_left nofun⟩
  unfold enter
  dsimp only
  split
  · exact hrefuse _
  · next x hx =>
      have hcontext := he x hx
      split
      · exact hrefuse _
      · next a ha =>
          split
          · exact hrefuse _
          · refine fits_under.2 ?_
            split
            · next r hr =>
                split
                · next hsafe =>
                    exact fits_startEntry hw hbelow hcontext fun r' hr' => absurd (hsafe.symm.trans hr'.guarded) nofun
                · refine fits_lockAndGo hw hbelow hcontext (hheld r) fun r' hr' => ?_
                  exact Option.some.inj (hr'.registered.symm.trans hr)
            · next hnone =>
                exact fits_startEntry hw hbelow hcontext fun r' hr' => absurd (hnone.symm.trans hr'.registered) nofun

theorem fits_afterGranted {r : RegistrationId} {inside : Inside} (hcontext : inside.context = c)
    (hlock : ∀ r', w.registry.Guards inside.adapter r' → r' = r) :
    Fits w.registry c rest (afterGranted w r inside) := by
  have hclaimed : (w.setLock r ((w.lock r).claim inside.context)).Confined :=
    ⟨hw.contexts.of_contexts rfl, hw.adapters, hw.coherent⟩
  have hbelow : StackFits w.registry c (.holding r :: rest) := ⟨trivial, hrest⟩
  refine fits_under.2 (fits_goInside hclaimed hbelow hcontext fun r' hr' => ?_)
  exact hlock r' hr' ▸ List.mem_cons_self ..

theorem fits_afterFetched (name : String) (isText : Bool) (e : ExecutableId) :
    Fits w.registry c rest (afterFetched w name isText c e) := by
  refine ⟨?_, .plain ⟨trivial, hrest⟩ rfl⟩
  unfold afterFetched
  dsimp only [Move.call]
  split
  · split
    · exact hw.contexts.of_contexts (looks_recordDependency w name c _).contexts_eq
    · exact hw.contexts
  · exact hw.contexts

theorem fits_runOnce (name : String) : Fits w.registry c rest (runOnce w name c) := by
  have hmarked : ((w.context c).markExecuted name).1.Local c := by
    unfold Context.markExecuted
    dsimp only
    split
    · exact hw.contexts c
    · exact (hw.contexts c).of_eq rfl rfl
  have hworld : (markExecuted w name c).1.Local := hw.contexts.modifyContext c hmarked
  unfold runOnce
  split
  · next h =>
      rw [h] at hworld
      exact fits_settle hworld hrest _
  · next h =>
      rw [h] at hworld
      exact ⟨hworld, .plain ⟨trivial, hrest⟩ rfl⟩

theorem fits_begin {id : TaskId} {call : Call} (hcall : call.Fits c) : Fits w.registry c rest (begin w id call) := by
  cases call with
  | execute run options => exact fits_execute hw hrest hcall options
  | makeEnterable run => cases hcall
  | enter e name args => cases hcall
  | runOnce name x =>
      cases hcall
      exact fits_runOnce hw hrest name
  | runSource name x => exact ⟨hw.contexts, .plain ⟨hcall, hrest⟩ trivial⟩
  | «include» name x => exact ⟨hw.contexts, .plain ⟨hcall, hrest⟩ trivial⟩
  | _ => exact (searches_begin w id rfl).fits hw.contexts hrest

theorem fits_resume {id : TaskId} {f : Frame} (hf : f.Fits w.registry c rest)
    (hown : ∀ r, (w.lock r).isHeldBy c = true ↔ .holding r ∈ f :: rest) (o : Outcome) :
    Fits w.registry c rest (resume w id f o) := by
  have hheld (hne : ∀ r, f ≠ .holding r) (r : RegistrationId) : (w.lock r).isHeldBy c = true ↔ .holding r ∈ rest :=
    (hown r).trans ⟨fun h => (List.mem_cons.1 h).resolve_left (hne r).symm, List.mem_cons_of_mem _⟩
  have hsettle (o : Outcome) : Fits w.registry c rest (settle w o) := fits_settle hw.contexts hrest o
  cases f with
  | initialized run =>
      cases o with
      | error f => exact fits_close hw hrest run (.error f)
      | ok _ => exact fits_runSegments hw hrest hf _ (hheld nofun)
  | segment run segments =>
      cases o with
      | error f => exact fits_finish hw hrest hf _
      | ok _ => exact fits_runSegments hw hrest hf segments (hheld nofun)
  | finalized run outcome =>
      cases o with
      | error f => exact fits_close hw hrest run (.error f)
      | ok _ => exact fits_close hw hrest run outcome
  | program run site swap => exact fits_afterProgram hw hrest hf.1 hf.2 site o
  | granted r inside => cases hf
  | holding r => exact ⟨hw.contexts.of_contexts rfl, .plain hrest trivial⟩
  | claiming run =>
      unfold resume afterClaiming
      cases o with
      | error f => exact hsettle _
      | ok _ =>
          dsimp only
          split
          · exact hsettle _
          · exact ⟨(hw.contexts.modifyContext _ ((hw.contexts _).of_eq rfl rfl)).of_contexts rfl, .plain hrest trivial⟩
  | entering name =>
      unfold resume afterEntering
      dsimp only
      split <;> exact hsettle _
  | conversation s k =>
      obtain ⟨hcontext, hinside, hk⟩ := hf
      exact ⟨hw.contexts, .plain hrest ⟨hcontext, hinside, hk o⟩⟩
  | fetched name isText x =>
      cases hf
      cases o with
      | error f => exact hsettle _
      | ok reply =>
          cases reply with
          | executable e => exact fits_afterFetched hw hrest name isText e
          | _ => exact hsettle _
  | included => cases o <;> exact hsettle _
  | ranOnce => cases o <;> exact hsettle _
  | _ => exact (searches_resume w id rfl o).fits hw.contexts hrest

theorem fits_answer {id : TaskId} {s : Speaker} (hs : s.context = c)
    (hinside : ∀ r, w.registry.Guards s.adapter r → .holding r ∈ rest) {q : Ask} {k : q.Answer → Dialogue Reply}
    (hlocal : (Dialogue.ask q k).Local c) : Fits w.registry c rest (answer w id s q k) := by
  subst hs
  obtain ⟨hq, hk⟩ := hlocal
  have hsay {v : World} (hv : v.Local) {d : Dialogue Reply} (hd : d.Local s.context) :
      Fits w.registry s.context rest (say v s d []) := ⟨hv, .plain hrest ⟨rfl, hinside, hd⟩⟩
  have hmodify (f : Context → Context) (hf : (f (w.context s.context)).Local s.context) :
      (w.modifyContext s.context f).Local := hw.contexts.modifyContext _ hf
  have hframe {k : Outcome → Dialogue Reply} (hk : ∀ o, (k o).Local s.context) :
      (Frame.conversation s k).Fits w.registry s.context rest := ⟨rfl, hinside, hk⟩
  cases q with
  | write stream text =>
      refine hsay (hmodify _ ?_) (hk _ trivial)
      cases stream <;> exact (hw.contexts _).of_eq rfl rfl
  | setVariable name v => exact hsay (hmodify _ ((hw.contexts _).of_eq rfl rfl)) (hk _ trivial)
  | setAttribute name text => exact hsay (hmodify _ ((hw.contexts _).of_eq rfl rfl)) (hk _ trivial)
  | setService name v =>
      refine hsay (hmodify _ ((hw.contexts _).setService fun y hy => ?_)) (hk _ trivial)
      cases hy
      trivial
  | putNote key n => exact hsay (hmodify _ ((hw.contexts _).putNote _ _ hq)) (hk _ trivial)
  | services => exact hsay hw.contexts (hk _ (hw.contexts _).services)
  | notes => exact hsay hw.contexts (hk _ ((hw.contexts _).notes _))
  | call h mode name =>
      have hhandle : h.context = s.context := hq
      have hbelow : StackFits w.registry s.context
          (.conversation s (fun o => k (o.map fun _ => ())) :: rest) := ⟨hframe fun _ => hk _ trivial, hrest⟩
      unfold answer callOther
      dsimp only
      split
      · exact ⟨hw.contexts, .plain hbelow hhandle⟩
      · exact ⟨hw.contexts, .plain hbelow hhandle⟩
      · refine ⟨hw.contexts.modifyContext _ ((hw.contexts _).of_eq ?_ ?_), .plain hbelow trivial⟩
        · rfl
        · rfl
      · exact ⟨hw.contexts, .plain hbelow trivial⟩
  | callOnce h name =>
      have hhandle : h.context = s.context := hq
      have hbelow : StackFits w.registry s.context
          (.conversation s (fun o => k (o.map Reply.isTrue)) :: rest) := ⟨hframe fun _ => hk _ trivial, hrest⟩
      unfold answer callOnce
      dsimp only
      split
      · exact ⟨hw.contexts, .plain hbelow hhandle⟩
      · exact ⟨hw.contexts, .plain hbelow trivial⟩
  | gate name =>
      have hbelow : StackFits w.registry s.context (.conversation s (fun _ => k ()) :: rest) :=
        ⟨hframe fun _ => hk _ trivial, hrest⟩
      unfold answer waitForGate
      dsimp only
      split
      · exact ⟨hw.contexts, .plain hbelow trivial⟩
      · exact ⟨hw.contexts.of_contexts rfl, .plain hbelow trivial⟩
  | pause => exact ⟨hw.contexts, .plain ⟨hframe fun _ => hk _ trivial, hrest⟩ trivial⟩
  | _ => exact hsay hw.contexts (hk _ trivial)

theorem fits_converse {id : TaskId} {s : Speaker} (hs : s.context = c)
    (hinside : ∀ r, w.registry.Guards s.adapter r → .holding r ∈ rest) {d : Dialogue Reply} (hd : d.Local c) :
    Fits w.registry c rest (converse w id s d) := by
  cases d with
  | done r => exact fits_settle hw.contexts hrest _
  | fail f => exact fits_settle hw.contexts hrest _
  | ask q k => exact fits_answer hw hrest hs hinside hd

end execution

end Move

namespace Task.Fits

variable {reg : Registry} {c : ContextId} {w : World} {id : TaskId} {t : Task} {m : Move} {rest : List Frame}

theorem woken (h : t.Fits reg c) : t.woken.Fits reg c := by
  cases h with
  | plain hstack hcontrol => exact .plain hstack trivial
  | outside hstack hcontext hother hlock hcontrol => exact .outside hstack hcontext hother hlock (.inr ⟨_, rfl⟩)

/-- A task that keeps to its context goes on to do so, as long as it is the one that has the locks of its context. -/
theorem advance (h : t.Fits w.registry c) (hw : w.Confined)
    (hown : ∀ r, (w.lock r).isHeldBy c = true ↔ .holding r ∈ t.stack) (ha : t.advance w id = some (m, rest)) :
    Move.Fits w.registry c rest m := by
  cases h with
  | @plain stack control hstack hcontrol =>
      cases control with
      | call asked =>
          cases ha
          exact Move.fits_begin hw hstack hcontrol
      | talking s d =>
          cases ha
          exact Move.fits_converse hw hstack hcontrol.1 hcontrol.2.1 hcontrol.2.2
      | waiting => cases stack <;> cases ha
      | settled o =>
          cases stack with
          | nil => cases ha
          | cons f stack =>
              cases ha
              exact Move.fits_resume hw hstack.2 hstack.1 hown o
  | outside hstack hcontext hother hlock hcontrol =>
      rcases hcontrol with rfl | ⟨o, rfl⟩
      · cases ha
      · cases ha
        exact Move.fits_afterGranted hw hstack hcontext hlock

end Task.Fits

end ScriptedText
