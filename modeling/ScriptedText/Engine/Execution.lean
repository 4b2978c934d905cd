import ScriptedText.Engine.Task

/-!
Running an executable on a context: hooks around the run, its segments in order, and each program under the lock of
its adapter where that has to be. A run may claim its context, whose entry points can then be called.
-/

namespace ScriptedText.Move

variable (w : World)

def runHook (hook : Hook) (event : Event) (push : List Frame) : Move :=
  match hook with
  | none => pass w push
  | some r => settle (w.emit event) (r.map fun _ => .nothing) push

def execute (run : Run) (options : RunOptions) : Move :=
  let x := w.executable run.executable
  let young := options.unlessCached && w.clock - x.last < x.cacheDuration
  if 0 < x.count && (options.unlessRan || young) then reply w (.flag false)
  else
    let run := if (w.context run.context).immutable then { run with hooks := {} } else run
    runHook (w.emit (.started x.name x.count)) run.hooks.before (.initialized run.context) [.initialized run]

/-- The end of a run, which counts if nothing failed. -/
def close (run : Run) : Except Failure Unit → Move
  | .error f => refuse (w.reportFailure (w.executable run.executable).name f) f
  | .ok _ =>
    let w := w.modifyExecutable run.executable (·.ran w.clock)
    reply (w.emit (.ended (w.executable run.executable).name)) (.flag true)

/-- After the segments, however they ended. -/
def finish (run : Run) (outcome : Except Failure Unit) : Move :=
  runHook w run.hooks.after (.finalized run.context) [.finalized run outcome]

/-- A failure of the hook takes the place of what the run came to. -/
def afterFinalized (run : Run) (outcome : Except Failure Unit) : Outcome → Move
  | .error f => close w run (.error f)
  | .ok _ => close w run outcome

/-- Runs a program; meanwhile its executable's service is found under the exposed name. -/
def startProgram (run : Run) (s : PlacedSegment) (a : AdapterId) : Move :=
  let x := w.executable run.executable
  let c := w.context run.context
  let site := s.site x.name
  match w.adapter? a, s.program with
  | some adapter, some source =>
    let swap := if c.immutable then none else some ⟨x.exposed, c.services.get? x.exposed⟩
    let handle := Service.handle ⟨run.executable, run.context, run.container⟩
    let w := if c.immutable then w else w.modifyContext run.context (·.setService x.exposed (some handle))
    let w := if adapter.observed then w.emit (.ran adapter.info.defaultTag x.name s.line s.column) else w
    say w ⟨run.executable, run.context, a⟩ (do adapter.run source x.exposed; return .nothing)
      [.program run site swap]
  | _, _ => refuse w ((Problem.adapterMissing s.tag).failure [site])

/-- A failure as a fault that has the program's site as its next one. -/
def normalize (site : Site) : Failure → Failure
  | .fault f => .fault (f.within site)
  | .endless => .endless
  | f => (Problem.programFailed f.describe).failure [site]

def afterProgram (run : Run) (site : Site) (swap : Option Swap) (o : Outcome) : Move :=
  let w := match swap with
    | some swap => w.modifyContext run.context (·.setService swap.name swap.previous)
    | none => w
  match o with
  | .error f => refuse w (normalize site f)
  | .ok _ => reply w .nothing

def startEntry (e : Entry) : Move :=
  match (w.adapter? e.speaker.adapter).bind (·.enter) with
  | some enter => say w e.speaker (do return .value (← enter e.name e.args)) []
  | none => refuse w (Problem.entryPointMissing e.name).failure

def goInside : Inside → Move
  | .program run s a => startProgram w run s a
  | .entry e => startEntry w e

/-- Goes inside under a lock. A context that has the lock already need not take it again. -/
def lockAndGo (t : TaskId) (r : RegistrationId) (inside : Inside) : Move :=
  if (w.lock r).isHeldBy inside.context then goInside w inside
  else
    let (l, granted) := (w.lock r).request t
    let w := w.setLock r l
    { world := w, push := [.granted r inside], control := if granted then .settled (.ok .nothing) else .waiting }

def afterGranted (r : RegistrationId) (inside : Inside) : Move :=
  (goInside (w.setLock r ((w.lock r).claim inside.context)) inside).under [.holding r]

def afterHolding (r : RegistrationId) (o : Outcome) : Move :=
  let (l, next) := (w.lock r).leave
  { world := w.setLock r l, control := .settled o, wake := next.toList }

/-- Literal text is written; a program runs in the adapter that its tag has now. -/
def runSegment (t : TaskId) (run : Run) (s : PlacedSegment) : Move :=
  if s.isProgram then
    match w.registry.registration? s.tag, w.registry.forTag? s.tag with
    | some r, some a =>
      let w := w.modifyContext run.context fun c => { c with adapter := some a }
      if ((w.adapter? a).map (·.threadSafe)).getD true then startProgram w run s a
      else lockAndGo w t r (.program run s a)
    | _, _ => refuse w ((Problem.adapterMissing s.tag).failure [s.site (w.executable run.executable).name])
  else reply (w.modifyContext run.context (·.write .out s.text)) .nothing

def runSegments (t : TaskId) (run : Run) : List PlacedSegment → Move
  | [] => finish w run (.ok ())
  | s :: rest => (runSegment w t run s).under [.segment run rest]

/-- Runs the segments, unless the hook before them failed: then the hook after them does not run either. -/
def afterInitialized (t : TaskId) (run : Run) : Outcome → Move
  | .error f => close w run (.error f)
  | .ok _ => runSegments w t run (w.executable run.executable).segments

def afterSegment (t : TaskId) (run : Run) (rest : List PlacedSegment) : Outcome → Move
  | .error f => finish w run (.error f)
  | .ok _ => runSegments w t run rest

def makeEnterable (run : Run) : Move :=
  if (w.executable run.executable).claimed.isSome then reply w (.flag false)
  else call w (.execute run {}) [.claiming run]

/-- Claims the context of the run, unless another was claimed meanwhile. -/
def afterClaiming (run : Run) : Outcome → Move
  | .error f => refuse w f
  | .ok _ =>
    if (w.executable run.executable).claimed.isSome then reply w (.flag false)
    else
      let w := w.modifyContext run.context fun c => { c with immutable := true }
      reply (w.modifyExecutable run.executable (·.claim run.context)) (.flag true)

/-- Calls an entry point through the adapter that ran last in the claimed context. -/
def enter (t : TaskId) (e : ExecutableId) (name : String) (args : List Value) : Move :=
  let x := w.executable e
  match x.claimed with
  | none => refuse w (Problem.notEnterable x.name).failure
  | some c =>
    match (w.context c).adapter with
    | none => refuse w (Problem.entryPointMissing name).failure
    | some a =>
      match (w.adapter? a).bind (·.enter) with
      | none => refuse w (Problem.entryPointMissing name).failure
      | some _ =>
        let entry : Entry := ⟨⟨e, c, a⟩, name, args⟩
        let free := ((w.adapter? a).map (·.threadSafe)).getD true
        let move := match w.registry.registrationOf? a with
          | some r => if free then startEntry w entry else lockAndGo w t r (.entry entry)
          | none => startEntry w entry
        move.under [.entering name]

def afterEntering (name : String) : Outcome → Move
  | .error (.fault f) => refuse w (.fault f)
  | .error .endless => refuse w .endless
  | .error f => refuse w (Problem.entryFailed f.describe name).failure
  | .ok r => reply w r

end ScriptedText.Move

namespace ScriptedText.World

/-- Gives up the claimed context and what the adapter that ran last in it keeps for it. -/
def release (w : World) (e : ExecutableId) : World :=
  match (w.executable e).claimed with
  | none => w
  | some c =>
    let w := w.modifyExecutable e Executable.unclaim
    let w := w.modifyContext c fun x => { x with immutable := false }
    match (w.context c).adapter.bind fun a => (w.adapter? a).map fun adapter => (a, adapter) with
    | none => w
    | some (a, adapter) =>
      if adapter.releases then
        let w := w.modifyContext c fun x => { x with notes := x.notes.erase a }
        if adapter.observed then w.emit (.released adapter.info.defaultTag c) else w
      else w

end ScriptedText.World
