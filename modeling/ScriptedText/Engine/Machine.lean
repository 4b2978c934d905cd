import ScriptedText.Engine.Conversation
import ScriptedText.Engine.Execution
import ScriptedText.Engine.Hosting
import ScriptedText.Engine.Retrieval
import ScriptedText.Engine.Validity

/-!
Tasks that share a world. The task in front runs until it has to wait; where it only waits for a reply that is
there, it goes to the end of the queue.
-/

namespace ScriptedText

namespace Move

/-- The first step of a call. -/
def begin (w : World) (t : TaskId) : Call → Move
  | .execute run options => execute w run options
  | .makeEnterable run => makeEnterable w run
  | .enter e name args => enter w t e name args
  | .isValid d visited => isValid w d visited
  | .getDocument s name => getDocument w s name
  | .getDocuments s => getDocuments w s
  | .createOnce s name isText compilation =>
    call w (.getDocument s name) [.creating s name isText compilation]
  | .getExecutable name isText => getExecutable w name isText
  | .include name c => fetch w name true c
  | .runSource name c => fetch w name false c
  | .runOnce name c => runOnce w name c

/-- The step of a frame that gets its reply. A failure that a frame does not deal with goes on down the stack. -/
def resume (w : World) (t : TaskId) (f : Frame) (o : Outcome) : Move :=
  match f, o with
  | .initialized run, o => afterInitialized w t run o
  | .segment run rest, o => afterSegment w t run rest o
  | .finalized run outcome, o => afterFinalized w run outcome o
  | .program run site swap, o => afterProgram w run site swap o
  | .granted r inside, _ => afterGranted w r inside
  | .holding r, o => afterHolding w r o
  | .claiming run, o => afterClaiming w run o
  | .entering name, o => afterEntering w name o
  | .conversation s k, o => say w s (k o) []
  | .searching libraries name isText compilation, o => afterSearching w libraries name isText compilation o
  | .dependency d i, .ok (.validity valid visited) => afterDependency w d i valid visited
  | .fileTime d visited, .ok _ => afterFileTime w d visited
  | .named s name d, .ok (.validity valid _) => afterNamed w s name d valid
  | .resolving s name, .ok _ => afterResolving w s name
  | .filed s name file d, .ok (.validity valid _) => afterFiled w s name file d valid
  | .reading s name file, .ok _ => afterReading w s name file
  | .listing s, .ok _ => afterListing w s
  | .collecting s names found, .ok (.document d) => collect w s names (found ++ [d])
  | .creating s name isText compilation, .ok (.document d) => afterCreating w s name d isText compilation
  | .fetched name isText c, .ok (.executable e) => afterFetched w name isText c e
  | .included, .ok _ => reply w .nothing
  | .ranOnce, .ok _ => reply w (.flag true)
  | _, o => settle w o

end Move

namespace Task

/-- The next step of a task and the frames below it, unless the task waits or is finished. -/
def advance (w : World) (id : TaskId) (t : Task) : Option (Move × List Frame) :=
  match t.control, t.stack with
  | .call c, stack => some (Move.begin w id c, stack)
  | .talking s d, stack => some (Move.converse w id s d, stack)
  | .settled o, f :: stack => some (Move.resume w id f o, stack)
  | .settled _, [] | .waiting, _ => none

def result? (t : Task) : Option Outcome :=
  match t.control, t.stack with
  | .settled o, [] => some o
  | _, _ => none

/-- Whether others may go on before the task does. -/
def yields (t : Task) : Bool :=
  match t.control with
  | .settled _ => true
  | _ => false

/-- The task goes on with nothing in particular. -/
def woken (t : Task) : Task := { t with control := .settled (.ok .nothing) }

end Task

structure Machine where
  world : World
  tasks : List Task := []
  /-- Tasks that can go on. The one in front is running. -/
  ready : List TaskId := []

namespace Machine

def task? (m : Machine) (t : TaskId) : Option Task := m.tasks[t.index]?

def result? (m : Machine) (t : TaskId) : Option Outcome := (m.task? t).bind Task.result?

/-- Starts a task, in front of all others. -/
def spawn (m : Machine) (c : Call) : Machine × TaskId :=
  let id : TaskId := ⟨m.tasks.length⟩
  ({ m with tasks := m.tasks ++ [{ control := .call c }], ready := id :: m.ready }, id)

def wake (m : Machine) (ids : List TaskId) : Machine :=
  { m with
    tasks := ids.foldl (fun tasks id => tasks.modify id.index Task.woken) m.tasks
    ready := m.ready ++ ids }

/-- Takes the running task one step further. -/
def step (m : Machine) : Option Machine :=
  match m.ready with
  | [] => none
  | id :: rest =>
    match (m.task? id).bind (Task.advance m.world id) with
    | none => some { m with ready := rest }
    | some (move, stack) =>
      let t : Task := { stack := move.push ++ stack, control := move.control }
      let m := { m with world := move.world, tasks := m.tasks.set id.index t }
      if t.yields then
        let m := { m with ready := rest }.wake move.wake
        some { m with ready := m.ready ++ [id] }
      else some ({ m with ready := id :: rest }.wake move.wake)

/-- Steps until no task can go on, at most `fuel` times. -/
def settle : Nat → Machine → Machine
  | 0, m => m
  | fuel + 1, m =>
    match m.step with
    | none => m
    | some m => settle fuel m

/-- Steps after which tasks that still run are taken to be endless. -/
def stepLimit : Nat := 100000000

/-- Opens a gate for good, and lets those go on that wait for it. -/
def openGate (m : Machine) (gate : String) : Machine :=
  let ids := (m.world.waiters.filter (·.1 = gate)).map Prod.snd
  let world := { m.world with
    openGates := gate :: m.world.openGates, waiters := m.world.waiters.filter (·.1 ≠ gate) }
  { m with world }.wake ids

/-- Runs a call, and everything else that can go on, to the end. -/
def run (m : Machine) (c : Call) : Machine × Outcome :=
  let (m, id) := m.spawn c
  let m := m.settle stepLimit
  (m, (m.result? id).getD (.error .endless))

end Machine

end ScriptedText
