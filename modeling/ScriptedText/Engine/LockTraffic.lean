import ScriptedText.Engine.Lock

/-!
Traffic at one lock: holders, who release it by hand, and bodies, which run for an owner and release it when they
end. A lock that is handed over is on its way for a while: it is taken then, but its new holder is not inside yet.
-/

namespace ScriptedText

inductive Party
  | holder (id : String)
  | body (id owner : String)
  deriving DecidableEq, Repr

inductive Notice
  | acquired (id : String)
  | entered (id : String)
  | done (id value : String)
  | failed (id message : String)
  | notRunning (id : String)
  deriving DecidableEq, Repr

def Notice.text : Notice → String
  | .acquired id => "acquired " ++ id
  | .entered id => "enter " ++ id
  | .done id value => "done " ++ id ++ " " ++ value
  | .failed id message => "failed " ++ id ++ " " ++ message
  | .notRunning id => "not running " ++ id

/-- A body that came inside for its owner, and whether it took the lock or the owner had it. -/
structure Body where
  id : String
  owner : String
  tookLock : Bool
  isRunning : Bool := true
  deriving DecidableEq, Repr

def Body.stop (b : Body) : Body := { b with isRunning := false }

structure LockTraffic where
  lock : Lock String Party := {}
  /-- Those to whom the lock was handed and who are not inside yet. -/
  arriving : List Party := []
  /-- Bodies that came inside, the last one first. -/
  bodies : List Body := []

namespace LockTraffic

variable (t : LockTraffic)

def request (p : Party) : LockTraffic :=
  let (lock, granted) := t.lock.request p
  { t with lock, arriving := if granted then t.arriving ++ [p] else t.arriving }

def handOver : Lock String Party × Option Party → LockTraffic
  | (lock, next) => { t with lock, arriving := t.arriving ++ next.toList }

def acquire (id : String) : LockTraffic × List Notice := (t.request (.holder id), [])

def release : LockTraffic × List Notice := (t.handOver t.lock.release, [])

/-- Starts a body. The owner's own bodies come in at once. -/
def start (id owner : String) : LockTraffic × List Notice :=
  if t.lock.isHeldBy owner then ({ t with bodies := ⟨id, owner, false, true⟩ :: t.bodies }, [.entered id])
  else (t.request (.body id owner), [])

/-- Lets the body end that came inside last under an id, with a message of failure or with a value. -/
def finish (id : String) (result : Except String String) : LockTraffic × List Notice :=
  match t.bodies.find? (·.id = id) with
  | none => (t, [.notRunning id])
  | some b =>
    if b.isRunning then
      let t := { t with bodies := t.bodies.modify (t.bodies.findIdx (·.id = id)) Body.stop }
      let t := if b.tookLock then t.handOver t.lock.leave else t
      (t, [match result with | .ok value => .done id value | .error message => .failed id message])
    else (t, [])

/-- The first of those on their way goes inside. -/
def arrive : Option (LockTraffic × Notice) :=
  match t.arriving with
  | [] => none
  | .holder id :: rest => some ({ t with arriving := rest }, .acquired id)
  | .body id owner :: rest =>
    some ({ t with arriving := rest, lock := t.lock.claim owner, bodies := ⟨id, owner, true, true⟩ :: t.bodies },
      .entered id)

/-- Lets all go inside who are on their way. -/
def arriveAll : LockTraffic × List Notice :=
  t.arriving.foldl (fun (t, notices) _ =>
    match t.arrive with
    | some (t, notice) => (t, notices ++ [notice])
    | none => (t, notices)) (t, [])

end LockTraffic

end ScriptedText
