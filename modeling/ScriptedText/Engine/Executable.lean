import ScriptedText.Document.Delimiters
import ScriptedText.Document.Segment
import ScriptedText.Ids

/-!
A compiled document and where it stands between its runs.
-/

namespace ScriptedText

inductive ExecutableState
  | constructed
  | executed
  | enterable
  | released
  deriving DecidableEq, Repr

def ExecutableState.name : ExecutableState → String
  | .constructed => "constructed"
  | .executed => "executed"
  | .enterable => "enterable"
  | .released => "released"

structure Executable where
  name : String
  /-- The name in its source, where that differs from its own. -/
  registered : String
  /-- The identifier of its source. -/
  partition : String
  timestamp : Int
  /-- The name under which its programs find its service. -/
  exposed : String
  delimiters : Delimiters
  segments : List PlacedSegment
  /-- Documents that it was made from. -/
  dependencies : List String
  claimed : Option ContextId := none
  state : ExecutableState := .constructed
  /-- Runs that came to their end. -/
  count : Nat := 0
  /-- When the last of these ended. -/
  last : Int := 0
  cacheDuration : Int := 0
  deriving Inhabited

namespace Executable

/-- Until when output may be kept, or zero. -/
def expiration (x : Executable) : Int := if x.cacheDuration > 0 then x.last + x.cacheDuration else 0

/-- The text of a document without any program. -/
def pureText? (x : Executable) : Option String :=
  match x.segments with
  | [s] => if s.isProgram then none else some s.text
  | _ => none

/-- The state after one more run that ended at `now`. -/
def ran (x : Executable) (now : Int) : Executable :=
  { x with
    last := now
    count := x.count + 1
    state := if x.state = .constructed then .executed else x.state }

def claim (x : Executable) (c : ContextId) : Executable := { x with claimed := some c, state := .enterable }

def unclaim (x : Executable) : Executable := { x with claimed := none, state := .released }

end Executable

end ScriptedText
