import ScriptedText.Engine.Task

/-!
The engine's side of a dialogue: what it does and answers for each thing that a program asks.
-/

namespace ScriptedText.Move

variable (w : World) (t : TaskId) (s : Speaker)

/-- Runs another document. Without a container nothing can be run, and a bare one only includes. -/
def callOther (h : Handle) (mode : CallMode) (name : String) (push : List Frame) : Move :=
  match h.container, mode with
  | some .host, .include => call w (.include name h.context) push
  | some .host, .execute => call w (.runSource name h.context) push
  | some .bare, .include =>
    pass (w.modifyContext h.context (·.write .out ("<" ++ name ++ ">"))) push
  | _, _ => settle w (.error (Problem.notSupported mode.name).failure) push

def callOnce (h : Handle) (name : String) (push : List Frame) : Move :=
  match h.container with
  | some .host => call w (.runOnce name h.context) push
  | _ => settle w (.error (Problem.notSupported "executeOnce").failure) push

def waitForGate (gate : String) (push : List Frame) : Move :=
  if w.openGates.contains gate then pass w push
  else { world := { w with waiters := w.waiters ++ [(gate, t)] }, push, control := .waiting }

def answer : (q : Ask) → (q.Answer → Dialogue Reply) → Move
  | .write stream text, k => say (w.modifyContext s.context (·.write stream text)) s (k ()) []
  | .bindings, k => say w s (k (w.context s.context).bindings.entries) []
  | .setVariable name v, k =>
    say (w.modifyContext s.context fun c => { c with bindings := c.bindings.insert name v }) s (k ()) []
  | .attribute name, k => say w s (k (((w.context s.context).attributes.get? name).map Attribute.display)) []
  | .setAttribute name text, k =>
    say (w.modifyContext s.context fun c => { c with attributes := c.attributes.insert name (.text text) }) s
      (k ()) []
  | .services, k => say w s (k (w.context s.context).services.entries) []
  | .setService name v, k =>
    say (w.modifyContext s.context (·.setService name (some (.value v)))) s (k ()) []
  | .documentName h, k => say w s (k (w.executable h.executable).name) []
  | .runs, k => say w s (k (w.executable s.executable).count) []
  | .notes, k => say w s (k ((w.context s.context).notesOf s.adapter).entries) []
  | .putNote key n, k => say (w.modifyContext s.context (·.putNote s.adapter key n)) s (k ()) []
  | .call h mode name, k => callOther w h mode name [.conversation s fun o => k (o.map fun _ => ())]
  | .callOnce h name, k => callOnce w h name [.conversation s fun o => k (o.map Reply.isTrue)]
  | .gate name, k => waitForGate w t name [.conversation s fun _ => k ()]
  | .pause, k => pass w [.conversation s fun _ => k ()]

def converse : Dialogue Reply → Move
  | .done r => reply w r
  | .fail f => refuse w f
  | .ask q k => answer w t s q k

end ScriptedText.Move
