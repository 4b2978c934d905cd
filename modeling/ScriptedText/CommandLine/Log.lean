import ScriptedText.Engine.World

/-!
Lines about events, for those who want to follow what is going on. Times are given to a tenth of a millisecond.
-/

namespace ScriptedText.CommandLine

inductive LogEntry
  | compiled (document : String) (segments time : Number)
  | started (document : String) (runs : Number)
  | ended (document : String) (time : Number)
  | failed (document message : String)
  | evicted (document reason : String)

def LogEntry.text : LogEntry → String
  | .compiled document segments time =>
    "compiled " ++ document ++ " (" ++ segments.text ++ " segments, " ++ time.toTenth ++ "ms)"
  | .started document runs => "executing " ++ document ++ " (run " ++ (runs.add (.ofInt 1)).text ++ ")"
  | .ended document time => "executed " ++ document ++ " in " ++ time.toTenth ++ "ms"
  | .failed document message => "error in " ++ document ++ ": " ++ message
  | .evicted document reason => "evicted " ++ document ++ " (" ++ reason ++ ")"

def LogEntry.line (e : LogEntry) : String := "[weft] " ++ e.text

/-- The entry of an event, which took no time. Events inside adapters and hooks have none. -/
def LogEntry.ofEvent? : Event → Option LogEntry
  | .compiled document segments => some (.compiled document (.ofInt segments) .zero)
  | .started document runs => some (.started document (.ofInt runs))
  | .ended document => some (.ended document .zero)
  | .failed document message => some (.failed document message)
  | .evicted document reason => some (.evicted document reason.name)
  | _ => none

end ScriptedText.CommandLine
