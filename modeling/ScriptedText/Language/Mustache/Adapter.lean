import ScriptedText.Language.Adapter
import ScriptedText.Language.Mustache.Rendering

/-!
The template language. A template is rendered first; the documents to include are included afterwards, where the
rendered text has their slots.
-/

namespace ScriptedText.Mustache

/-- The place of the slot that a text between two marks stands for, if it is a number. -/
def slotNumber? (cs : List Char) : Option Nat := (Number.ofChars cs).int?.bind Int.toNat?

/-- The document of a slot. One that was never reserved includes the document `undefined`. -/
def slotDocument (slots : List String) (cs : List Char) : String :=
  ((slotNumber? cs).bind (slots[·]?)).getD "undefined"

def includeDocument (exposed name : String) : Dialogue Unit := do
  match Service.handle? (← Dialogue.service? exposed) with
  | some h => Dialogue.call h .include name
  | none => Dialogue.problem (.notSupported CallMode.include.name)

/-- Writes rendered text and includes the documents of its slots, in turn. -/
def emit (exposed : String) (slots : List String) : Bool → List (List Char) → Dialogue Unit
  | _, [] => pure ()
  | false, cs :: rest => do
    if !cs.isEmpty then Dialogue.write (String.ofList cs)
    emit exposed slots true rest
  | true, cs :: rest => do
    includeDocument exposed (slotDocument slots cs)
    emit exposed slots false rest

/-- What exactly does not parse is not told. -/
def rejection : Failure := (Problem.programRejected "handlebars" "").failure

def compile (source : String) : Except Failure (List Part) :=
  match template? source with
  | some parts => .ok parts
  | none => .error rejection

def run (source exposed : String) : Dialogue Unit := do
  let parts ← Dialogue.ofExcept (compile source)
  let view : View := ⟨← Dialogue.pose .services, ← Dialogue.pose .bindings⟩
  let (out, slots) ← Dialogue.ofExcept (render view parts)
  emit exposed slots false (Text.splitAt slotMark out)

def forms : SourceForms where
  literal text := "\x7b\x7b\x7b" ++ literalHelper ++ " \"" ++ Text.encode64 text ++ "\"\x7d\x7d\x7d"
  expression e := "\x7b\x7b\x7b" ++ e ++ "\x7d\x7d\x7d"
  inclusion e := "\x7b\x7binclude " ++ e ++ "\x7d\x7d"

def adapter : Adapter where
  info :=
    { name := "Handlebars", version := "0.1.0", languageName := "Handlebars", tags := ["handlebars", "hbs"]
      extensions := ["hbs", "handlebars"], defaultTag := "handlebars", defaultExtension := "hbs" }
  threadSafe := false
  forms := fun _ => forms
  prepare source := do let _ ← compile source
  run := run

end ScriptedText.Mustache
