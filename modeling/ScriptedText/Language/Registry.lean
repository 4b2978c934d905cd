import ScriptedText.Language.Adapter
import ScriptedText.OrderedMap
import ScriptedText.Text.LowerCase

/-!
Adapters by tag and by file extension. Each registration brings a lock of its own; a later one takes over the
tags and extensions that it shares with earlier ones.
-/

namespace ScriptedText

structure Registry where
  /-- The adapters known so far, by number, registered or not. -/
  adapters : List Adapter := []
  /-- The adapter of each registration, by number. -/
  registrations : List AdapterId := []
  byTag : OrderedMap String RegistrationId := ∅
  byExtension : OrderedMap String RegistrationId := ∅
  byAdapter : OrderedMap AdapterId RegistrationId := ∅

namespace Registry

/-- Extensions are compared without a leading dot and without regard to case. -/
def normalizeExtension (extension : String) : String :=
  match extension.toList with
  | '.' :: rest => Text.lower (String.ofList rest)
  | _ => Text.lower extension

def adapter? (r : Registry) (a : AdapterId) : Option Adapter := r.adapters[a.index]?

def add (r : Registry) (a : Adapter) : Registry × AdapterId :=
  ({ r with adapters := r.adapters ++ [a] }, ⟨r.adapters.length⟩)

def register (r : Registry) (a : AdapterId) : Registry :=
  match r.adapter? a with
  | none => r
  | some adapter =>
    let entry : RegistrationId := ⟨r.registrations.length⟩
    { r with
      registrations := r.registrations ++ [a]
      byAdapter := r.byAdapter.insert a entry
      byTag := adapter.info.tags.foldl (fun m t => m.insert t entry) r.byTag
      byExtension := adapter.info.extensions.foldl (fun m e => m.insert (normalizeExtension e) entry)
        r.byExtension }

def ofAdapters (adapters : List Adapter) : Registry :=
  adapters.foldl (fun r a => let (r, id) := r.add a; r.register id) {}

def registration? (r : Registry) (tag : String) : Option RegistrationId := r.byTag.get? tag

def registrationOf? (r : Registry) (a : AdapterId) : Option RegistrationId := r.byAdapter.get? a

/-- The adapter of a registration. -/
def owner? (r : Registry) (e : RegistrationId) : Option AdapterId := r.registrations[e.index]?

def forTag? (r : Registry) (tag : String) : Option AdapterId := (r.registration? tag).bind r.owner?

def adapterForTag? (r : Registry) (tag : String) : Option Adapter := (r.forTag? tag).bind r.adapter?

def forExtension? (r : Registry) (extension : String) : Option AdapterId :=
  (r.byExtension.get? (normalizeExtension extension)).bind r.owner?

/-- The default tag of the adapter that a file extension belongs to. -/
def tagOfExtension? (r : Registry) (extension : String) : Option String :=
  ((r.forExtension? extension).bind r.adapter?).map (·.info.defaultTag)

/-- Registered adapters in order of their first registration. -/
def registered (r : Registry) : List AdapterId := r.byAdapter.keys

/-- The forms that each tag's language gives to shorthands. -/
def forms (r : Registry) (exposed : String) : FormTable := fun tag =>
  (r.adapterForTag? tag).map (·.forms exposed)

end Registry

end ScriptedText
