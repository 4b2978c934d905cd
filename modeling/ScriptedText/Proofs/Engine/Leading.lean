import ScriptedText.Proofs.Engine.Reentry

/-!
Dialogues that lead to a value, whatever they go on with.
-/

namespace ScriptedText.Dialogue

variable {α β : Type} {sp : Speaker} {w w₁ w₂ : World} {a : α} {b : β} {d : Dialogue α} {f : α → Dialogue β}

/-- From the world the dialogue leads to a value in another world. -/
def LeadsTo (sp : Speaker) (w : World) (d : Dialogue α) (a : α) (w₁ : World) : Prop :=
  ∀ id (k : α → Dialogue Reply) w' o, (d.bind k).Ends id w sp w' o ↔ (k a).Ends id w₁ sp w' o

theorem leadsTo_pure (sp : Speaker) (w : World) (a : α) : LeadsTo sp w (pure a) a w := fun _ _ _ _ => Iff.rfl

theorem LeadsTo.bind (h : LeadsTo sp w d a w₁) (h' : LeadsTo sp w₁ (f a) b w₂) : LeadsTo sp w (d >>= f) b w₂ := by
  intro id k w' o
  change ((d.bind f).bind k).Ends id w sp w' o ↔ _
  rw [bind_assoc, h, h']

theorem LeadsTo.says_iff {id : TaskId} {w' : World} {o : Outcome} {d : Dialogue Unit} (h : LeadsTo sp w d () w₁) :
    d.Says id w sp w' o ↔ w' = w₁ ∧ o = .ok .nothing :=
  (h id (fun _ => .done .nothing) w' o).trans ends_done

theorem leadsTo_services : LeadsTo sp w (pose .services) (w.context sp.context).services.entries w := by
  intro id k w' o
  change (Dialogue.ask .services k).Ends id w sp w' o ↔ _
  rw [ends_converse]
  rfl

theorem leadsTo_bindings : LeadsTo sp w (pose .bindings) (w.context sp.context).bindings.entries w := by
  intro id k w' o
  change (Dialogue.ask .bindings k).Ends id w sp w' o ↔ _
  rw [ends_converse]
  rfl

theorem leadsTo_notes : LeadsTo sp w (pose .notes) ((w.context sp.context).notesOf sp.adapter).entries w := by
  intro id k w' o
  change (Dialogue.ask .notes k).Ends id w sp w' o ↔ _
  rw [ends_converse]
  rfl

theorem leadsTo_putNote (key : NoteKey) (n : Note) :
    LeadsTo sp w (putNote key n) () (w.modifyContext sp.context (·.putNote sp.adapter key n)) := by
  intro id k w' o
  change (Dialogue.ask (.putNote key n) k).Ends id w sp w' o ↔ _
  rw [ends_converse]
  rfl

theorem leadsTo_write (text : String) :
    LeadsTo sp w (write text) () (w.modifyContext sp.context (·.write .out text)) := by
  intro id k w' o
  change (Dialogue.ask (.write .out text) k).Ends id w sp w' o ↔ _
  rw [ends_converse]
  rfl

theorem leadsTo_note? (key : NoteKey) :
    LeadsTo sp w (note? key) (((w.context sp.context).notesOf sp.adapter).get? key) w :=
  leadsTo_notes.bind (leadsTo_pure sp w _)

theorem leadsTo_service? (name : String) : LeadsTo sp w (service? name) ((w.context sp.context).services.get? name) w :=
  leadsTo_services.bind (leadsTo_pure sp w _)

end ScriptedText.Dialogue
