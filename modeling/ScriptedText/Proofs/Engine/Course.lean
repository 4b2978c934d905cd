import ScriptedText.Proofs.Engine.Strides

/-!
Calls that come one after the other, each of which runs alone to its end, and what the host does between them. What every
stride of a call keeps, and everything that the host does, holds whenever no call is under way.
-/

namespace ScriptedText

open Relation

/-- A world, and the call that is under way in it. -/
structure Course where
  world : World
  task? : Option (TaskId × Task) := none

namespace Course

/-- What happens next. Between calls the host does what it may, executables are released, and the clock is set; `proper`
is what the steps of a call are like. -/
inductive Turn (allows : World → Errand → Prop) (proper : World → Task → Prop) : Course → Course → Prop
  | call (w : World) (id : TaskId) (c : Call) : Turn allows proper ⟨w, none⟩ ⟨w, some (id, ⟨[], .call c⟩)⟩
  | step {w : World} {id : TaskId} {t : Task} {m : Move} {rest : List Frame} (hstep : proper w t)
      (ha : t.advance w id = some (m, rest)) :
      Turn allows proper ⟨w, some (id, t)⟩ ⟨m.world, some (id, ⟨m.push ++ rest, m.control⟩)⟩
  | done (w : World) (id : TaskId) (o : Outcome) : Turn allows proper ⟨w, some (id, ⟨[], .settled o⟩)⟩ ⟨w, none⟩
  | serve {w : World} {errand : Errand} (h : allows w errand) : Turn allows proper ⟨w, none⟩ ⟨w.serve errand, none⟩
  | release (w : World) (e : ExecutableId) : Turn allows proper ⟨w, none⟩ ⟨w.release e, none⟩
  | clock (w : World) (now : Int) : Turn allows proper ⟨w, none⟩ ⟨{ w with clock := now }, none⟩

/-- A property of worlds that everything keeps. -/
structure Keeps (allows : World → Errand → Prop) (proper : World → Task → Prop) (I : World → Prop) : Prop where
  stride : ∀ {id w w'}, World.Stride id proper w w' → I w → I w'
  serve : ∀ {w errand}, allows w errand → I w → I (w.serve errand)
  clock : ∀ {w now}, I w → I { w with clock := now }

/-- The property holds now, or it held where the lookup that is under way has begun. -/
def Upholds (I : World → Prop) (a : Course) : Prop :=
  match a.task? with
  | none => I a.world
  | some (id, t) => ∃ w, I w ∧ Task.Amid id w a.world t

variable {allows : World → Errand → Prop} {proper : World → Task → Prop} {I : World → Prop} {a b : Course}

theorem Keeps.strides (h : Keeps allows proper I) {id : TaskId} {w w' : World}
    (hstrides : ReflTransGen (World.Stride id proper) w w') (hw : I w) : I w' := by
  induction hstrides with
  | refl => exact hw
  | tail _ hstride ih => exact h.stride hstride ih

theorem Turn.upholds (h : Turn allows proper a b) (hI : Keeps allows proper I) (ha : a.Upholds I) : b.Upholds I := by
  cases h with
  | call w id c => exact ⟨w, ha, .aside rfl⟩
  | step hstep hadvance =>
      obtain ⟨w₀, hw₀, hamid⟩ := ha
      obtain ⟨w₁, hstrides, hnext⟩ := hamid.step hadvance hstep
      exact ⟨w₁, hI.strides hstrides hw₀, hnext⟩
  | done w id o =>
      obtain ⟨w₀, hw₀, hamid⟩ := ha
      exact hI.strides hamid.strides hw₀
  | serve h => exact hI.serve h ha
  | release w e =>
      have haside : World.Stride ⟨0⟩ proper w (w.release e) := .aside (w.stock_release e)
      exact hI.stride haside ha
  | clock w now => exact hI.clock ha

theorem upholds_of_turns (h : ReflTransGen (Turn allows proper) a b) (hI : Keeps allows proper I) (ha : a.Upholds I) :
    b.Upholds I := by
  induction h with
  | refl => exact ha
  | tail _ hturn ih => exact hturn.upholds hI ih

/-- What everything keeps holds between any two calls. -/
theorem Keeps.holds {w w' : World} (hI : Keeps allows proper I)
    (h : ReflTransGen (Turn allows proper) ⟨w, none⟩ ⟨w', none⟩) (hw : I w) : I w' := upholds_of_turns h hI hw

/-- It also holds inside a call, where the frame that waits has nothing to do with lookups. -/
theorem Keeps.holds_at {w w' : World} {id : TaskId} {f : Frame} {rest : List Frame} {o : Outcome} (hI : Keeps allows proper I)
    (h : ReflTransGen (Turn allows proper) ⟨w, none⟩ ⟨w', some (id, ⟨f :: rest, .settled o⟩)⟩) (hf : f.looksUp = false)
    (hw : I w) : I w' := by
  obtain ⟨w₀, hw₀, hamid⟩ := upholds_of_turns h hI hw
  exact hI.strides (hamid.strides_of_settled fun _ h => Option.some.inj h ▸ hf) hw₀

/-- Goes on with the call that is under way. -/
def next (a : Course) : Course :=
  match a.task? with
  | none => a
  | some (id, t) =>
    match t.advance a.world id with
    | some (m, rest) => ⟨m.world, some (id, ⟨m.push ++ rest, m.control⟩)⟩
    | none => if t.result?.isSome then ⟨a.world, none⟩ else a

theorem turn_next (allows : World → Errand → Prop) {id : TaskId} {t : Task} (htask : a.task? = some (id, t))
    (ha : (t.advance a.world id).isSome = true) : Turn allows (fun _ _ => True) a a.next := by
  obtain ⟨w, task⟩ := a
  cases htask
  obtain ⟨⟨m, rest⟩, ha⟩ := Option.isSome_iff_exists.1 ha
  unfold next
  dsimp only at ha ⊢
  rw [ha]
  exact .step trivial ha

theorem turns_next (allows : World → Errand → Prop) (hproper : ∀ id t, a.task? = some (id, t) → proper a.world t) :
    ReflTransGen (Turn allows proper) a a.next := by
  obtain ⟨w, _ | ⟨id, t⟩⟩ := a
  · exact .refl
  · unfold next
    dsimp only
    split
    · next ha => exact .single (.step (hproper id t rfl) ha)
    · split
      · next h =>
          obtain ⟨stack, control⟩ := t
          cases control with
          | settled o =>
              cases stack with
              | nil => exact .single (.done w id o)
              | cons f rest => cases h
          | _ => cases h
      · exact .refl

/-- Goes on for a number of turns. -/
def proceed : Nat → Course → Course
  | 0, a => a
  | n + 1, a => proceed n a.next

theorem turns_proceed (allows : World → Errand → Prop) (n : Nat) (a : Course) :
    ReflTransGen (Turn allows fun _ _ => True) a (proceed n a) := by
  induction n generalizing a with
  | zero => exact .refl
  | succ n ih => exact (turns_next allows fun _ _ _ => trivial).trans (ih a.next)

end Course

end ScriptedText
