import ScriptedText.Language.Command.Adapter
import ScriptedText.Proofs.Engine.Confinement

/-!
Programs of the command language keep to their context: the only handle that they use is the service that they find
under the exposed name, and they keep none.
-/

namespace ScriptedText

variable {α β : Type} {c : ContextId} {P : α → Prop} {Q : β → Prop}

/-- A program that keeps to the context, and whose results are of a kind. -/
def Dialogue.LocalWith (c : ContextId) (P : α → Prop) : Dialogue α → Prop
  | .done a => P a
  | .fail _ => True
  | .ask q k => q.Local c ∧ ∀ r, q.Answers c r → (k r).LocalWith c P

namespace Dialogue

theorem localWith_bind {d : Dialogue α} {f : α → Dialogue β} (hd : d.LocalWith c P)
    (hf : ∀ a, P a → (f a).LocalWith c Q) : (d.bind f).LocalWith c Q := by
  induction d with
  | done a => exact hf a hd
  | fail e => trivial
  | ask q k ih => exact ⟨hd.1, fun r hr => ih r (hd.2 r hr)⟩

theorem LocalWith.local {d : Dialogue α} (h : d.LocalWith c P) : d.Local c := by
  induction d with
  | done a => trivial
  | fail e => trivial
  | ask q k ih => exact ⟨h.1, fun r hr => ih r (h.2 r hr)⟩

theorem Local.localWith {d : Dialogue α} (h : d.Local c) : d.LocalWith c fun _ => True := by
  induction d with
  | done a => trivial
  | fail e => trivial
  | ask q k ih => exact ⟨h.1, fun r hr => ih r (h.2 r hr)⟩

theorem local_bind_of_localWith {d : Dialogue α} {f : α → Dialogue β} (hd : d.LocalWith c P)
    (hf : ∀ a, P a → (f a).Local c) : (d.bind f).Local c :=
  (localWith_bind hd fun a ha => (hf a ha).localWith).local

theorem local_pose {q : Ask} (hq : q.Local c) : (pose q).Local c := ⟨hq, fun _ _ => trivial⟩

theorem local_write (text : String) : (write text).Local c := local_pose trivial

theorem local_ofExcept (x : Except Failure α) : (ofExcept x).Local c := by
  cases x <;> trivial

theorem localWith_service? (name : String) : (service? name).LocalWith c fun s => ∀ x ∈ s, x.Local c :=
  ⟨trivial, fun _ hr _ hx => hr _ (OrderedMap.mem_of_lookup hx)⟩

theorem local_call {h : Handle} (hh : h.context = c) (mode : CallMode) (name : String) : (call h mode name).Local c :=
  ⟨hh, fun r _ => local_ofExcept r⟩

theorem local_callOnce {h : Handle} (hh : h.context = c) (name : String) : (callOnce h name).Local c :=
  ⟨hh, fun r _ => local_ofExcept r⟩

end Dialogue

namespace Command

open Dialogue

theorem local_valueOf (t : Token) : (valueOf t).Local c := by
  unfold valueOf
  split
  · trivial
  · split
    · exact ⟨trivial, fun _ _ => trivial⟩
    · trivial
    · trivial

theorem local_operand (s : Statement) (i : Nat) : (operand s i).Local c := by
  unfold operand
  split
  · exact local_valueOf _
  · trivial

theorem localWith_handle (exposed : String) : (handle exposed).LocalWith c fun h => h.context = c := by
  refine localWith_bind (localWith_service? exposed) fun s hs => ?_
  cases s with
  | none => trivial
  | some s =>
      cases s with
      | value v => trivial
      | handle h => exact hs _ rfl

theorem local_printAll (ts : List Token) : (printAll ts).Local c := by
  induction ts with
  | nil => trivial
  | cons t ts ih => exact local_bind (local_valueOf t) fun _ => local_bind (local_write _) fun _ => ih

theorem local_showService (name : String) : (showService name).Local c := by
  refine local_bind (localWith_service? name).local fun s => ?_
  split
  · exact local_bind (local_pose trivial) fun _ => local_write _
  · exact local_write _
  · exact local_write _

theorem local_runOnce (exposed name : String) : (runOnce exposed name).Local c := by
  refine local_bind_of_localWith (localWith_handle exposed) fun h hh => ?_
  split
  · exact local_bind (local_callOnce hh name) fun _ => local_write _
  · trivial

theorem local_runStatement (exposed : String) (s : Statement) : (runStatement exposed s).Local c := by
  have hfirst {α : Type} {f : String → Dialogue α} (hf : ∀ a, (f a).Local c) : ((operand s 0).bind f).Local c :=
    local_bind (local_operand s 0) hf
  have hcall (mode : CallMode) (name : String) :
      ((handle exposed).bind fun h => call h mode name).Local c :=
    local_bind_of_localWith (localWith_handle exposed) fun h hh => local_call hh mode name
  unfold runStatement
  split
  · trivial
  · split
    · trivial
    · trivial
    · exact local_printAll _
    · exact hfirst fun _ => local_pose trivial
    · exact hfirst fun _ => local_bind (local_operand s 1) fun _ => local_pose trivial
    · exact hfirst fun _ => local_bind (local_operand s 1) fun _ => local_pose trivial
    · exact hfirst fun _ => local_bind (local_pose trivial) fun _ => local_write _
    · exact hfirst fun _ => local_bind (local_operand s 1) fun _ => local_pose trivial
    · exact hfirst local_showService
    · exact local_bind (local_pose trivial) fun _ => local_write _
    · exact hfirst (hcall .include)
    · exact hfirst (hcall .execute)
    · exact hfirst (local_runOnce exposed)
    · exact hfirst fun _ => local_pose trivial
    · exact hfirst fun _ => local_bind (local_operand s 2) fun _ => local_bind (local_operand s 1) fun _ => local_pose trivial
    · exact hfirst fun _ => trivial
    · exact hfirst fun _ => trivial
    · exact hfirst fun _ => trivial
    · trivial
    · exact hfirst fun _ => trivial
    · exact hfirst fun _ => trivial
    · trivial

theorem local_runAll (exposed : String) (list : List Statement) : (runAll exposed list).Local c := by
  induction list with
  | nil => trivial
  | cons s list ih =>
      exact local_bind (local_runStatement exposed s) fun _ => local_bind (local_pose trivial) fun _ => ih

theorem local_run (tag source exposed : String) : (run tag source exposed).Local c :=
  local_bind (local_ofExcept _) fun list => local_runAll exposed list

theorem local_enter (name : String) (args : List Value) : (enter name args).Local c := by
  refine local_bind (local_bind (local_pose trivial) fun _ => trivial) fun note => ?_
  split
  · split
    · trivial
    · trivial
    · exact local_bind (local_write _) fun _ => trivial
    · trivial
    · trivial
    · exact local_bind (local_pose trivial) fun _ => trivial
    · trivial
  · trivial

theorem local_adapter (o : Options) : (adapter o).Local where
  run source exposed _ := local_run _ source exposed
  enter f hf name args _ := by
    unfold adapter at hf
    dsimp only at hf
    split at hf
    · cases hf
      exact local_enter name args
    · cases hf

end Command

end ScriptedText
