import ScriptedText.Proofs.Engine.Apart
import ScriptedText.Proofs.Engine.Meaning
import ScriptedText.Proofs.Language.Command

/-!
Languages that run one program at a time. At most one call is inside such a language while no two calls in flight
share a context. Two calls of entry points on one context do share it, and are let in beside each other.
-/

namespace ScriptedText

def Frame.isInside (a : AdapterId) : Frame → Bool
  | .conversation s _ => s.adapter = a
  | _ => false

def Control.isInside (a : AdapterId) : Control → Bool
  | .talking s _ => s.adapter = a
  | _ => false

/-- Whether a program or an entry point of the adapter is under way in the task. -/
def Task.isInside (a : AdapterId) (t : Task) : Bool := t.stack.any (Frame.isInside a) || t.control.isInside a

section task

variable {reg : Registry} {c : ContextId} {a : AdapterId} {r : RegistrationId} {stack : List Frame} {t : Task}

theorem StackFits.holding_of_isInside (h : StackFits reg c stack) (hguards : reg.Guards a r)
    (hinside : stack.any (Frame.isInside a) = true) : Frame.holding r ∈ stack := by
  induction stack with
  | nil => cases hinside
  | cons frame stack ih =>
      obtain ⟨hframe, hstack⟩ := h
      rw [List.any_cons, Bool.or_eq_true] at hinside
      rcases hinside with hhere | hbelow
      · cases frame with
        | conversation s k =>
            cases of_decide_eq_true hhere
            exact List.mem_cons_of_mem _ (hframe.2.1 r hguards)
        | _ => cases hhere
      · exact List.mem_cons_of_mem _ (ih hstack hbelow)

/-- Who is inside has the lock. -/
theorem Task.Fits.holding_of_isInside (h : t.Fits reg c) (hguards : reg.Guards a r) (hinside : t.isInside a = true) :
    Frame.holding r ∈ t.stack := by
  unfold Task.isInside at hinside
  rw [Bool.or_eq_true] at hinside
  cases h with
  | @plain stack control hstack hcontrol =>
      rcases hinside with hhere | hcontrol'
      · exact hstack.holding_of_isInside hguards hhere
      · cases control with
        | talking s d =>
            cases of_decide_eq_true hcontrol'
            exact hcontrol.2.1 r hguards
        | _ => cases hcontrol'
  | outside hstack hcontext hother hlock hcontrol =>
      rcases hinside with hhere | hcontrol'
      · exact List.mem_cons_of_mem _ (hstack.holding_of_isInside hguards hhere)
      · rcases hcontrol with rfl | ⟨o, rfl⟩ <;> cases hcontrol'

end task

section enter

variable {w : World} {a : AdapterId} {r : RegistrationId} {e : ExecutableId} {x : ContextId}

/-- The context that a call of an entry point goes to, and a guarded adapter that has entry points. -/
structure World.EntersAt (w : World) (e : ExecutableId) (x : ContextId) (a : AdapterId) : Prop where
  claimed : (w.executable e).claimed = some x
  adapter : (w.context x).adapter = some a
  enters : ((w.adapter? a).bind (·.enter)).isSome = true

theorem Move.enter_eq (h : w.EntersAt e x a) (hguards : w.registry.Guards a r) (id : TaskId) (name : String)
    (args : List Value) :
    enter w id e name args = (lockAndGo w id r (.entry ⟨⟨e, x, a⟩, name, args⟩)).under [.entering name] := by
  obtain ⟨f, hf⟩ := Option.isSome_iff_exists.1 h.enters
  have hsafe : ((w.adapter? a).map (·.threadSafe)).getD true = false := hguards.guarded
  unfold enter
  simp only [h.claimed, h.adapter, hf, hguards.registered, hsafe, Bool.false_eq_true, if_false]

/-- The call is inside at once if its context has the lock already. -/
theorem Move.isInside_enter (h : w.EntersAt e x a) (hguards : w.registry.Guards a r) (id : TaskId) (name : String)
    (args : List Value) :
    (enter w id e name args).wake = [] ∧
      Task.isInside a ⟨(enter w id e name args).push, (enter w id e name args).control⟩ = (w.lock r).isHeldBy x := by
  rw [enter_eq h hguards]
  cases hheld : (w.lock r).isHeldBy x with
  | true =>
      obtain ⟨f, hf⟩ := Option.isSome_iff_exists.1 h.enters
      rw [lockAndGo_of_held hheld, goInside, startEntry, hf]
      simp [say, under, Task.isInside, Control.isInside, Frame.isInside]
  | false =>
      rw [lockAndGo, if_neg (by rw [Inside.context, hheld]; exact Bool.false_ne_true)]
      cases hlocked : (w.lock r).locked with
      | true =>
          rw [Lock.request_of_locked hlocked]
          simp [under, Task.isInside, Control.isInside, Frame.isInside]
      | false =>
          rw [Lock.request_of_free hlocked]
          simp [under, Task.isInside, Control.isInside, Frame.isInside]

end enter

namespace Flight

variable {f₀ f : Flight} {homes : List ContextId} {a : AdapterId} {r : RegistrationId}

def Inside (f : Flight) (id : TaskId) (a : AdapterId) : Prop := ∃ t, f.task? id = some t ∧ t.isInside a = true

def Exclusive (f : Flight) (a : AdapterId) : Prop := ∀ id id', f.Inside id a → f.Inside id' a → id = id'

theorem not_inside_next : ¬ f.Inside f.next a := by
  rintro ⟨t, ht, -⟩
  simp [task?, next] at ht

namespace Apart

/-- Who is inside is the owner of the lock. -/
theorem owner_of_inside (h : Apart f₀ homes f) (hguards : f.world.registry.Guards a r) {id : TaskId} {c : ContextId}
    (hinside : f.Inside id a) (hc : homes[id.index]? = some c) : (f.world.lock r).isHeldBy c = true := by
  obtain ⟨t, ht, hin⟩ := hinside
  have hholding := (h.homed.fits id t c ht hc).holding_of_isInside hguards hin
  exact (h.homed.isHeldBy_iff h.custody ht hc (Task.not_isDone_of_holding hholding) r).2 hholding

theorem exclusive (h : Apart f₀ homes f) (hguards : f.world.registry.Guards a r) : f.Exclusive a := by
  intro id id' ⟨t, ht, hin⟩ ⟨t', ht', hin'⟩
  obtain ⟨c, hc⟩ := h.exists_home ht
  obtain ⟨c', hc'⟩ := h.exists_home ht'
  have hholding := (h.homed.fits id t c ht hc).holding_of_isInside hguards hin
  have hholding' := (h.homed.fits id' t' c' ht' hc').holding_of_isInside hguards hin'
  exact h.custody.holder_unique ht ht' (Task.mem_locks_of_holding hholding) (Task.mem_locks_of_holding hholding')

/-- The call of an entry point goes inside at once where its context has the lock, and else no call does. -/
theorem inside_start_enter {e : ExecutableId} {x : ContextId} (hat : f.world.EntersAt e x a)
    (hguards : f.world.registry.Guards a r) (name : String) (args : List Value) (id : TaskId) :
    (f.start (.enter e name args)).Inside id a ↔
      f.Inside id a ∨ (id = f.next ∧ (f.world.lock r).isHeldBy x = true) := by
  obtain ⟨hwake, hinside⟩ := Move.isInside_enter hat hguards f.next name args
  rw [← hinside]
  unfold Inside
  rw [task?_start (c := .enter e name args) hwake]
  split
  · next hid =>
      subst hid
      constructor
      · rintro ⟨t, ht, hin⟩
        cases ht
        exact .inr ⟨rfl, hin⟩
      · rintro (hin | ⟨-, hin⟩)
        · exact absurd hin not_inside_next
        · exact ⟨_, rfl, hin⟩
  · next hid => simp [hid]

/-- The call of an entry point is beside another one just if a call on its context is inside already. -/
theorem exclusive_start_enter_iff (h : Apart f₀ homes f) {e : ExecutableId} {x : ContextId}
    (hat : f.world.EntersAt e x a) (hguards : f.world.registry.Guards a r) (name : String) (args : List Value) :
    (f.start (.enter e name args)).Exclusive a ↔ ∀ id, homes[id.index]? = some x → ¬ f.Inside id a := by
  have hin (id : TaskId) := inside_start_enter hat hguards name args id
  constructor
  · intro hexclusive id hx hinside
    have hheld := h.owner_of_inside hguards hinside hx
    have hnext : id = f.next := hexclusive id f.next ((hin id).2 (.inl hinside)) ((hin f.next).2 (.inr ⟨rfl, hheld⟩))
    exact not_inside_next (hnext ▸ hinside)
  · intro hnone id id' hid hid'
    -- Whoever is inside has the lock, so with the lock at `x` nobody is.
    have hout (hheld : (f.world.lock r).isHeldBy x = true) (id : TaskId) : ¬ f.Inside id a := by
      intro hinside
      have ⟨t, ht, _⟩ := hinside
      obtain ⟨c, hc⟩ := h.exists_home ht
      have howner := Lock.owner_of_isHeldBy (h.owner_of_inside hguards hinside hc)
      cases howner.symm.trans (Lock.owner_of_isHeldBy hheld)
      exact hnone id hc hinside
    rcases (hin id).1 hid with hold | ⟨hnew, hheld⟩
    · rcases (hin id').1 hid' with hold' | ⟨-, hheld⟩
      · exact h.exclusive hguards id id' hold hold'
      · exact absurd hold (hout hheld id)
    · rcases (hin id').1 hid' with hold' | ⟨hnew', -⟩
      · exact absurd hold' (hout hheld id')
      · exact hnew.trans hnew'.symm

/-- While calls work on contexts of their own, at most one is inside a language that runs one program at a time. The
call of an entry point keeps to this just if no call on its context is inside. -/
theorem one_inside (h : Apart f₀ homes f) (hguards : f.world.registry.Guards a r) :
    f.Exclusive a ∧ ∀ e x, f.world.EntersAt e x a → ∀ name args, (f.start (.enter e name args)).Exclusive a ↔
      ∀ id, homes[id.index]? = some x → ¬ f.Inside id a :=
  ⟨h.exclusive hguards, fun _ _ hat => h.exclusive_start_enter_iff hat hguards⟩

end Apart

end Flight

def guardedWorld : World :=
  { tree := { origin := "" }, registry := .ofAdapters [Command.adapter { extensions := [], threadSafe := false }]
    contexts := [{}] }

def entriesDraft : Draft :=
  { tag := "toy", document := "doc", registered := "doc", text := "<% def f wait g; def h const 1; %>" }

namespace Machine

/-- The document has run, and its executable has claimed the context. -/
def claimed : Machine :=
  (spawn { world := (guardedWorld.compile entriesDraft).1 } (.makeEnterable ⟨⟨0⟩, ⟨0⟩, none, {}⟩)).1.settle 60

/-- A call of the first entry point waits inside. -/
def entered : Machine := (claimed.spawn (.enter ⟨0⟩ "f" [])).1.settle 60

theorem isDone_of_all {m : Machine} (h : m.tasks.all Task.isDone = true) {id : TaskId} {t : Task}
    (ht : m.flight.task? id = some t) : t.isDone = true :=
  List.all_eq_true.1 h t (List.mem_of_getElem? ht)

theorem apart_entered :
    Flight.Apart ⟨(guardedWorld.compile entriesDraft).1, []⟩ [⟨0⟩, ⟨0⟩] entered.flight := by
  have hidle : Flight.Idle ⟨(guardedWorld.compile entriesDraft).1, []⟩ := by
    refine Flight.Idle.looks ?_ (looks_compile guardedWorld entriesDraft)
    refine Flight.idle_of_adapters rfl (fun a ha => ?_) (fun x hx => ?_) rfl rfl
    · cases List.mem_singleton.1 ha
      exact Command.local_adapter _
    · exact List.mem_singleton.1 hx
  have hclaimed : Flight.Apart ⟨(guardedWorld.compile entriesDraft).1, []⟩ [⟨0⟩] claimed.flight :=
    Flight.Apart.spawn (m := { world := (guardedWorld.compile entriesDraft).1 }) (.idle hidle)
      (fun x hx => by cases hx; rfl) (fun id t ht => by cases ht) _
  have hlook : (claimed.world.executable ⟨0⟩).claimed = some ⟨0⟩ ∧ claimed.tasks.all Task.isDone = true := by
    decide +kernel
  refine hclaimed.spawn (fun x hx => ?_) (fun id t ht _ => isDone_of_all hlook.2 ht) _
  exact Option.some.inj ((show _ = some x from hx).symm.trans hlook.1)

/-- The second call of an entry point gets in beside the first. -/
theorem not_exclusive_of_two_entries :
    Flight.Apart ⟨(guardedWorld.compile entriesDraft).1, []⟩ [⟨0⟩, ⟨0⟩] entered.flight ∧
      entered.world.registry.Guards ⟨0⟩ ⟨0⟩ ∧ entered.flight.Exclusive ⟨0⟩ ∧
      ¬ (entered.flight.start (.enter ⟨0⟩ "h" [])).Exclusive ⟨0⟩ := by
  obtain ⟨hregistered, hguarded, hclaimed, hadapter, henters, hinside⟩ :
      entered.world.registry.registrationOf? ⟨0⟩ = some ⟨0⟩ ∧
        ((entered.world.registry.adapter? ⟨0⟩).map (·.threadSafe)).getD true = false ∧
        (entered.world.executable ⟨0⟩).claimed = some ⟨0⟩ ∧ (entered.world.context ⟨0⟩).adapter = some ⟨0⟩ ∧
        ((entered.world.adapter? ⟨0⟩).bind (·.enter)).isSome = true ∧
        (entered.flight.task? ⟨1⟩).map (Task.isInside ⟨0⟩) = some true := by decide +kernel
  have hguards : entered.world.registry.Guards ⟨0⟩ ⟨0⟩ := ⟨hregistered, hguarded⟩
  have hat : entered.world.EntersAt ⟨0⟩ ⟨0⟩ ⟨0⟩ := ⟨hclaimed, hadapter, henters⟩
  obtain ⟨hexclusive, hentries⟩ := apart_entered.one_inside hguards
  refine ⟨apart_entered, hguards, hexclusive, fun h => ?_⟩
  obtain ⟨t, ht, hin⟩ := Option.map_eq_some_iff.1 hinside
  exact (hentries ⟨0⟩ ⟨0⟩ hat "h" []).1 h ⟨1⟩ rfl ⟨t, ht, hin⟩

end Machine

end ScriptedText
