import ScriptedText.Proofs.Engine.Evaluation
import ScriptedText.Proofs.Engine.Step
import ScriptedText.Proofs.OrderedMap

/-!
Locks along a task: it holds those whose frames are on its stack, and a task that comes to its end has given back
what it took.
-/

namespace ScriptedText

variable {id : TaskId} {w w' w₁ w₂ : World} {t : Task} {r : RegistrationId}

def Frame.lock? : Frame → Option RegistrationId
  | .granted r _ | .holding r => some r
  | _ => none

/-- The locks that a stack of frames stands for. -/
def heldLocks (stack : List Frame) : List RegistrationId := stack.filterMap Frame.lock?

theorem heldLocks_append (stack base : List Frame) :
    heldLocks (stack ++ base) = heldLocks stack ++ heldLocks base := List.filterMap_append

theorem heldLocks_eq_nil {stack : List Frame} (h : stack.all Frame.isPlain) : heldLocks stack = [] := by
  unfold heldLocks
  rw [List.filterMap_eq_nil_iff]
  intro f hf
  have hplain := List.all_eq_true.1 h f hf
  cases f <;> first | rfl | cases hplain

/-- Nobody waits for a lock that is free. -/
def World.LocksRest (w : World) : Prop := ∀ r, (w.lock r).locked = false → (w.lock r).queue = []

theorem World.lock_setLock (w : World) (r : RegistrationId) (l : Lock ContextId TaskId) (r' : RegistrationId) :
    (w.setLock r l).lock r' = if r' = r then l else w.lock r' := by
  unfold setLock lock
  rw [OrderedMap.get?_insert]
  split <;> rfl

/-- What a lock keeps while it is set every lock keeps. -/
theorem World.lock_setLock_keeps {α : Type} (part : Lock ContextId TaskId → α) {l : Lock ContextId TaskId}
    (h : part l = part (w.lock r)) (r' : RegistrationId) : part ((w.setLock r l).lock r') = part (w.lock r') := by
  rw [lock_setLock]
  split
  · next hr => rw [hr, h]
  · rfl

theorem World.lock_eq_of_locks (h : w'.locks = w.locks) (r : RegistrationId) : w'.lock r = w.lock r := by
  unfold lock
  rw [h]

theorem World.Evolves.lock_eq (h : World.Evolves w w') (r : RegistrationId) : w'.lock r = w.lock r :=
  lock_eq_of_locks h.locks_eq r

namespace World.LocksRest

theorem congr (h : w.LocksRest) (hl : ∀ r, w₁.lock r = w.lock r) : w₁.LocksRest := by
  intro r hr
  rw [hl] at hr ⊢
  exact h r hr

theorem setLock {l : Lock ContextId TaskId} (h : w.LocksRest) (hl : l.locked = false → l.queue = []) :
    (w.setLock r l).LocksRest := by
  intro r' hr'
  rw [lock_setLock] at hr' ⊢
  by_cases he : r' = r
  · rw [if_pos he] at hr' ⊢
    exact hl hr'
  · rw [if_neg he] at hr' ⊢
    exact h r' hr'

end World.LocksRest

/-- A task that neither claims a context nor calls an entry point, and will not. -/
structure Task.Plain (t : Task) : Prop where
  stack : ∀ run, Frame.claiming run ∉ t.stack
  control : t.control.isPlain

/-- What a step does to the world and to the locks that the task holds. -/
inductive Locking : World → List RegistrationId → World → List RegistrationId → Prop
  | quiet {w w' : World} {rs : List RegistrationId} (h : World.Evolves w w') : Locking w rs w' rs
  | ran {w : World} {rs : List RegistrationId} (e : ExecutableId) (now : Int) (event : Event) :
      Locking w rs ((w.modifyExecutable e (·.ran now)).emit event) rs
  | taken {w w₁ : World} {r : RegistrationId} {rs : List RegistrationId} (h : World.Evolves w w₁)
      (hfree : (w₁.lock r).locked = false) :
      Locking w rs (w₁.setLock r { w₁.lock r with locked := true }) (r :: rs)
  | claimed {w w' : World} {r : RegistrationId} {rs : List RegistrationId} {c : ContextId} (hr : r ∈ rs)
      (h : World.Evolves (w.setLock r ((w.lock r).claim c)) w') : Locking w rs w' rs
  | left {w : World} {r : RegistrationId} {rs : List RegistrationId} :
      Locking w (r :: rs) (w.setLock r (w.lock r).leave.1) rs

namespace Move

/-- A move that goes on with the locks of its stack, and claims no context. -/
structure GoesOn (w : World) (rs : List RegistrationId) (m : Move) (stack : List Frame) : Prop where
  locking : Locking w rs m.world (heldLocks m.push ++ heldLocks stack)
  claims : ∀ run, Frame.claiming run ∉ m.push
  control : m.control.isPlain

def Locks (w : World) (rs : List RegistrationId) (m : Move) (stack : List Frame) : Prop :=
  (m.control = .waiting ∧ (w.LocksRest → m.world.LocksRest)) ∨ GoesOn w rs m stack

theorem not_claiming_of_isPlain {frames : List Frame} (h : frames.all Frame.isPlain) (run : Run) :
    Frame.claiming run ∉ frames := by
  intro hf
  cases List.all_eq_true.1 h _ hf

theorem isPlain_of_isQuiet {f : Frame} (h : f.isQuiet) : f.isPlain := by
  cases f <;> first | rfl | cases h

theorem heldLocks_popped {popped : List Frame} (h : popped.all Frame.isQuiet) (stack : List Frame) :
    heldLocks (popped ++ stack) = heldLocks stack := by
  rw [heldLocks_append, heldLocks_eq_nil, List.nil_append]
  exact List.all_eq_true.2 fun f hf => isPlain_of_isQuiet (List.all_eq_true.1 h f hf)

theorem Quiet.locks {m : Move} {rs : List RegistrationId} {stack : List Frame} (h : Quiet w m)
    (hrs : rs = heldLocks stack) : Locks w rs m stack := by
  refine .inr ⟨?_, not_claiming_of_isPlain h.push, h.control⟩
  rw [heldLocks_eq_nil h.push, hrs]
  exact .quiet h.evolves

/-- What a step of a plain task does to its locks. -/
theorem Deals.locks {c : Control} {popped stack : List Frame} {m : Move} (h : Deals w id c popped m)
    (hc : c.isPlain) (hpopped : ∀ run, Frame.claiming run ∉ popped) :
    Locks w (heldLocks (popped ++ stack)) m stack := by
  cases h with
  | quiet hquiet h => exact h.locks (heldLocks_popped hquiet stack)
  | gate gate s k => exact .inl ⟨rfl, fun hrest => hrest⟩
  | @takes c popped push w₁ r inside hquiet hpush h hfree =>
      have hheld : heldLocks (.granted r inside :: push) = [r] := congrArg (r :: ·) (heldLocks_eq_nil hpush)
      rw [heldLocks_popped hquiet]
      refine .inr ⟨?_, fun run => ?_, rfl⟩
      · rw [hheld]
        exact .taken h hfree
      · simpa using not_claiming_of_isPlain hpush run
  | queues hquiet hpush h hlocked hother =>
      exact .inl ⟨rfl, fun hrest => (hrest.congr h.lock_eq).setLock fun hfree => absurd (hlocked.symm.trans hfree) nofun⟩
  | enters o r inside =>
      have h := quiet_goInside (w.setLock r ((w.lock r).claim inside.context)) inside
      have hheld : heldLocks (afterGranted w r inside).push = [r] := by
        unfold afterGranted Move.under
        rw [heldLocks_append, heldLocks_eq_nil h.push]
        rfl
      refine .inr ⟨?_, fun run => ?_, h.control⟩
      · rw [hheld]
        exact .claimed (List.mem_cons_self ..) h.evolves
      · unfold afterGranted Move.under
        simpa using not_claiming_of_isPlain h.push run
  | leaves o r => exact .inr ⟨.left, fun _ => List.not_mem_nil, rfl⟩
  | counts o run outcome => exact .inr ⟨.ran run.executable w.clock _, fun _ => List.not_mem_nil, rfl⟩
  | fails o run outcome h f => exact .inr ⟨.quiet (.looks h), fun _ => List.not_mem_nil, rfl⟩
  | begins run => cases hc
  | claims r run hfree => exact absurd (List.mem_singleton_self _) (hpopped run)
  | loses r run => exact absurd (List.mem_singleton_self _) (hpopped run)
  | drops f run => exact absurd (List.mem_singleton_self _) (hpopped run)

theorem locks_runSegment (w : World) (id : TaskId) (run : Run) (s : PlacedSegment) (stack : List Frame) :
    Locks w (heldLocks stack) (runSegment w id run s) stack := by
  have h : Deals w id (.settled (.ok .nothing)) [] ((runSegment w id run s).under []) := deals_runSegment rfl rfl run s
  have hunder : (runSegment w id run s).under [] = runSegment w id run s := by simp [Move.under]
  rw [hunder] at h
  exact h.locks rfl fun _ => List.not_mem_nil

end Move

namespace Task

theorem Plain.locks {m : Move} {stack : List Frame} (h : t.Plain) (ha : t.advance w id = some (m, stack)) :
    Move.Locks w (heldLocks t.stack) m stack ∧ ∀ run, Frame.claiming run ∉ stack := by
  obtain ⟨popped, hstack, hdeals⟩ := deals_of_advance ha
  have hclaiming := h.stack
  rw [hstack] at hclaiming ⊢
  refine ⟨hdeals.locks h.control fun run hmem => ?_, fun run hmem => ?_⟩
  · exact hclaiming run (List.mem_append_left _ hmem)
  · exact hclaiming run (List.mem_append_right _ hmem)

/-- A plain task that comes to its end stays plain, and each step is one that its locks know. -/
theorem Plain.step {m : Move} {stack : List Frame} {o : Outcome} (h : t.Plain)
    (ha : t.advance w id = some (m, stack)) (he : Ends id m.world ⟨m.push ++ stack, m.control⟩ w' o) :
    Locking w (heldLocks t.stack) m.world (heldLocks (m.push ++ stack)) ∧
      Plain ⟨m.push ++ stack, m.control⟩ := by
  obtain ⟨hlocks, hstack⟩ := h.locks ha
  rcases hlocks with ⟨hwait, -⟩ | ⟨hl, hclaims, hcontrol⟩
  · rw [hwait] at he
    exact absurd he not_ends_waiting
  · rw [heldLocks_append]
    refine ⟨hl, ⟨fun run hmem => ?_, hcontrol⟩⟩
    rcases List.mem_append.1 hmem with hm | hm
    · exact hclaims run hm
    · exact hstack run hm

end Task

namespace World

/-- The locks `rs`, each held once and with nobody waiting. -/
structure Holds (w : World) (rs : List RegistrationId) : Prop where
  rest : w.LocksRest
  once : rs.Nodup
  held : ∀ r ∈ rs, (w.lock r).locked = true ∧ (w.lock r).queue = []

/-- All locks are as they were but those that were free or are among `rs`, which are free. -/
def GivesBack (rs : List RegistrationId) (w w' : World) : Prop :=
  ∀ r, (r ∈ rs → w'.lock r = {}) ∧
    (r ∉ rs → w'.lock r = w.lock r ∨ ((w.lock r).locked = false ∧ w'.lock r = {}))

theorem Holds.congr {rs : List RegistrationId} (h : Holds w rs) (hl : ∀ r, w₁.lock r = w.lock r) : Holds w₁ rs where
  rest := h.rest.congr hl
  once := h.once
  held r hr := by
    rw [hl]
    exact h.held r hr

theorem GivesBack.congr {rs : List RegistrationId} (h : GivesBack rs w₁ w') (hl : ∀ r, w₁.lock r = w.lock r) :
    GivesBack rs w w' := by
  intro r
  rw [← hl]
  exact h r

theorem leave_of_queue {l : Lock ContextId TaskId} (h : l.queue = []) : l.leave.1 = {} := by
  unfold Lock.leave Lock.release
  rw [h]

theorem Holds.take {rs : List RegistrationId} (h : Holds w rs) (hfree : (w.lock r).locked = false) :
    Holds (w.setLock r { w.lock r with locked := true }) (r :: rs) where
  rest := h.rest.setLock nofun
  once := by
    refine List.nodup_cons.2 ⟨fun hr => ?_, h.once⟩
    rw [(h.held r hr).1] at hfree
    cases hfree
  held r' hr' := by
    rw [lock_setLock]
    by_cases he : r' = r
    · rw [if_pos he]
      exact ⟨rfl, h.rest r hfree⟩
    · rw [if_neg he]
      exact h.held r' ((List.mem_cons.1 hr').resolve_left he)

theorem GivesBack.take {rs : List RegistrationId} (h : GivesBack (r :: rs) (w.setLock r { w.lock r with locked := true }) w')
    (hfree : (w.lock r).locked = false) : GivesBack rs w w' := by
  intro r'
  refine ⟨fun hr => (h r').1 (List.mem_cons_of_mem _ hr), fun hr => ?_⟩
  by_cases he : r' = r
  · subst he
    exact .inr ⟨hfree, (h r').1 (List.mem_cons_self ..)⟩
  · have hother := (h r').2 fun hmem => hr ((List.mem_cons.1 hmem).resolve_left he)
    rwa [lock_setLock, if_neg he] at hother

theorem Holds.claim {rs : List RegistrationId} (h : Holds w rs) (hr : r ∈ rs) (c : ContextId) :
    Holds (w.setLock r ((w.lock r).claim c)) rs where
  rest := h.rest.setLock (h.rest r)
  once := h.once
  held r' hr' := by
    rw [lock_setLock]
    by_cases he : r' = r
    · rw [if_pos he]
      exact h.held r hr
    · rw [if_neg he]
      exact h.held r' hr'

theorem GivesBack.claim {rs : List RegistrationId} {c : ContextId}
    (h : GivesBack rs (w.setLock r ((w.lock r).claim c)) w') (hr : r ∈ rs) : GivesBack rs w w' := by
  intro r'
  refine ⟨(h r').1, fun hr' => ?_⟩
  have he : r' ≠ r := fun he => hr' (he ▸ hr)
  have hother := (h r').2 hr'
  rwa [lock_setLock, if_neg he] at hother

theorem Holds.leave {rs : List RegistrationId} (h : Holds w (r :: rs)) :
    Holds (w.setLock r (w.lock r).leave.1) rs where
  rest := by
    rw [leave_of_queue (h.held r (List.mem_cons_self ..)).2]
    exact h.rest.setLock fun _ => rfl
  once := (List.nodup_cons.1 h.once).2
  held r' hr' := by
    rw [lock_setLock]
    by_cases he : r' = r
    · exact absurd (he ▸ hr') (List.nodup_cons.1 h.once).1
    · rw [if_neg he]
      exact h.held r' (List.mem_cons_of_mem _ hr')

theorem GivesBack.leave {rs : List RegistrationId} (hold : Holds w (r :: rs))
    (h : GivesBack rs (w.setLock r (w.lock r).leave.1) w') : GivesBack (r :: rs) w w' := by
  have hfree := leave_of_queue (hold.held r (List.mem_cons_self ..)).2
  intro r'
  by_cases he : r' = r
  · subst he
    have hback := (h r').2 (List.nodup_cons.1 hold.once).1
    rw [lock_setLock, if_pos rfl, hfree] at hback
    exact ⟨fun _ => hback.elim (fun h => h) And.right, fun hr => absurd (List.mem_cons_self ..) hr⟩
  · have hother := h r'
    rw [lock_setLock, if_neg he] at hother
    exact ⟨fun hr => hother.1 ((List.mem_cons.1 hr).resolve_left he), fun hr => hother.2 (hr <| List.mem_cons_of_mem _ ·)⟩

end World

theorem Locking.keeps {rs rs' : List RegistrationId} (h : Locking w rs w₁ rs') : w.Keeps w₁ := by
  have hset (w : World) (r : RegistrationId) (l : Lock ContextId TaskId) : w.Keeps (w.setLock r l) :=
    .of_eq rfl rfl rfl
  cases h with
  | quiet he => exact he.keeps
  | ran e now event => exact (World.Keeps.ran w e now).trans (.of_eq rfl rfl rfl)
  | taken he _ => exact he.keeps.trans (hset _ _ _)
  | claimed _ he => exact (hset _ _ _).trans he.keeps
  | left => exact hset _ _ _

theorem Locking.holds {rs rs' : List RegistrationId} (h : Locking w rs w₁ rs') (hold : w.Holds rs) : w₁.Holds rs' := by
  cases h with
  | quiet he => exact hold.congr he.lock_eq
  | ran e now event => exact hold.congr fun _ => rfl
  | taken he hfree => exact (hold.congr he.lock_eq).take hfree
  | claimed hr he => exact (hold.claim hr _).congr he.lock_eq
  | left => exact hold.leave

theorem Locking.givesBack {rs rs' : List RegistrationId} (h : Locking w rs w₁ rs') (hold : w.Holds rs)
    (hrest : World.GivesBack rs' w₁ w') : World.GivesBack rs w w' := by
  cases h with
  | quiet he => exact hrest.congr he.lock_eq
  | ran e now event => exact hrest.congr fun _ => rfl
  | taken he hfree => exact (hrest.take hfree).congr he.lock_eq
  | claimed hr he => exact (hrest.congr he.lock_eq).claim hr
  | left => exact hrest.leave hold

/-- A task that comes to its end gives back every lock that it held or took. -/
theorem Task.Ends.givesBack {o : Outcome} (h : t.Ends id w w' o) (hp : t.Plain) (hold : w.Holds (heldLocks t.stack)) :
    w'.LocksRest ∧ World.GivesBack (heldLocks t.stack) w w' := by
  induction h with
  | settled w o => exact ⟨hold.rest, fun r => ⟨nofun, fun _ => .inl rfl⟩⟩
  | step ha he ih =>
      obtain ⟨hl, hplain⟩ := hp.step ha he
      obtain ⟨hrest, hback⟩ := ih hplain (hl.holds hold)
      exact ⟨hrest, hl.givesBack hold hback⟩

theorem Task.Ends.keeps {o : Outcome} (h : t.Ends id w w' o) (hp : t.Plain) : w.Keeps w' := by
  induction h with
  | settled w o => exact .refl w
  | step ha he ih =>
      obtain ⟨hl, hplain⟩ := hp.step ha he
      exact hl.keeps.trans (ih hplain)

/-! Whatever a machine does, nobody comes to wait for a lock that is free. -/

theorem Lock.queue_leave {l : Lock ContextId TaskId} (h : l.locked = false → l.queue = [])
    (hl : l.leave.1.locked = false) : l.leave.1.queue = [] := by
  unfold Lock.leave Lock.release at *
  cases hq : l.queue with
  | nil => rfl
  | cons t rest =>
      rw [hq] at hl
      rw [h hl] at hq
      cases hq

theorem Locking.locksRest {rs rs' : List RegistrationId} (h : Locking w rs w₁ rs') (hrest : w.LocksRest) :
    w₁.LocksRest := by
  cases h with
  | quiet he => exact hrest.congr he.lock_eq
  | ran e now event => exact hrest.congr fun _ => rfl
  | taken he _ => exact (hrest.congr he.lock_eq).setLock nofun
  | claimed _ he =>
      refine World.LocksRest.congr ?_ he.lock_eq
      exact hrest.setLock (hrest _)
  | left => exact hrest.setLock (Lock.queue_leave (hrest _))

theorem Move.Deals.locksRest {c : Control} {popped : List Frame} {m : Move} (h : Deals w id c popped m)
    (hrest : w.LocksRest) : m.world.LocksRest := by
  cases h with
  | quiet hpopped h => exact hrest.congr h.evolves.lock_eq
  | gate gate s k => exact hrest
  | takes hpopped hpush h hfree => exact (hrest.congr h.lock_eq).setLock nofun
  | queues hpopped hpush h hlocked hother =>
      exact (hrest.congr h.lock_eq).setLock fun hfree => absurd (hlocked.symm.trans hfree) nofun
  | enters o r inside =>
      have h := quiet_goInside (w.setLock r ((w.lock r).claim inside.context)) inside
      have hclaimed : (w.setLock r ((w.lock r).claim inside.context)).LocksRest := hrest.setLock (hrest r)
      exact hclaimed.congr h.evolves.lock_eq
  | leaves o r => exact hrest.setLock (Lock.queue_leave (hrest r))
  | counts o run outcome => exact hrest.congr fun _ => rfl
  | fails o run outcome h f => exact hrest.congr (World.lock_eq_of_locks h.locks_eq)
  | begins run => exact hrest
  | claims r run hfree => exact hrest.congr fun _ => rfl
  | loses r run => exact hrest
  | drops f run => exact hrest

theorem Task.locksRest_advance {m : Move} {stack : List Frame} (ha : t.advance w id = some (m, stack))
    (hrest : w.LocksRest) : m.world.LocksRest := by
  obtain ⟨popped, -, hdeals⟩ := deals_of_advance ha
  exact hdeals.locksRest hrest

namespace Machine

variable {m m' : Machine}

theorem locksRest_step (h : m.step = some m') (hrest : m.world.LocksRest) : m'.world.LocksRest := by
  unfold step at h
  split at h
  · cases h
  · split at h
    · cases h
      exact hrest
    · next ha =>
        obtain ⟨t, -, ha⟩ := Option.bind_eq_some_iff.1 ha
        dsimp only at h
        split at h
        · cases h
          exact t.locksRest_advance ha hrest
        · cases h
          exact t.locksRest_advance ha hrest

theorem locksRest_settle (fuel : Nat) (hrest : m.world.LocksRest) : (m.settle fuel).world.LocksRest := by
  induction fuel generalizing m with
  | zero => exact hrest
  | succ fuel ih =>
      unfold settle
      split
      · exact hrest
      · next h => exact ih (locksRest_step h hrest)

theorem locksRest_run (c : Call) (hrest : m.world.LocksRest) : (m.run c).1.world.LocksRest :=
  locksRest_settle stepLimit hrest

theorem locksRest_openGate (gate : String) (hrest : m.world.LocksRest) : (m.openGate gate).world.LocksRest := hrest

end Machine

end ScriptedText
