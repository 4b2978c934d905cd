import Mathlib.Data.List.Basic
import ScriptedText.Proofs.Engine.Flight

/-!
Who has a lock while calls are in flight: a lock that is taken is one task's, once, and the tasks in its queue are
those that wait for it.
-/

namespace ScriptedText

namespace Task

def waitsFor? (t : Task) : Option RegistrationId :=
  match t.control, t.stack with
  | .waiting, .granted r _ :: _ => some r
  | _, _ => none

def waits (t : Task) (r : RegistrationId) : Nat := if t.waitsFor? = some r then 1 else 0

def gates (t : Task) : Nat :=
  match t.control, t.stack with
  | .waiting, .granted _ _ :: _ => 0
  | .waiting, _ => 1
  | _, _ => 0

/-- The locks that the task has: not the one that it waits for. -/
def locks (t : Task) : List RegistrationId :=
  match t.control, t.stack with
  | .waiting, .granted _ _ :: rest => heldLocks rest
  | _, stack => heldLocks stack

def isWaiting (t : Task) : Bool :=
  match t.control with
  | .waiting => true
  | _ => false

variable {t : Task} {r : RegistrationId}

theorem waits_eq_zero (h : t.isWaiting = false) (r : RegistrationId) : t.waits r = 0 := by
  obtain ⟨stack, control⟩ := t
  cases control <;> first | rfl | cases h

theorem gates_eq_zero (h : t.isWaiting = false) : t.gates = 0 := by
  obtain ⟨stack, control⟩ := t
  cases control <;> first | rfl | cases h

theorem locks_eq (h : t.isWaiting = false) : t.locks = heldLocks t.stack := by
  obtain ⟨stack, control⟩ := t
  cases control <;> first | rfl | cases h

theorem isWaiting_of_isPlain {stack : List Frame} {c : Control} (h : c.isPlain) :
    isWaiting ⟨stack, c⟩ = false := by
  cases c <;> first | rfl | cases h

theorem isWaiting_of_advance {w : World} {id : TaskId} {m : Move} {rest : List Frame}
    (h : t.advance w id = some (m, rest)) : t.isWaiting = false := by
  obtain ⟨stack, control⟩ := t
  cases control with
  | waiting => cases stack <;> cases h
  | _ => rfl

/-- Who waits for a lock and is let in has it. -/
theorem locks_woken (t : Task) (r : RegistrationId) : t.woken.locks.count r = t.locks.count r + t.waits r := by
  obtain ⟨stack, control⟩ := t
  cases control with
  | waiting =>
      cases stack with
      | nil => rfl
      | cons f stack =>
          cases f with
          | granted r' inside =>
              change (r' :: heldLocks stack).count r = (heldLocks stack).count r + if some r' = some r then 1 else 0
              by_cases hr : r' = r <;> simp [hr]
          | _ => rfl
  | _ => rfl

theorem mem_locks_of_holding {t : Task} {r : RegistrationId} (h : Frame.holding r ∈ t.stack) : r ∈ t.locks := by
  obtain ⟨stack, control⟩ := t
  have hmem {stack : List Frame} (h : Frame.holding r ∈ stack) : r ∈ heldLocks stack :=
    List.mem_filterMap.2 ⟨_, h, rfl⟩
  cases control with
  | waiting =>
      cases stack with
      | nil => cases h
      | cons f stack =>
          cases f with
          | granted r' inside => exact hmem ((List.mem_cons.1 h).resolve_left nofun)
          | _ => exact hmem h
  | _ => exact hmem h

theorem gates_le_one (t : Task) : t.gates ≤ 1 := by
  unfold gates
  split <;> simp

theorem woken_of_gates {t : Task} (h : t.gates ≠ 0) : t.woken.locks = t.locks ∧ t.waitsFor? = none := by
  obtain ⟨stack, control⟩ := t
  cases control with
  | waiting =>
      cases stack with
      | nil => exact ⟨rfl, rfl⟩
      | cons f stack =>
          cases f with
          | granted r' inside => exact absurd rfl h
          | _ => exact ⟨rfl, rfl⟩
  | _ => exact absurd rfl h

end Task

section flatMap

variable {α β : Type} [DecidableEq β] (g : α → List β) (b : β) {l : List α} {i j : Nat} {x y : α}

theorem count_flatMap_set (h : l[i]? = some x) (y : α) :
    ((l.set i y).flatMap g).count b + (g x).count b = (l.flatMap g).count b + (g y).count b := by
  induction l generalizing i with
  | nil => cases h
  | cons z l ih =>
      cases i with
      | zero =>
          cases h
          simp only [List.set_cons_zero, List.flatMap_cons, List.count_append]
          omega
      | succ i =>
          have hset := ih h
          simp only [List.set_cons_succ, List.flatMap_cons, List.count_append]
          omega

theorem count_le_flatMap (h : l[i]? = some x) : (g x).count b ≤ (l.flatMap g).count b := by
  induction l generalizing i with
  | nil => cases h
  | cons z l ih =>
      rw [List.flatMap_cons, List.count_append]
      cases i with
      | zero =>
          cases h
          exact Nat.le_add_right _ _
      | succ i => exact Nat.le_trans (ih h) (Nat.le_add_left _ _)

theorem index_unique (hcount : (l.flatMap g).count b ≤ 1) (hi : l[i]? = some x) (hj : l[j]? = some y) (hx : b ∈ g x)
    (hy : b ∈ g y) : i = j := by
  have hposx := List.count_pos_iff.2 hx
  have hposy := List.count_pos_iff.2 hy
  induction l generalizing i j with
  | nil => cases hi
  | cons z l ih =>
      rw [List.flatMap_cons, List.count_append] at hcount
      cases i with
      | zero =>
          cases j with
          | zero => rfl
          | succ j =>
              cases hi
              have hle := count_le_flatMap g b (show l[j]? = some y from hj)
              omega
      | succ i =>
          cases j with
          | zero =>
              cases hj
              have hle := count_le_flatMap g b (show l[i]? = some x from hi)
              omega
          | succ j => exact congrArg Nat.succ (ih (by omega) hi hj)

end flatMap

/-- The locks, the queues and the gates on record agree with the tasks: a lock is taken just if one task has it, and a
task stands in a queue or at a gate as often as it waits there. -/
structure Custody (f : Flight) : Prop where
  held : ∀ r, (f.tasks.flatMap Task.locks).count r = (f.world.lock r).locked.toNat
  queued : ∀ r id, (f.world.lock r).queue.count id = ((f.task? id).map (·.waits r)).getD 0
  gated : ∀ id, (f.world.waiters.map Prod.snd).count id = ((f.task? id).map Task.gates).getD 0

namespace Custody

variable {f : Flight} {id : TaskId} {t t' : Task} {w' : World}

/-- A task changes, and what is on record about it with it. -/
theorem set (h : Custody f) (ht : f.task? id = some t)
    (hheld : ∀ r, (w'.lock r).locked.toNat + t.locks.count r = (f.world.lock r).locked.toNat + t'.locks.count r)
    (hqueued : ∀ r, (w'.lock r).queue.count id + t.waits r = (f.world.lock r).queue.count id + t'.waits r)
    (hgated : (w'.waiters.map Prod.snd).count id + t.gates = (f.world.waiters.map Prod.snd).count id + t'.gates)
    (hqueues : ∀ r, ∀ id' ≠ id, (w'.lock r).queue.count id' = (f.world.lock r).queue.count id')
    (hwaiters : ∀ id' ≠ id, (w'.waiters.map Prod.snd).count id' = (f.world.waiters.map Prod.snd).count id') :
    Custody ⟨w', f.tasks.set id.index t'⟩ where
  held r := by
    have hset := count_flatMap_set Task.locks r ht t'
    have hbefore := h.held r
    have hchange := hheld r
    dsimp only
    omega
  queued r id' := by
    rw [Flight.task?_set id t' w' (by simp [ht])]
    by_cases hid : id' = id
    · subst hid
      have hbefore := h.queued r id'
      have hchange := hqueued r
      simp only [ht, Option.map_some, Option.getD_some] at hbefore
      simp only [if_true, Option.map_some, Option.getD_some]
      omega
    · rw [if_neg hid]
      exact (hqueues r id' hid).trans (h.queued r id')
  gated id' := by
    rw [Flight.task?_set id t' w' (by simp [ht])]
    by_cases hid : id' = id
    · subst hid
      have hbefore := h.gated id'
      simp only [ht, Option.map_some, Option.getD_some] at hbefore
      simp only [if_true, Option.map_some, Option.getD_some]
      omega
    · rw [if_neg hid]
      exact (hwaiters id' hid).trans (h.gated id')

/-- Nothing changes that concerns locks and gates. -/
theorem keep (h : Custody f) (ht : f.task? id = some t) (hbefore : t.isWaiting = false) (hafter : t'.isWaiting = false)
    (hlocks : heldLocks t'.stack = heldLocks t.stack) (hwaiters : w'.waiters = f.world.waiters)
    (hlocked : ∀ r, (w'.lock r).locked = (f.world.lock r).locked)
    (hqueue : ∀ r, (w'.lock r).queue = (f.world.lock r).queue) : Custody ⟨w', f.tasks.set id.index t'⟩ := by
  have hheld : t'.locks = t.locks := by rw [Task.locks_eq hafter, Task.locks_eq hbefore, hlocks]
  refine h.set ht (fun r => ?_) (fun r => ?_) ?_ (fun r id' _ => ?_) fun id' _ => ?_
  · rw [hlocked, hheld]
  · rw [hqueue, Task.waits_eq_zero hbefore, Task.waits_eq_zero hafter]
  · rw [hwaiters, Task.gates_eq_zero hbefore, Task.gates_eq_zero hafter]
  · rw [hqueue]
  · rw [hwaiters]

theorem take (h : Custody f) (ht : f.task? id = some t) (hbefore : t.isWaiting = false) (hafter : t'.isWaiting = false)
    {w₁ : World} (hworld : World.Evolves f.world w₁) {r : RegistrationId}
    (hlocks : heldLocks t'.stack = r :: heldLocks t.stack) (hfree : (w₁.lock r).locked = false) :
    Custody ⟨w₁.setLock r { w₁.lock r with locked := true }, f.tasks.set id.index t'⟩ := by
  have hqueue (r' : RegistrationId) :
      ((w₁.setLock r { w₁.lock r with locked := true }).lock r').queue = (f.world.lock r').queue :=
    (World.lock_setLock_keeps Lock.queue (by rfl) r').trans (congrArg Lock.queue (hworld.lock_eq r'))
  refine h.set ht (fun r' => ?_) (fun r' => ?_) ?_ (fun r' id' _ => ?_) fun id' _ => ?_
  · rw [World.lock_setLock, Task.locks_eq hbefore, Task.locks_eq hafter, hlocks, ← hworld.lock_eq]
    by_cases hr : r' = r
    · subst hr
      rw [if_pos rfl, hfree, List.count_cons_self]
      simp only [Bool.toNat_true, Bool.toNat_false]
      omega
    · rw [if_neg hr, List.count_cons_of_ne (Ne.symm hr)]
  · rw [hqueue, Task.waits_eq_zero hbefore, Task.waits_eq_zero hafter]
  · change (w₁.waiters.map Prod.snd).count id + t.gates = _
    rw [hworld.waiters_eq, Task.gates_eq_zero hbefore, Task.gates_eq_zero hafter]
  · rw [hqueue]
  · change (w₁.waiters.map Prod.snd).count id' = _
    rw [hworld.waiters_eq]

theorem queue (h : Custody f) (ht : f.task? id = some t) (hbefore : t.isWaiting = false) {w₁ : World}
    (hworld : World.Evolves f.world w₁) {r : RegistrationId} {inside : Inside} {rest : List Frame}
    (hlocks : heldLocks rest = heldLocks t.stack) :
    Custody ⟨w₁.setLock r { w₁.lock r with queue := (w₁.lock r).queue ++ [id] },
      f.tasks.set id.index ⟨.granted r inside :: rest, .waiting⟩⟩ := by
  have hqueue (r' : RegistrationId) (id' : TaskId) :
      ((w₁.setLock r { w₁.lock r with queue := (w₁.lock r).queue ++ [id] }).lock r').queue.count id' =
        (f.world.lock r').queue.count id' + if r' = r ∧ id' = id then 1 else 0 := by
    rw [World.lock_setLock, ← hworld.lock_eq]
    by_cases hr : r' = r
    · by_cases hid : id' = id
      · simp [hr, hid]
      · simp [hr, hid, List.count_cons_of_ne (Ne.symm hid)]
    · simp [hr]
  refine h.set ht (fun r' => ?_) (fun r' => ?_) ?_ (fun r' id' hid => ?_) fun id' _ => ?_
  · have hheld : Task.locks ⟨.granted r inside :: rest, .waiting⟩ = t.locks := hlocks.trans (Task.locks_eq hbefore).symm
    have hlocked := World.lock_setLock_keeps (w := w₁) (r := r) (l := { w₁.lock r with queue := (w₁.lock r).queue ++ [id] })
      Lock.locked rfl r'
    rw [hlocked, hheld, hworld.lock_eq]
  · have hwaits : Task.waits ⟨.granted r inside :: rest, .waiting⟩ r' = if r' = r then 1 else 0 := by
      simp [Task.waits, Task.waitsFor?, eq_comm]
    rw [hqueue, hwaits, Task.waits_eq_zero hbefore]
    simp
  · change (w₁.waiters.map Prod.snd).count id + t.gates = _
    rw [hworld.waiters_eq, Task.gates_eq_zero hbefore]
    rfl
  · rw [hqueue]
    simp [hid]
  · change (w₁.waiters.map Prod.snd).count id' = _
    rw [hworld.waiters_eq]

theorem locked_of_mem (h : Custody f) (ht : f.task? id = some t) {r : RegistrationId} (hr : r ∈ t.locks) :
    (f.world.lock r).locked = true := by
  have hcount : 0 < t.locks.count r := List.count_pos_iff.2 hr
  have hle := count_le_flatMap Task.locks r ht
  rw [h.held r] at hle
  cases hlocked : (f.world.lock r).locked with
  | true => rfl
  | false =>
      rw [hlocked, Bool.toNat_false] at hle
      omega

/-- Who is let in claims the lock that it has. -/
theorem enter (h : Custody f) {r : RegistrationId} {inside : Inside} {o : Outcome} {rest : List Frame}
    (ht : f.task? id = some ⟨.granted r inside :: rest, .settled o⟩) :
    Custody (f.proceed id (Move.afterGranted f.world r inside) rest) := by
  have hquiet := Move.quiet_goInside (f.world.setLock r ((f.world.lock r).claim inside.context)) inside
  have hheld : heldLocks ((Move.afterGranted f.world r inside).push ++ rest) = r :: heldLocks rest := by
    unfold Move.afterGranted Move.under
    rw [heldLocks_append, heldLocks_append, heldLocks_eq_nil hquiet.push]
    rfl
  have hlock (r' : RegistrationId) : (Move.afterGranted f.world r inside).world.lock r' =
      (f.world.setLock r ((f.world.lock r).claim inside.context)).lock r' := hquiet.evolves.lock_eq r'
  have hwake : (Move.afterGranted f.world r inside).wake = [] := hquiet.wake
  unfold Flight.proceed
  rw [hwake]
  refine h.keep ht rfl (Task.isWaiting_of_isPlain hquiet.control) hheld hquiet.evolves.waiters_eq
    (fun r' => ?_) fun r' => ?_
  · exact (congrArg Lock.locked (hlock r')).trans (World.lock_setLock_keeps Lock.locked (by rfl) r')
  · exact (congrArg Lock.queue (hlock r')).trans (World.lock_setLock_keeps Lock.queue (by rfl) r')

theorem congr {tasks : List Task} {w : World} (h : Custody ⟨w, tasks⟩) (hlocks : ∀ r, w'.lock r = w.lock r)
    (hwaiters : w'.waiters = w.waiters) : Custody ⟨w', tasks⟩ where
  held r := (h.held r).trans (congrArg (·.locked.toNat) (hlocks r).symm)
  queued r id := (congrArg (·.queue.count id) (hlocks r)).trans (h.queued r id)
  gated id := (congrArg (fun l => (l.map Prod.snd).count id) hwaiters).trans (h.gated id)

/-- Those in a queue are the tasks that wait for the lock. -/
theorem mem_queue_iff (h : Custody f) (ht : f.task? id = some t) (r : RegistrationId) :
    id ∈ (f.world.lock r).queue ↔ t.waitsFor? = some r := by
  have hcount := h.queued r id
  rw [ht, Option.map_some, Option.getD_some, Task.waits] at hcount
  rw [← List.count_pos_iff, hcount]
  split <;> simp [*]

theorem exists_of_mem_queue (h : Custody f) {r : RegistrationId} (hid : id ∈ (f.world.lock r).queue) :
    ∃ t, f.task? id = some t ∧ t.waitsFor? = some r := by
  cases ht : f.task? id with
  | none =>
      have hcount := h.queued r id
      rw [ht] at hcount
      exact absurd hid (List.count_eq_zero.1 hcount)
  | some t => exact ⟨t, rfl, (h.mem_queue_iff ht r).1 hid⟩

/-- The first in the queue has the lock then. -/
theorem handOn (h : Custody f) {u : TaskId} {rest : List TaskId} {r : RegistrationId}
    (hqueue : (f.world.lock r).queue = u :: rest) (hfree : (f.world.lock r).locked = false) :
    Custody (Flight.wake
      { f with world := f.world.setLock r { f.world.lock r with locked := true, queue := rest } } [u]) := by
  obtain ⟨t, ht, hwaits⟩ := h.exists_of_mem_queue (hqueue ▸ List.mem_cons_self ..)
  have hset : f.tasks.modify u.index Task.woken = f.tasks.set u.index t.woken := by
    rw [List.modify_eq_set_getElem?, show f.tasks[u.index]? = some t from ht]
    rfl
  have hother (r' : RegistrationId) (hr : r' ≠ r) : t.waits r' = 0 := by
    rw [Task.waits, hwaits, if_neg fun he => hr (Option.some.inj he).symm]
  have hself : t.waits r = 1 := by rw [Task.waits, if_pos hwaits]
  change Custody ⟨_, f.tasks.modify u.index Task.woken⟩
  rw [hset]
  refine h.set ht (fun r' => ?_) (fun r' => ?_) ?_ (fun r' id' hid => ?_) fun id' _ => rfl
  · rw [World.lock_setLock, Task.locks_woken]
    by_cases hr : r' = r
    · subst hr
      rw [if_pos rfl, hfree, hself]
      simp only [Bool.toNat_true, Bool.toNat_false]
      omega
    · rw [if_neg hr, hother r' hr]
      rfl
  · rw [World.lock_setLock]
    by_cases hr : r' = r
    · subst hr
      rw [if_pos rfl, hqueue, List.count_cons_self, hself]
      rfl
    · rw [if_neg hr, hother r' hr]
      rfl
  · have hgates : t.gates = 0 := Classical.byContradiction fun hne => by
      rw [(Task.woken_of_gates hne).2] at hwaits
      cases hwaits
    rw [hgates]
    rfl
  · rw [World.lock_setLock]
    by_cases hr : r' = r
    · subst hr
      rw [if_pos rfl, hqueue, List.count_cons_of_ne (Ne.symm hid)]
    · rw [if_neg hr]

/-- A lock is given back, and is on its way to the next in the queue, if there is one. -/
theorem leave (h : Custody f) {r : RegistrationId} {o o' : Outcome} {rest : List Frame}
    (ht : f.task? id = some ⟨.holding r :: rest, .settled o⟩) :
    Custody (f.proceed id (Move.afterHolding f.world r o') rest) := by
  have hlocked := h.locked_of_mem ht (List.mem_cons_self ..)
  have hdropped : Custody ⟨f.world.setLock r { f.world.lock r with owner := none, locked := false },
      f.tasks.set id.index ⟨rest, .settled o'⟩⟩ := by
    refine h.set ht (fun r' => ?_) (fun r' => ?_) rfl (fun r' id' _ => ?_) fun id' _ => rfl
    · rw [World.lock_setLock]
      change _ + (r :: heldLocks rest).count r' = _ + (heldLocks rest).count r'
      by_cases hr : r' = r
      · subst hr
        rw [if_pos rfl, hlocked, List.count_cons_self]
        simp only [Bool.toNat_true, Bool.toNat_false]
        omega
      · rw [if_neg hr, List.count_cons_of_ne (Ne.symm hr)]
    · exact congrArg (List.count id · + 0) (World.lock_setLock_keeps Lock.queue (by rfl) r')
    · exact congrArg (List.count id') (World.lock_setLock_keeps Lock.queue (by rfl) r')
  cases hqueue : (f.world.lock r).queue with
  | nil =>
      have hleave : (f.world.lock r).leave = ({ f.world.lock r with owner := none, locked := false }, none) := by
        simp [Lock.leave, Lock.release, hqueue]
      unfold Flight.proceed Move.afterHolding
      rw [hleave]
      exact hdropped
  | cons u others =>
      have hleave : (f.world.lock r).leave = ({ f.world.lock r with owner := none, queue := others }, some u) := by
        simp [Lock.leave, Lock.release, hqueue]
      have hlock := World.lock_setLock f.world r { f.world.lock r with owner := none, locked := false } r
      rw [if_pos rfl] at hlock
      have hhanded := hdropped.handOn ((congrArg Lock.queue hlock).trans hqueue) (congrArg Lock.locked hlock)
      unfold Flight.proceed Move.afterHolding
      rw [hleave]
      refine hhanded.congr (fun r' => ?_) rfl
      simp only [World.lock_setLock, hlocked]
      split <;> simp

theorem keep_evolved (h : Custody f) (ht : f.task? id = some t) (hbefore : t.isWaiting = false)
    (hafter : t'.isWaiting = false) (hlocks : heldLocks t'.stack = heldLocks t.stack)
    (hworld : World.Evolves f.world w') : Custody ⟨w', f.tasks.set id.index t'⟩ :=
  h.keep ht hbefore hafter hlocks hworld.waiters_eq (fun r => congrArg Lock.locked (hworld.lock_eq r))
    fun r => congrArg Lock.queue (hworld.lock_eq r)

theorem await (h : Custody f) (ht : f.task? id = some t) (hbefore : t.isWaiting = false) (gate : String) (s : Speaker)
    (k : Outcome → Dialogue Reply) :
    Custody ⟨{ f.world with waiters := f.world.waiters ++ [(gate, id)] },
      f.tasks.set id.index ⟨.conversation s k :: t.stack, .waiting⟩⟩ := by
  have hlocks : Task.locks ⟨.conversation s k :: t.stack, .waiting⟩ = t.locks := (Task.locks_eq hbefore).symm
  refine h.set ht (fun r => ?_) (fun r => ?_) ?_ (fun r id' _ => rfl) fun id' hid => ?_
  · rw [hlocks]
    rfl
  · rw [Task.waits_eq_zero hbefore]
    rfl
  · rw [List.map_append, List.count_append, Task.gates_eq_zero hbefore]
    simp [Task.gates]
  · simp [List.count_cons_of_ne (Ne.symm hid)]

theorem proceed (h : Custody f) {m : Move} {rest : List Frame} (ht : f.task? id = some t)
    (ha : t.advance f.world id = some (m, rest)) : Custody (f.proceed id m rest) := by
  have hbefore := Task.isWaiting_of_advance ha
  obtain ⟨popped, hstack, hdeals⟩ := Task.deals_of_advance ha
  obtain ⟨stack, control⟩ := t
  subst hstack
  cases hdeals with
  | quiet hpopped hquiet =>
      unfold Flight.proceed
      rw [hquiet.wake]
      refine h.keep_evolved ht hbefore (Task.isWaiting_of_isPlain hquiet.control) ?_ hquiet.evolves
      rw [Move.heldLocks_popped hpopped, heldLocks_append, heldLocks_eq_nil hquiet.push, List.nil_append]
  | gate gate s k => exact h.await ht hbefore gate s k
  | @takes _ _ push w₁ r inside hpopped hpush hworld hfree =>
      refine h.take ht hbefore rfl hworld ?_ hfree
      change r :: heldLocks (push ++ rest) = _
      rw [Move.heldLocks_popped hpopped, heldLocks_append, heldLocks_eq_nil hpush, List.nil_append]
  | @queues _ _ push w₁ r inside hpopped hpush hworld hlocked hother =>
      refine h.queue ht hbefore hworld ?_
      change heldLocks (push ++ rest) = _
      rw [Move.heldLocks_popped hpopped, heldLocks_append, heldLocks_eq_nil hpush, List.nil_append]
  | enters o r inside => exact h.enter ht
  | leaves o r => exact h.leave ht
  | counts o run outcome => exact h.keep ht hbefore rfl rfl rfl (fun _ => rfl) fun _ => rfl
  | fails o run outcome hworld f => exact h.keep_evolved ht hbefore rfl rfl (.looks hworld)
  | begins run => exact h.keep_evolved ht hbefore rfl rfl (.refl _)
  | claims r run hfree => exact h.keep ht hbefore rfl rfl rfl (fun _ => rfl) fun _ => rfl
  | loses r run => exact h.keep_evolved ht hbefore rfl rfl (.refl _)
  | drops f run => exact h.keep_evolved ht hbefore rfl rfl (.refl _)

theorem empty (htasks : f.tasks = []) (hlocks : ∀ r, f.world.lock r = {}) (hwaiters : f.world.waiters = []) :
    Custody f where
  held r := by rw [htasks, hlocks r]; rfl
  queued r id := by simp [Flight.task?, htasks, hlocks r]
  gated id := by simp [Flight.task?, htasks, hwaiters]

theorem spawn (h : Custody f) (c : Call) : Custody (f.spawn c) where
  held r := by
    have hlocks : (Task.locks ⟨[], .call c⟩).count r = 0 := rfl
    unfold Flight.spawn
    rw [List.flatMap_append, List.flatMap_singleton, List.count_append, hlocks, Nat.add_zero]
    exact h.held r
  queued r id := by
    rw [Flight.task?_spawn]
    by_cases hid : id = f.next
    · have hnone : f.task? id = none := hid ▸ Flight.task?_next
      have hqueued := h.queued r id
      rw [hnone] at hqueued
      rw [if_pos hid]
      exact hqueued
    · rw [if_neg hid]
      exact h.queued r id
  gated id := by
    rw [Flight.task?_spawn]
    by_cases hid : id = f.next
    · have hnone : f.task? id = none := hid ▸ Flight.task?_next
      have hgated := h.gated id
      rw [hnone] at hgated
      rw [if_pos hid]
      exact hgated
    · rw [if_neg hid]
      exact h.gated id

theorem start (h : Custody f) (c : Call) : Custody (f.start c) :=
  (h.spawn c).proceed (Flight.task?_spawn_next c) rfl

theorem count_waiters (waiters : List (String × TaskId)) (gate : String) (id : TaskId) :
    ((waiters.filter (·.1 = gate)).map Prod.snd).count id + ((waiters.filter (·.1 ≠ gate)).map Prod.snd).count id =
      (waiters.map Prod.snd).count id := by
  induction waiters with
  | nil => rfl
  | cons x waiters ih =>
      obtain ⟨gate', id'⟩ := x
      by_cases hgate : gate' = gate
      · simp only [List.filter_cons, hgate, decide_true, if_true, ne_eq, not_true, decide_false, Bool.false_eq_true,
          if_false, List.map_cons, List.count_cons, ← ih]
        omega
      · simp only [List.filter_cons, hgate, decide_true, if_true, ne_eq, not_false_eq_true, decide_false,
          Bool.false_eq_true, if_false, List.map_cons, List.count_cons, ← ih]
        omega

/-- Who is at the gate waits there once, and at no other. -/
theorem exists_of_mem_gate (h : Custody f) {gate : String} (hid : id ∈ (f.world.waiters.filter (·.1 = gate)).map Prod.snd) :
    ∃ t, f.task? id = some t ∧ t.gates ≠ 0 ∧ ((f.world.waiters.filter (·.1 ≠ gate)).map Prod.snd).count id = 0 := by
  have hpos := List.count_pos_iff.2 hid
  have hcount := count_waiters f.world.waiters gate id
  have hgated := h.gated id
  cases ht : f.task? id with
  | none =>
      rw [ht, Option.map_none, Option.getD_none] at hgated
      omega
  | some t =>
      have hle := t.gates_le_one
      rw [ht, Option.map_some, Option.getD_some] at hgated
      exact ⟨t, rfl, by omega, by omega⟩

/-- Those who wait for the gate go on. They wait for no lock, and keep those that they have. -/
theorem openGate (h : Custody f) (gate : String) : Custody (f.openGate gate) := by
  have htask (id : TaskId) : (f.openGate gate).task? id =
      if id ∈ (f.world.waiters.filter (·.1 = gate)).map Prod.snd then (f.task? id).map Task.woken else f.task? id :=
    Flight.task?_wake _ id
  have hlocks : (f.openGate gate).tasks.map Task.locks = f.tasks.map Task.locks := by
    refine List.ext_getElem? fun i => ?_
    have hi := htask ⟨i⟩
    rw [List.getElem?_map, List.getElem?_map]
    change (f.openGate gate).tasks[i]? = _ at hi
    rw [hi]
    split
    · next hid =>
        obtain ⟨t, ht, hgates, -⟩ := h.exists_of_mem_gate hid
        have hkept := (Task.woken_of_gates hgates).1
        rw [ht, show f.tasks[i]? = some t from ht]
        simpa using hkept
    · rfl
  refine ⟨fun r => ?_, fun r id => ?_, fun id => ?_⟩
  · rw [List.flatMap_def, hlocks, ← List.flatMap_def]
    exact h.held r
  · rw [htask]
    refine (h.queued r id).trans ?_
    split
    · next hid =>
        obtain ⟨t, ht, hgates, -⟩ := h.exists_of_mem_gate hid
        rw [ht, Option.map_some, Option.map_some, Option.map_some]
        simp only [Option.getD_some, Task.waits, (Task.woken_of_gates hgates).2]
        rfl
    · rfl
  · rw [htask]
    have hcount := count_waiters f.world.waiters gate id
    have hgated := h.gated id
    change ((f.world.waiters.filter (·.1 ≠ gate)).map Prod.snd).count id = _
    split
    · next hid =>
        obtain ⟨t, ht, -, hnone⟩ := h.exists_of_mem_gate hid
        rw [hnone, ht]
        rfl
    · next hid =>
        rw [List.count_eq_zero.2 hid] at hcount
        omega

theorem goes (h : Custody f) {d : Deed} {f' : Flight} (hgo : f.Goes d f') : Custody f' := by
  cases hgo with
  | call c => exact h.start c
  | go ht ha => exact h.proceed ht ha
  | openGate gate => exact h.openGate gate
  | release e => exact h.congr (World.lock_eq_of_locks (World.locks_release f.world e)) (World.waiters_release f.world e)
  | tick now hnow => exact h.congr (fun _ => rfl) rfl
  | keep e duration => exact h.congr (fun _ => rfl) rfl

/-- A lock is one task's, once. -/
theorem holder_unique (h : Custody f) {id' : TaskId} (ht : f.task? id = some t) (ht' : f.task? id' = some t')
    {r : RegistrationId} (hr : r ∈ t.locks) (hr' : r ∈ t'.locks) : id = id' := by
  have hcount : (f.tasks.flatMap Task.locks).count r ≤ 1 := by
    rw [h.held]
    exact Bool.toNat_le _
  have hindex := index_unique Task.locks r hcount ht ht' hr hr'
  cases id
  cases id'
  exact congrArg TaskId.mk hindex

theorem count_le_one (h : Custody f) (ht : f.task? id = some t) (r : RegistrationId) : t.locks.count r ≤ 1 := by
  have hle := count_le_flatMap Task.locks r ht
  rw [h.held r] at hle
  exact Nat.le_trans hle (Bool.toNat_le _)

theorem exists_holder (h : Custody f) {r : RegistrationId} (hlocked : (f.world.lock r).locked = true) :
    ∃ id t, f.task? id = some t ∧ r ∈ t.locks := by
  have hcount := h.held r
  rw [hlocked, Bool.toNat_true] at hcount
  have hmem : r ∈ f.tasks.flatMap Task.locks := List.count_pos_iff.1 (hcount ▸ Nat.one_pos)
  obtain ⟨t, ht, hr⟩ := List.mem_flatMap.1 hmem
  obtain ⟨i, hi⟩ := List.mem_iff_getElem?.1 ht
  exact ⟨⟨i⟩, t, hi, hr⟩

end Custody

theorem Task.isWaiting_of_waitsFor {t : Task} {r : RegistrationId} (h : t.waitsFor? = some r) : t.isWaiting = true := by
  obtain ⟨stack, control⟩ := t
  cases control with
  | waiting => rfl
  | _ => cases h

/-- Only who leaves with a lock wakes another task. -/
theorem Move.Deals.wake_cases {w : World} {id : TaskId} {control : Control} {popped : List Frame} {m : Move}
    (h : Move.Deals w id control popped m) :
    m.wake = [] ∨ ∃ o r, control = .settled o ∧ ∀ u ∈ m.wake, u ∈ (w.lock r).queue := by
  cases h with
  | quiet hpopped h => exact .inl h.wake
  | enters o r inside => exact .inl (Move.quiet_goInside _ inside).wake
  | leaves o r =>
      refine .inr ⟨o, r, rfl, fun u hu => ?_⟩
      have hnext : u ∈ ((w.lock r).leave).2 := Option.mem_toList.1 hu
      unfold Lock.leave Lock.release at hnext
      dsimp only at hnext
      split at hnext
      · next heq =>
          cases hnext
          rw [heq]
          exact List.mem_cons_self ..
      · cases hnext
  | _ => exact .inl rfl

inductive Flight.Comes (f : Flight) : Deed → TaskId → Task → Prop
  | stays {d : Deed} {id : TaskId} {t : Task} (ht : f.task? id = some t) : Comes f d id t
  | wakes {d : Deed} {id : TaskId} {t : Task} (ht : f.task? id = some t) (hwaits : t.isWaiting = true) :
      Comes f d id t.woken
  | goes {id : TaskId} {t : Task} {m : Move} {rest : List Frame} (ht : f.task? id = some t)
      (ha : t.advance f.world id = some (m, rest)) : Comes f (.go id) id ⟨m.push ++ rest, m.control⟩
  | calls (c : Call) :
      Comes f (.call c) f.next ⟨(Move.begin f.world f.next c).push, (Move.begin f.world f.next c).control⟩

/-- Nobody goes on but who makes a step, or waited and is let go. -/
theorem Custody.comes {f f' : Flight} (h : Custody f) {d : Deed} (hgo : f.Goes d f') {id : TaskId} {t : Task}
    (ht : f'.task? id = some t) : f.Comes d id t := by
  cases hgo with
  | call c =>
      have hdeals : Move.Deals f.world f.next (.call c) [] (Move.begin f.world f.next c) := Move.deals_begin c
      have hwake : (Move.begin f.world f.next c).wake = [] := by
        rcases hdeals.wake_cases with hwake | ⟨o, r, hcontrol, -⟩
        · exact hwake
        · cases hcontrol
      rw [Flight.task?_start hwake] at ht
      split at ht
      · next hid =>
          cases ht
          subst hid
          exact .calls c
      · exact .stays ht
  | @go id' t' m rest ht' ha =>
      have hset := Flight.task?_set id' ⟨m.push ++ rest, m.control⟩ m.world (by rw [ht']; rfl) id
      have hwaits : ∀ u ∈ m.wake, ∀ v, f.task? u = some v → v.isWaiting = true := by
        obtain ⟨popped, -, hdeals⟩ := Task.deals_of_advance ha
        intro u hu v hv
        rcases hdeals.wake_cases with hwake | ⟨o, r, -, hqueue⟩
        · rw [hwake] at hu
          cases hu
        · exact Task.isWaiting_of_waitsFor ((h.mem_queue_iff hv r).1 (hqueue u hu))
      unfold Flight.proceed at ht
      rw [Flight.task?_wake, hset] at ht
      by_cases hid : id = id'
      · subst hid
        have hnot : id ∉ m.wake := fun hin => by
          have hwaiting := hwaits id hin t' ht'
          rw [Task.isWaiting_of_advance ha] at hwaiting
          cases hwaiting
        rw [if_neg hnot, if_pos rfl] at ht
        cases ht
        exact .goes ht' ha
      · rw [if_neg hid] at ht
        split at ht
        · next hin =>
            obtain ⟨u, hu, rfl⟩ := Option.map_eq_some_iff.1 ht
            exact .wakes hu (hwaits id hin u hu)
        · exact .stays ht
  | openGate gate =>
      unfold Flight.openGate at ht
      dsimp only at ht
      rw [Flight.task?_wake] at ht
      split at ht
      · next hin =>
          obtain ⟨u, hu, rfl⟩ := Option.map_eq_some_iff.1 ht
          cases hwaits : u.isWaiting with
          | true => exact .wakes hu hwaits
          | false =>
              obtain ⟨waiter, hwaiter, hid⟩ := List.mem_map.1 hin
              have hcount := h.gated id
              rw [show f.task? id = some u from hu, Option.map_some, Option.getD_some, Task.gates_eq_zero hwaits] at hcount
              have hmem := List.mem_map.2 ⟨waiter, (List.mem_filter.1 hwaiter).1, hid⟩
              exact absurd hmem (List.count_eq_zero.1 hcount)
      · exact .stays ht
  | _ => exact .stays ht

/-- Whatever happens, nobody comes to wait for a lock that is free. -/
theorem Flight.Goes.locksRest {f f' : Flight} {d : Deed} (h : f.Goes d f') (hrest : f.world.LocksRest) :
    f'.world.LocksRest := by
  cases h with
  | call c =>
      have hdeals : Move.Deals f.world f.next (.call c) [] (Move.begin f.world f.next c) := Move.deals_begin c
      exact hdeals.locksRest hrest
  | go ht ha => exact Task.locksRest_advance ha hrest
  | openGate gate => exact hrest
  | release e => exact hrest.congr (World.lock_eq_of_locks (World.locks_release f.world e))
  | tick now hnow => exact hrest
  | keep e duration => exact hrest

end ScriptedText
