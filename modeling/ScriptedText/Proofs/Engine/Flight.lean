import Mathlib.Logic.Relation
import ScriptedText.Proofs.Engine.Locking

/-!
Calls in flight: any task that can go on may take the next step, and the host may do something in between. What a
machine does, with its queue of tasks, is one of these.
-/

namespace ScriptedText

open Relation

structure Flight where
  world : World
  tasks : List Task := []

def Machine.flight (m : Machine) : Flight := ⟨m.world, m.tasks⟩

inductive Deed
  | call (c : Call)
  | go (id : TaskId)
  | openGate (gate : String)
  | release (e : ExecutableId)
  | tick (now : Int)
  /-- Sets for how long output of an executable may be kept. -/
  | keep (e : ExecutableId) (duration : Int)

namespace Flight

variable (f : Flight)

def task? (id : TaskId) : Option Task := f.tasks[id.index]?

/-- The number of the next task. -/
def next : TaskId := ⟨f.tasks.length⟩

def wake (ids : List TaskId) : Flight :=
  { f with tasks := ids.foldl (fun tasks id => tasks.modify id.index Task.woken) f.tasks }

/-- The flight after a step of a task, with the frames that were left on its stack. -/
def proceed (id : TaskId) (m : Move) (rest : List Frame) : Flight :=
  { world := m.world, tasks := f.tasks.set id.index ⟨m.push ++ rest, m.control⟩ : Flight }.wake m.wake

def spawn (c : Call) : Flight := { f with tasks := f.tasks ++ [⟨[], .call c⟩] }

/-- A call starts, and takes its first step at once. -/
def start (c : Call) : Flight := (f.spawn c).proceed f.next (Move.begin f.world f.next c) []

def openGate (gate : String) : Flight :=
  let ids := (f.world.waiters.filter (·.1 = gate)).map Prod.snd
  let world := { f.world with
    openGates := gate :: f.world.openGates, waiters := f.world.waiters.filter (·.1 ≠ gate) }
  { f with world }.wake ids

inductive Goes : Flight → Deed → Flight → Prop
  | call (f : Flight) (c : Call) : Goes f (.call c) (f.start c)
  | go {f : Flight} {id : TaskId} {t : Task} {m : Move} {rest : List Frame} (ht : f.task? id = some t)
      (ha : t.advance f.world id = some (m, rest)) : Goes f (.go id) (f.proceed id m rest)
  | openGate (f : Flight) (gate : String) : Goes f (.openGate gate) (f.openGate gate)
  | release (f : Flight) (e : ExecutableId) : Goes f (.release e) { f with world := f.world.release e }
  | tick (f : Flight) (now : Int) (h : f.world.clock ≤ now) :
      Goes f (.tick now) { f with world := { f.world with clock := now } }
  | keep (f : Flight) (e : ExecutableId) (duration : Int) :
      Goes f (.keep e duration)
        { f with world := f.world.modifyExecutable e fun x => { x with cacheDuration := duration } }

variable {f}

theorem index_ne {id id' : TaskId} (h : id' ≠ id) : id.index ≠ id'.index := by
  cases id
  cases id'
  exact fun hindex => h (congrArg TaskId.mk hindex.symm)

theorem task?_set (id : TaskId) (t : Task) (world : World) (h : (f.task? id).isSome) (id' : TaskId) :
    task? { world, tasks := f.tasks.set id.index t } id' = if id' = id then some t else f.task? id' := by
  have hlt : id.index < f.tasks.length := by simpa [task?] using h
  unfold task?
  by_cases hid : id' = id
  · subst hid
    simp [hlt]
  · simp [hid, List.getElem?_set_ne (index_ne hid)]

theorem getElem?_concat {α : Type} (l : List α) (a : α) (i : Nat) :
    (l ++ [a])[i]? = if i = l.length then some a else l[i]? := by
  rcases Nat.lt_trichotomy i l.length with hlt | rfl | hgt
  · rw [List.getElem?_append_left hlt, if_neg (Nat.ne_of_lt hlt)]
  · simp
  · rw [if_neg (Nat.ne_of_gt hgt), List.getElem?_eq_none, List.getElem?_eq_none (Nat.le_of_lt hgt)]
    rw [List.length_append, List.length_singleton]
    exact hgt

/-- The place of the next task is the end of the list. -/
theorem index_eq_length {id : TaskId} : id.index = f.tasks.length ↔ id = f.next := by
  cases id
  exact ⟨congrArg TaskId.mk, congrArg TaskId.index⟩

theorem task?_concat (t : Task) (id : TaskId) :
    task? { f with tasks := f.tasks ++ [t] } id = if id = f.next then some t else f.task? id := by
  refine (getElem?_concat f.tasks t id.index).trans ?_
  simp only [index_eq_length]
  rfl

theorem task?_next : f.task? f.next = none := by simp [task?, next]

theorem task?_spawn (c : Call) (id : TaskId) :
    (f.spawn c).task? id = if id = f.next then some ⟨[], .call c⟩ else f.task? id := task?_concat _ id

theorem task?_spawn_next (c : Call) : (f.spawn c).task? f.next = some ⟨[], .call c⟩ :=
  (task?_spawn c f.next).trans (if_pos rfl)

theorem task?_wake (ids : List TaskId) (id : TaskId) :
    (f.wake ids).task? id = if id ∈ ids then (f.task? id).map Task.woken else f.task? id := by
  induction ids generalizing f with
  | nil => rfl
  | cons id' ids ih =>
      have hhead : task? { f with tasks := f.tasks.modify id'.index Task.woken } id =
          if id = id' then (f.task? id).map Task.woken else f.task? id := by
        unfold task?
        by_cases hid : id = id'
        · subst hid
          simp
        · simp [hid, List.getElem?_modify_ne _ _ (index_ne hid)]
      refine (ih (f := { f with tasks := f.tasks.modify id'.index Task.woken })).trans ?_
      rw [hhead]
      by_cases hid : id = id'
      · have htwice : Task.woken ∘ Task.woken = Task.woken := rfl
        simp [hid, htwice]
      · simp [hid]

theorem task?_start {c : Call} (hwake : (Move.begin f.world f.next c).wake = []) (id : TaskId) :
    (f.start c).task? id = if id = f.next
      then some ⟨(Move.begin f.world f.next c).push, (Move.begin f.world f.next c).control⟩ else f.task? id := by
  have hsome : ((f.spawn c).task? f.next).isSome = true := by rw [task?_spawn_next, Option.isSome_some]
  unfold start proceed
  rw [hwake]
  refine (task?_set f.next _ _ hsome id).trans ?_
  split
  · rw [List.append_nil]
  · next hid => exact (task?_spawn c id).trans (if_neg hid)

theorem exists_of_task?_wake {ids : List TaskId} {id : TaskId} {t : Task} (h : (f.wake ids).task? id = some t) :
    ∃ t₀, f.task? id = some t₀ ∧ t.stack = t₀.stack := by
  rw [task?_wake] at h
  split at h
  · obtain ⟨t₀, ht₀, rfl⟩ := Option.map_eq_some_iff.1 h
    exact ⟨t₀, ht₀, rfl⟩
  · exact ⟨t, h, rfl⟩

/-- Only the task that takes the step has another stack then. -/
theorem stack_of_task?_proceed {id id' : TaskId} {m : Move} {rest : List Frame} {t : Task}
    (hsome : (f.task? id).isSome = true) (h : (f.proceed id m rest).task? id' = some t) :
    (id' = id ∧ t.stack = m.push ++ rest) ∨ ∃ t₀, f.task? id' = some t₀ ∧ t.stack = t₀.stack := by
  obtain ⟨t₀, ht₀, hstack⟩ := exists_of_task?_wake h
  rw [task?_set id _ _ hsome] at ht₀
  split at ht₀
  · next hid =>
      cases ht₀
      exact .inl ⟨hid, hstack⟩
  · exact .inr ⟨t₀, ht₀, hstack⟩

theorem length_wake (ids : List TaskId) : (f.wake ids).tasks.length = f.tasks.length := by
  induction ids generalizing f with
  | nil => rfl
  | cons id ids ih =>
      exact (ih (f := { f with tasks := f.tasks.modify id.index Task.woken })).trans (List.length_modify ..)

theorem length_proceed (id : TaskId) (m : Move) (rest : List Frame) :
    (f.proceed id m rest).tasks.length = f.tasks.length := (length_wake _).trans List.length_set

theorem length_start (c : Call) : (f.start c).tasks.length = f.tasks.length + 1 :=
  (length_proceed ..).trans List.length_append

/-- A task has the stack that it had, or it has taken a step, which may have been its first one. -/
theorem Goes.stack_cases {f' : Flight} {d : Deed} {id : TaskId} {t : Task} (h : f.Goes d f')
    (ht : f'.task? id = some t) : ∃ t₀, (f.task? id = some t₀ ∨ ∃ c, t₀ = ⟨[], .call c⟩) ∧
      (t.stack = t₀.stack ∨ ∃ m rest, t₀.advance f.world id = some (m, rest) ∧ t.stack = m.push ++ rest) := by
  cases h with
  | call c =>
      have hsome : ((f.spawn c).task? f.next).isSome = true := by rw [task?_spawn_next, Option.isSome_some]
      rcases stack_of_task?_proceed hsome ht with ⟨rfl, hstack⟩ | ⟨t₀, ht₀, hstack⟩
      · exact ⟨⟨[], .call c⟩, .inr ⟨c, rfl⟩, .inr ⟨_, [], rfl, hstack⟩⟩
      · rw [task?_spawn] at ht₀
        split at ht₀
        · cases ht₀
          exact ⟨⟨[], .call c⟩, .inr ⟨c, rfl⟩, .inl hstack⟩
        · exact ⟨t₀, .inl ht₀, .inl hstack⟩
  | go ht₀ ha =>
      rcases stack_of_task?_proceed (by simp [ht₀]) ht with ⟨rfl, hstack⟩ | ⟨t₁, ht₁, hstack⟩
      · exact ⟨_, .inl ht₀, .inr ⟨_, _, ha, hstack⟩⟩
      · exact ⟨t₁, .inl ht₁, .inl hstack⟩
  | openGate gate =>
      obtain ⟨t₀, ht₀, hstack⟩ := exists_of_task?_wake ht
      exact ⟨t₀, .inl ht₀, .inl hstack⟩
  | _ => exact ⟨t, .inl ht, .inl rfl⟩

end Flight

namespace Machine

variable {m m' : Machine}

theorem flight_of_advance {id : TaskId} {ready : List TaskId} {move : Move} {rest : List Frame}
    (hready : m.ready = id :: ready) (ha : (m.task? id).bind (Task.advance m.world id) = some (move, rest))
    (h : m.step = some m') : m'.flight = m.flight.proceed id move rest := by
  unfold step at h
  rw [hready] at h
  dsimp only at h
  rw [ha] at h
  dsimp only at h
  split at h <;> (cases h; rfl)

/-- The task in front takes a step, if it can take one. -/
theorem flight_step (h : m.step = some m') :
    ∃ id, m.ready.head? = some id ∧
      (((m.flight.task? id).bind (Task.advance m.world id) = none ∧ m'.flight = m.flight) ∨
        Flight.Goes m.flight (.go id) m'.flight) := by
  cases hready : m.ready with
  | nil =>
      unfold step at h
      rw [hready] at h
      cases h
  | cons id ready =>
      refine ⟨id, rfl, ?_⟩
      cases ha : (m.task? id).bind (Task.advance m.world id) with
      | none =>
          unfold step at h
          rw [hready] at h
          dsimp only at h
          rw [ha] at h
          cases h
          exact .inl ⟨ha, rfl⟩
      | some next =>
          obtain ⟨t, ht, hadvance⟩ := Option.bind_eq_some_iff.1 ha
          refine .inr ?_
          rw [flight_of_advance hready ha h]
          exact .go ht hadvance

/-- The first step of a call that was just started is its own. -/
theorem flight_spawn {c : Call} (h : (m.spawn c).1.step = some m') : m'.flight = m.flight.start c := by
  refine flight_of_advance rfl ?_ h
  simp [spawn, task?, Task.advance, Flight.next, flight]

theorem exists_step_of_spawn (m : Machine) (c : Call) : ∃ m', (m.spawn c).1.step = some m' := by
  have ha : ((m.spawn c).1.task? m.flight.next).bind (Task.advance m.world m.flight.next) =
      some (Move.begin m.world m.flight.next c, []) := by
    simp [spawn, task?, Task.advance, Flight.next, flight]
  have hready : (m.spawn c).1.ready = m.flight.next :: m.ready := rfl
  unfold step
  rw [hready]
  dsimp only
  rw [show (m.spawn c).1.world = m.world from rfl, ha]
  dsimp only
  split
  · exact ⟨_, rfl⟩
  · exact ⟨_, rfl⟩

/-- What a machine does by itself is nothing but steps of its tasks. -/
theorem goes_settle (m : Machine) (fuel : Nat) :
    ReflTransGen (fun f f' => ∃ id, Flight.Goes f (.go id) f') m.flight (m.settle fuel).flight := by
  induction fuel generalizing m with
  | zero => exact .refl
  | succ fuel ih =>
      cases hstep : m.step with
      | none => rw [settle, hstep]
      | some m' =>
          rw [settle, hstep]
          obtain ⟨id, -, ⟨-, heq⟩ | hgo⟩ := flight_step hstep
          · exact heq ▸ ih m'
          · exact .head ⟨id, hgo⟩ (ih m')

theorem goes_settle_spawn (m : Machine) (c : Call) (fuel : Nat) :
    ReflTransGen (fun f f' => ∃ id, Flight.Goes f (.go id) f') (m.flight.start c)
      ((m.spawn c).1.settle (fuel + 1)).flight := by
  obtain ⟨m', hstep⟩ := m.exists_step_of_spawn c
  rw [settle, hstep, ← flight_spawn hstep]
  exact m'.goes_settle fuel

end Machine

end ScriptedText
