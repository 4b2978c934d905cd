import Mathlib.Data.Fintype.Pigeonhole
import Mathlib.Dynamics.PeriodicPts.Defs
import ScriptedText.Proofs.Engine.Apart
import ScriptedText.Proofs.Language.Command

/-!
Calls that all wait for one another. A lock is never lost and no call waits for itself; so when all calls wait for
locks, some of them wait in a ring.
-/

namespace ScriptedText

/-- Going on and on among finitely many, without ever staying where one is, leads around a cycle. -/
theorem exists_cycle {α : Type} [Finite α] [Nonempty α] {next : α → α} (hne : ∀ a, next a ≠ a) :
    ∃ n, ∃ cycle : Fin (n + 2) → α, Function.Injective cycle ∧ ∀ i, cycle (i + 1) = next (cycle i) := by
  obtain ⟨a⟩ := ‹Nonempty α›
  obtain ⟨m, n, hmn, heq⟩ := Finite.exists_ne_map_eq_of_infinite fun n : Nat => next^[n] a
  wlog hlt : m < n generalizing m n
  · exact this n m hmn.symm heq.symm (by omega)
  have hperiodic : Function.IsPeriodicPt next (n - m) (next^[m] a) := by
    unfold Function.IsPeriodicPt Function.IsFixedPt
    rw [← Function.iterate_add_apply, Nat.sub_add_cancel (Nat.le_of_lt hlt)]
    exact heq.symm
  have hpos := hperiodic.minimalPeriod_pos (by omega)
  generalize next^[m] a = start at hpos
  have htwo : Function.minimalPeriod next start ≠ 1 := fun hone =>
    hne start (Function.minimalPeriod_eq_one_iff_isFixedPt.1 hone)
  obtain ⟨k, hk⟩ : ∃ k, Function.minimalPeriod next start = k + 2 :=
    ⟨Function.minimalPeriod next start - 2, by omega⟩
  refine ⟨k, fun i => next^[i] start, fun i j hij => ?_, fun i => ?_⟩
  · have hinj := Function.iterate_injOn_Iio_minimalPeriod (f := next) (x := start)
    rw [hk] at hinj
    exact Fin.ext (hinj i.isLt j.isLt hij)
  · have hwrap : ((i + 1 : Fin (k + 2)) : Nat) = (i + 1) % (k + 2) := by simp [Fin.val_add]
    have hround : next^[(i + 1) % (k + 2)] start = next^[i + 1] start := by
      have hmod := Function.iterate_mod_minimalPeriod_eq (f := next) (x := start) (n := i + 1)
      rwa [hk] at hmod
    dsimp only
    rw [hwrap, hround]
    exact Function.iterate_succ_apply' ..

namespace Flight

variable {f₀ f : Flight} {homes : List ContextId} {id : TaskId} {t : Task} {r : RegistrationId}

def Waits (f : Flight) (id : TaskId) (r : RegistrationId) : Prop := ∃ t, f.task? id = some t ∧ t.waitsFor? = some r

def Has (f : Flight) (id : TaskId) (r : RegistrationId) : Prop := ∃ t, f.task? id = some t ∧ r ∈ t.locks

def InFlight (f : Flight) (id : TaskId) : Prop := ∃ t, f.task? id = some t ∧ t.isDone = false

/-- Some call is in flight, and each one waits for a lock. -/
structure Stuck (f : Flight) : Prop where
  inFlight : ∃ id, f.InFlight id
  waits : ∀ id, f.InFlight id → ∃ r, f.Waits id r

/-- Two or more calls in a ring, each of which waits for a lock that the next one has. -/
structure Ring (f : Flight) (n : Nat) (ring : Fin (n + 2) → TaskId) : Prop where
  injective : Function.Injective ring
  waits : ∀ i, ∃ r, f.Waits (ring i) r ∧ f.Has (ring (i + 1)) r

theorem inFlight_of_has (h : f.Has id r) : f.InFlight id := by
  obtain ⟨t, ht, hr⟩ := h
  refine ⟨t, ht, ?_⟩
  obtain ⟨stack, control⟩ := t
  cases stack with
  | nil => cases control <;> cases hr
  | cons f stack => cases control <;> rfl

instance (f : Flight) : Finite {id // f.InFlight id} := by
  refine Finite.of_injective (β := Fin f.tasks.length) (fun id => ⟨id.1.index, ?_⟩) fun id id' h => ?_
  · obtain ⟨t, ht, -⟩ := id.2
    exact (List.getElem?_eq_some_iff.1 ht).1
  · exact Subtype.ext (congrArg TaskId.mk (Fin.mk.inj h))

/-- Only the frame on top can be one that waits for its lock. -/
theorem holding_of_mem {reg : Registry} {c : ContextId} {stack : List Frame} (h : StackFits reg c stack)
    (hr : r ∈ heldLocks stack) : Frame.holding r ∈ stack := by
  induction stack with
  | nil => cases hr
  | cons frame stack ih =>
      cases frame with
      | granted r' inside => exact h.1.elim
      | holding r' =>
          rcases List.mem_cons.1 hr with rfl | hr
          · exact List.mem_cons_self ..
          · exact List.mem_cons_of_mem _ (ih h.2 hr)
      | _ => exact List.mem_cons_of_mem _ (ih h.2 hr)

namespace Apart

/-- A lock that is waited for is some call's. -/
theorem exists_has (h : Apart f₀ homes f) (hwaits : f.Waits id r) : ∃ id', f.Has id' r := by
  obtain ⟨t, ht, hr⟩ := hwaits
  have hqueue := (h.custody.mem_queue_iff ht r).2 hr
  have hlocked : (f.world.lock r).locked = true := by
    cases hlocked : (f.world.lock r).locked with
    | true => rfl
    | false =>
        rw [h.locksRest r hlocked] at hqueue
        cases hqueue
  exact h.custody.exists_holder hlocked

/-- What a call waits for it does not have. -/
theorem not_has_of_waits (h : Apart f₀ homes f) (hwaits : f.Waits id r) : ¬ f.Has id r := by
  obtain ⟨t, ht, hr⟩ := hwaits
  rintro ⟨t', ht', hhas⟩
  cases ht.symm.trans ht'
  obtain ⟨c, hc⟩ := h.exists_home ht
  cases h.homed.fits id t c ht hc with
  | @plain stack control hstack hcontrol =>
      cases control with
      | waiting =>
          cases stack with
          | nil => cases hr
          | cons frame stack =>
              cases frame with
              | granted r' inside => exact hstack.1
              | _ => cases hr
      | _ => cases hr
  | outside hstack hcontext hother hlock hcontrol =>
      rcases hcontrol with rfl | ⟨o, rfl⟩
      · cases hr
        exact hother (holding_of_mem hstack hhas)
      · cases hr

/-- Calls on different contexts that are stuck wait for one another in a ring. -/
theorem exists_ring_of_stuck (h : Apart f₀ homes f) (hstuck : f.Stuck) : ∃ n ring, f.Ring n ring := by
  -- From each call in flight to one that has what it waits for.
  have hnext (id : {id // f.InFlight id}) :
      ∃ id' : {id // f.InFlight id}, id' ≠ id ∧ ∃ r, f.Waits id r ∧ f.Has id' r := by
    obtain ⟨r, hwaits⟩ := hstuck.waits id id.2
    obtain ⟨id', hhas⟩ := h.exists_has hwaits
    refine ⟨⟨id', inFlight_of_has hhas⟩, ?_, r, hwaits, hhas⟩
    rintro rfl
    exact h.not_has_of_waits hwaits hhas
  choose next hne hwaits using hnext
  have hnonempty : Nonempty {id // f.InFlight id} := nonempty_subtype.2 hstuck.inFlight
  obtain ⟨n, cycle, hinjective, hcycle⟩ := exists_cycle hne
  refine ⟨n, fun i => cycle i, fun i j hij => hinjective (Subtype.ext hij), fun i => ?_⟩
  obtain ⟨r, hwait, hhas⟩ := hwaits (cycle i)
  refine ⟨r, hwait, ?_⟩
  rw [hcycle]
  exact hhas

end Apart

theorem stuck_of_all (hsome : f.tasks.any (fun t => !t.isDone) = true)
    (hall : f.tasks.all (fun t => t.isDone || t.waitsFor?.isSome) = true) : f.Stuck where
  inFlight := by
    obtain ⟨t, ht, hnot⟩ := List.any_eq_true.1 hsome
    obtain ⟨i, hi⟩ := List.getElem?_of_mem ht
    exact ⟨⟨i⟩, t, hi, by simpa using hnot⟩
  waits id := by
    rintro ⟨t, ht, hnot⟩
    have hwaits := List.all_eq_true.1 hall t (List.mem_of_getElem? ht)
    rw [hnot, Bool.false_or] at hwaits
    obtain ⟨r, hr⟩ := Option.isSome_iff_exists.1 hwaits
    exact ⟨r, t, ht, hr⟩

end Flight

/-- Two languages that run one program at a time. -/
def languagesWorld : World :=
  { tree := { origin := "" }
    registry := .ofAdapters [Command.adapter { tags := ["a"], extensions := [], threadSafe := false },
      Command.adapter { tags := ["b"], extensions := [], threadSafe := false }]
    sources := [{ storage := .memory "" }]
    contexts := [{}, {}]
    host := some ⟨⟨0⟩, [], { tag := "a" }⟩ }

def libraryWorld : World :=
  ((languagesWorld.setDocument ⟨0⟩ "inner a" "<%a print 1%>" "" none).1.setDocument ⟨0⟩ "inner b" "<%b print 2%>" ""
    none).1

/-- A program in the first language that includes one in the second. -/
def outwardDraft : Draft :=
  { tag := "a", document := "outward", registered := "outward", text := "<%a include \"inner b\"%>" }

/-- A program in the second language that includes one in the first. -/
def inwardDraft : Draft :=
  { tag := "b", document := "inward", registered := "inward", text := "<%b include \"inner a\"%>" }

def crossingWorld : World := ((libraryWorld.compile outwardDraft).1.compile inwardDraft).1

namespace Machine

/-- The first document has begun to run. -/
def departed : Machine :=
  (spawn { world := crossingWorld } (.execute ⟨⟨0⟩, ⟨0⟩, some .host, {}⟩ {})).1.settle 1

/-- The second one runs beside it, until nothing more can be done. -/
def crossed : Machine := (departed.spawn (.execute ⟨⟨1⟩, ⟨1⟩, some .host, {}⟩ {})).1.settle 200

theorem apart_crossed : Flight.Apart ⟨crossingWorld, []⟩ [⟨0⟩, ⟨1⟩] crossed.flight := by
  have hlanguages : Flight.Idle ⟨languagesWorld, []⟩ := by
    refine Flight.idle_of_adapters rfl (fun a ha => ?_) (fun x hx => ?_) rfl rfl
    · rcases List.mem_cons.1 ha with rfl | ha
      · exact Command.local_adapter _
      · cases List.mem_singleton.1 ha
        exact Command.local_adapter _
    · rcases List.mem_cons.1 hx with rfl | hx
      · rfl
      · exact List.mem_singleton.1 hx
  have hlibrary : Flight.Idle ⟨libraryWorld, []⟩ :=
    (hlanguages.looks (World.looks_setDocument ..)).looks (World.looks_setDocument ..)
  have hidle : Flight.Idle ⟨crossingWorld, []⟩ :=
    (hlibrary.looks (looks_compile _ outwardDraft)).looks (looks_compile _ inwardDraft)
  have hdeparted : Flight.Apart ⟨crossingWorld, []⟩ [⟨0⟩] departed.flight := by
    refine Flight.Apart.spawn (m := { world := crossingWorld }) (.idle hidle) (fun x hx => ?_) (fun id t ht => ?_) _
    · exact (Option.some.inj hx).symm
    · cases ht
  refine hdeparted.spawn (fun x hx => ?_) (fun id t ht hhome => ?_) _
  · exact (Option.some.inj hx).symm
  · cases List.mem_singleton.1 (List.mem_of_getElem? hhome)

theorem stuck_crossed : crossed.flight.Stuck := by
  have hlook : crossed.flight.tasks.any (fun t => !t.isDone) = true ∧
      crossed.flight.tasks.all (fun t => t.isDone || t.waitsFor?.isSome) = true := by decide +kernel
  exact Flight.stuck_of_all hlook.1 hlook.2

/-- Each of the documents has the lock of its language, and waits for the other's. -/
theorem stuck_of_crossing :
    Flight.Apart ⟨crossingWorld, []⟩ [⟨0⟩, ⟨1⟩] crossed.flight ∧ crossed.flight.Stuck :=
  ⟨apart_crossed, stuck_crossed⟩

theorem ring_of_crossing : crossed.flight.Stuck ∧ ∃ n ring, crossed.flight.Ring n ring :=
  ⟨stuck_crossed, apart_crossed.exists_ring_of_stuck stuck_crossed⟩

end Machine

end ScriptedText
