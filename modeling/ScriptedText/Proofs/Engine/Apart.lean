import ScriptedText.Proofs.Engine.Confinement
import ScriptedText.Proofs.Engine.Custody

/-!
Calls in flight, no two of them on one context. The owner of a lock then tells which call has it.
-/

namespace ScriptedText

/-- The context that a call works on, if it works on one. -/
def Call.context? (w : World) : Call → Option ContextId
  | .execute run _ | .makeEnterable run => some run.context
  | .enter e _ _ => (w.executable e).claimed
  | .include _ c | .runSource _ c | .runOnce _ c => some c
  | _ => none

def Task.isDone (t : Task) : Bool := t.result?.isSome

namespace Flight

/-- No call is in flight, and what calls are to be made of keeps to its context. -/
structure Idle (f : Flight) : Prop where
  tasks : f.tasks = []
  locks : ∀ r, f.world.lock r = {}
  waiters : f.world.waiters = []
  confined : f.world.Confined

/-- What an idle flight can come to while each call that starts works on a context that no call in flight works on.
The contexts of the calls so far are listed. -/
inductive Apart (f₀ : Flight) : List ContextId → Flight → Prop
  | idle (h : f₀.Idle) : Apart f₀ [] f₀
  | call {homes : List ContextId} {f : Flight} (h : Apart f₀ homes f) (c : Call) (home : ContextId)
      (hhome : ∀ x ∈ c.context? f.world, x = home)
      (hfresh : ∀ id t, f.task? id = some t → homes[id.index]? = some home → t.isDone = true) :
      Apart f₀ (homes ++ [home]) (f.start c)
  | step {homes : List ContextId} {f f' : Flight} {d : Deed} (h : Apart f₀ homes f) (hd : ∀ c, d ≠ .call c)
      (hgo : f.Goes d f') : Apart f₀ homes f'

/-- Each call keeps to its context, and the owner of a lock is the context of the call that is inside with it. -/
structure Homed (homes : List ContextId) (f : Flight) : Prop where
  confined : f.world.Confined
  fits : ∀ id t c, f.task? id = some t → homes[id.index]? = some c → t.Fits f.world.registry c
  owner : ∀ r c, (f.world.lock r).owner = some c →
    ∃ id t, f.task? id = some t ∧ homes[id.index]? = some c ∧ Frame.holding r ∈ t.stack
  owned : ∀ id t c r, f.task? id = some t → homes[id.index]? = some c → Frame.holding r ∈ t.stack →
    (f.world.lock r).owner = some c
  apart : ∀ id id' t t' c, f.task? id = some t → f.task? id' = some t' → t.isDone = false → t'.isDone = false →
    homes[id.index]? = some c → homes[id'.index]? = some c → id = id'

end Flight

section moves

variable {w : World} {id : TaskId} {control : Control} {popped rest : List Frame} {m : Move} {r : RegistrationId}

theorem not_holding_of_isPlain {frames : List Frame} (h : frames.all Frame.isPlain) (r : RegistrationId) :
    Frame.holding r ∉ frames := by
  intro hr
  cases List.all_eq_true.1 h _ hr

/-- Locks come to be another's only where a task goes inside with one or leaves with it. -/
inductive Move.Owns (w : World) : List Frame → Move → Prop
  | same {popped : List Frame} {m : Move} (howner : ∀ r, (m.world.lock r).owner = (w.lock r).owner)
      (hpush : ∀ r, Frame.holding r ∉ m.push) (hpopped : ∀ r, Frame.holding r ∉ popped) : Owns w popped m
  | enters {m : Move} (r : RegistrationId) (inside : Inside)
      (howner : ∀ r', (m.world.lock r').owner = if r' = r then some inside.context else (w.lock r').owner)
      (hpush : ∀ r', Frame.holding r' ∈ m.push ↔ r' = r) : Owns w [.granted r inside] m
  | leaves {m : Move} (r : RegistrationId)
      (howner : ∀ r', (m.world.lock r').owner = if r' = r then none else (w.lock r').owner) (hpush : m.push = []) :
      Owns w [.holding r] m

theorem Lock.owner_of_isHeldBy {l : Lock ContextId TaskId} {c : ContextId} (h : l.isHeldBy c = true) :
    l.owner = some c := of_decide_eq_true (Bool.and_eq_true_iff.1 h).2

theorem Lock.owner_leave (l : Lock ContextId TaskId) : l.leave.1.owner = none := by
  unfold leave release
  split <;> rfl

theorem Move.Deals.owns (h : Move.Deals w id control popped m) : Move.Owns w popped m := by
  have hquiet {popped : List Frame} (h : popped.all Frame.isQuiet) (r : RegistrationId) : Frame.holding r ∉ popped := by
    intro hr
    cases List.all_eq_true.1 h _ hr
  cases h with
  | quiet hpopped h =>
      exact .same (fun r => congrArg Lock.owner (h.evolves.lock_eq r)) (not_holding_of_isPlain h.push) (hquiet hpopped)
  | gate gate s k => exact .same (fun _ => rfl) (fun _ => by simp) (fun _ => List.not_mem_nil)
  | @takes _ _ push w₁ r inside hpopped hpush hworld hfree =>
      refine .same (fun r' => ?_) (fun r' => ?_) (hquiet hpopped)
      · exact (World.lock_setLock_keeps Lock.owner (by rfl) r').trans (congrArg Lock.owner (hworld.lock_eq r'))
      · simpa using not_holding_of_isPlain hpush r'
  | @queues _ _ push w₁ r inside hpopped hpush hworld hlocked hother =>
      refine .same (fun r' => ?_) (fun r' => ?_) (hquiet hpopped)
      · exact (World.lock_setLock_keeps Lock.owner (by rfl) r').trans (congrArg Lock.owner (hworld.lock_eq r'))
      · simpa using not_holding_of_isPlain hpush r'
  | enters o r inside =>
      have hgo := Move.quiet_goInside (w.setLock r ((w.lock r).claim inside.context)) inside
      refine .enters r inside (fun r' => ?_) fun r' => ?_
      · refine (congrArg Lock.owner ((hgo.evolves.lock_eq r').trans (World.lock_setLock ..))).trans ?_
        split <;> rfl
      · unfold Move.afterGranted Move.under
        rw [List.mem_append, or_iff_right (not_holding_of_isPlain hgo.push r')]
        simp
  | leaves o r =>
      refine .leaves r (fun r' => ?_) rfl
      refine (congrArg Lock.owner (World.lock_setLock ..)).trans ?_
      split
      · exact (w.lock r).owner_leave
      · rfl
  | fails o run outcome h f =>
      exact .same (fun r => congrArg Lock.owner (World.lock_eq_of_locks h.locks_eq r)) (fun _ => List.not_mem_nil) (by simp)
  | _ => exact .same (fun _ => rfl) (by simp [Move.call, Move.reply, Move.refuse, Move.settle, Move.close]) (by simp)

namespace Move.Owns

variable {c x : ContextId}

theorem owner_eq (h : Move.Owns w popped m) (hr : r ∉ heldLocks popped) :
    (m.world.lock r).owner = (w.lock r).owner := by
  cases h with
  | same howner hpush hpopped => exact howner r
  | enters r₀ inside howner hpush =>
      rw [howner, if_neg]
      rintro rfl
      exact hr (List.mem_cons_self ..)
  | leaves r₀ howner hpush =>
      rw [howner, if_neg]
      rintro rfl
      exact hr (List.mem_cons_self ..)

variable (hgranted : ∀ r inside, popped = [.granted r inside] → inside.context = c)

include hgranted

theorem owner_of_push (h : Move.Owns w popped m) (hr : Frame.holding r ∈ m.push) : (m.world.lock r).owner = some c := by
  cases h with
  | same howner hpush hpopped => exact absurd hr (hpush r)
  | enters r₀ inside howner hpush =>
      rw [howner, if_pos ((hpush r).1 hr), hgranted r₀ inside rfl]
  | leaves r₀ howner hpush =>
      rw [hpush] at hr
      cases hr

/-- Who has a lock has come inside with it, or had it before and did not leave. -/
theorem owner_cases (h : Move.Owns w popped m) (hx : (m.world.lock r).owner = some x) :
    (x = c ∧ Frame.holding r ∈ m.push) ∨ (Frame.holding r ∉ popped ∧ (w.lock r).owner = some x) := by
  cases h with
  | same howner hpush hpopped => exact .inr ⟨hpopped r, (howner r).symm.trans hx⟩
  | enters r₀ inside howner hpush =>
      rw [howner] at hx
      split at hx
      · next hr =>
          cases hx
          exact .inl ⟨hgranted r₀ inside rfl, (hpush r).2 hr⟩
      · exact .inr ⟨by simp, hx⟩
  | leaves r₀ howner hpush =>
      rw [howner] at hx
      split at hx
      · cases hx
      · next hr => exact .inr ⟨by simpa using hr, hx⟩

end Move.Owns

end moves

theorem Task.not_isDone_of_advance {w : World} {id : TaskId} {t : Task} {m : Move} {rest : List Frame}
    (h : t.advance w id = some (m, rest)) : t.isDone = false := by
  obtain ⟨stack, control⟩ := t
  cases control with
  | settled o =>
      cases stack with
      | nil => cases h
      | cons f stack => rfl
  | _ => rfl

theorem Task.not_isDone_of_holding {t : Task} {r : RegistrationId} (h : Frame.holding r ∈ t.stack) : t.isDone = false := by
  obtain ⟨stack, control⟩ := t
  cases stack with
  | nil => cases h
  | cons f stack => cases control <;> rfl

theorem Task.isDone_woken {t : Task} (h : t.woken.isDone = false) : t.isDone = false := by
  obtain ⟨stack, control⟩ := t
  cases stack with
  | nil => cases h
  | cons f stack => cases control <;> rfl

theorem Task.Fits.context_of_granted {reg : Registry} {c : ContextId} {t : Task} {r : RegistrationId} {inside : Inside}
    {rest : List Frame} (h : t.Fits reg c) (hstack : t.stack = [.granted r inside] ++ rest) : inside.context = c := by
  cases h with
  | plain hfits hcontrol =>
      cases hstack
      exact hfits.1.elim
  | outside hfits hcontext hother hlock hcontrol =>
      cases hstack
      exact hcontext

theorem Context.Local.erase {c : ContextId} {x : Context} (h : x.Local c) (a : AdapterId) :
    Context.Local c { x with notes := x.notes.erase a } := by
  refine ⟨h.services, fun a' n hn => ?_⟩
  unfold notesOf at hn
  dsimp only at hn
  rw [OrderedMap.get?_erase] at hn
  split at hn
  · cases hn
  · exact h.notes a' n hn

theorem World.Confined.release {w : World} (h : w.Confined) (e : ExecutableId) : (w.release e).Confined := by
  have hregistry := w.registry_release e
  refine ⟨?_, hregistry ▸ h.adapters, hregistry ▸ h.coherent⟩
  unfold World.release
  split
  · exact h.contexts
  · next c hc =>
      have hunclaimed : ((w.modifyExecutable e Executable.unclaim).modifyContext c fun x =>
          { x with immutable := false }).Local :=
        Local.modifyContext (h.contexts.of_contexts rfl) c ((h.contexts c).of_eq rfl rfl)
      have herased (a : AdapterId) : (((w.modifyExecutable e Executable.unclaim).modifyContext c fun x =>
          { x with immutable := false }).modifyContext c fun x => { x with notes := x.notes.erase a }).Local :=
        hunclaimed.modifyContext c ((hunclaimed c).erase a)
      dsimp only
      split
      · exact hunclaimed
      · split
        · split
          · exact (herased _).of_contexts rfl
          · exact herased _
        · exact hunclaimed

theorem Move.fits_start {w : World} (hw : w.Confined) {id : TaskId} {home : ContextId} {asked : Call}
    (hhome : ∀ x ∈ asked.context? w, x = home) (hfree : ∀ r, (w.lock r).isHeldBy home = false) :
    Move.Fits w.registry home [] (Move.begin w id asked) := by
  have hnil : StackFits w.registry home [] := trivial
  cases asked with
  | execute run options => exact fits_begin hw hnil (hhome _ rfl)
  | makeEnterable run =>
      unfold begin makeEnterable
      dsimp only
      split
      · exact fits_settle hw.contexts hnil _
      · exact ⟨hw.contexts, .plain ⟨hhome _ rfl, trivial⟩ (hhome _ rfl)⟩
  | enter e name args =>
      refine fits_enter hw hnil (fun x hx => hhome x hx) (fun r => ?_) name args
      rw [hfree]
      simp
  | «include» name x => exact fits_begin hw hnil (hhome _ rfl)
  | runSource name x => exact fits_begin hw hnil (hhome _ rfl)
  | runOnce name x => exact fits_begin hw hnil (hhome _ rfl)
  | _ => exact (searches_begin w id rfl).fits hw.contexts hnil

namespace Flight

theorem Goes.length_eq {f f' : Flight} {d : Deed} (h : f.Goes d f') (hd : ∀ c, d ≠ .call c) :
    f'.tasks.length = f.tasks.length := by
  cases h with
  | call c => exact absurd rfl (hd c)
  | go ht ha => exact length_proceed ..
  | openGate gate => exact length_wake _
  | _ => rfl

theorem Idle.custody {f : Flight} (h : f.Idle) : Custody f := .empty h.tasks h.locks h.waiters

variable {f f' : Flight} {homes : List ContextId} {id : TaskId} {t t' : Task} {c : ContextId} {w' : World}

namespace Homed

theorem wake (h : Homed homes f) (ids : List TaskId) : Homed homes (f.wake ids) := by
  have hbefore {id : TaskId} {t : Task} (ht : (f.wake ids).task? id = some t) :
      ∃ t₀, f.task? id = some t₀ ∧ (t = t₀ ∨ t = t₀.woken) := by
    rw [task?_wake] at ht
    split at ht
    · obtain ⟨t₀, ht₀, rfl⟩ := Option.map_eq_some_iff.1 ht
      exact ⟨t₀, ht₀, .inr rfl⟩
    · exact ⟨t, ht, .inl rfl⟩
  have hdone {t t₀ : Task} (ht : t = t₀ ∨ t = t₀.woken) (hnot : t.isDone = false) : t₀.isDone = false := by
    rcases ht with rfl | rfl
    · exact hnot
    · exact Task.isDone_woken hnot
  have hstack {t t₀ : Task} (ht : t = t₀ ∨ t = t₀.woken) : t.stack = t₀.stack := by
    rcases ht with rfl | rfl <;> rfl
  refine ⟨h.confined, fun id t c ht hc => ?_, fun r c hr => ?_, fun id t c r ht hc hr => ?_,
    fun id id' t t' c ht ht' hnot hnot' hc hc' => ?_⟩
  · obtain ⟨t₀, ht₀, rfl | rfl⟩ := hbefore ht
    · exact h.fits id t c ht₀ hc
    · exact (h.fits id t₀ c ht₀ hc).woken
  · obtain ⟨id, t, ht, hc, hholding⟩ := h.owner r c hr
    by_cases hid : id ∈ ids
    · exact ⟨id, t.woken, by rw [task?_wake, if_pos hid, ht]; rfl, hc, hholding⟩
    · exact ⟨id, t, by rw [task?_wake, if_neg hid, ht], hc, hholding⟩
  · obtain ⟨t₀, ht₀, heq⟩ := hbefore ht
    rw [hstack heq] at hr
    exact h.owned id t₀ c r ht₀ hc hr
  · obtain ⟨t₀, ht₀, heq⟩ := hbefore ht
    obtain ⟨t₀', ht₀', heq'⟩ := hbefore ht'
    exact h.apart id id' t₀ t₀' c ht₀ ht₀' (hdone heq hnot) (hdone heq' hnot') hc hc'

/-- A task changes that keeps to its context, and only locks that no other task has change owner. -/
theorem set (h : Homed homes f) (ht : f.task? id = some t) (hc : homes[id.index]? = some c) (hnot : t.isDone = false)
    (hworld : w'.Confined) (hregistry : w'.registry = f.world.registry) (hfits : t'.Fits f.world.registry c)
    (howner : ∀ r x, (w'.lock r).owner = some x → (x = c ∧ Frame.holding r ∈ t'.stack) ∨
      (Frame.holding r ∉ t.stack ∧ (f.world.lock r).owner = some x))
    (howned : ∀ r, Frame.holding r ∈ t'.stack → (w'.lock r).owner = some c)
    (hother : ∀ r, ∀ id' ≠ id, ∀ u, f.task? id' = some u → Frame.holding r ∈ u.stack →
      (w'.lock r).owner = (f.world.lock r).owner) :
    Homed homes ⟨w', f.tasks.set id.index t'⟩ := by
  have hsome : (f.task? id).isSome = true := by rw [ht]; rfl
  have htask := task?_set id t' w' hsome
  have hself : task? ⟨w', f.tasks.set id.index t'⟩ id = some t' := by rw [htask, if_pos rfl]
  refine ⟨hworld, fun id' u x hu hx => ?_, fun r x hr => ?_, fun id' u x r hu hx hr => ?_,
    fun id₁ id₂ t₁ t₂ x ht₁ ht₂ hnot₁ hnot₂ hx₁ hx₂ => ?_⟩
  · rw [hregistry]
    rw [htask] at hu
    split at hu
    · next hid =>
        cases hu
        subst hid
        cases hc.symm.trans hx
        exact hfits
    · exact h.fits id' u x hu hx
  · rcases howner r x hr with ⟨rfl, hholding⟩ | ⟨hnone, hold⟩
    · exact ⟨id, t', hself, hc, hholding⟩
    · obtain ⟨id', u, hu, hx, hholding⟩ := h.owner r x hold
      have hid : id' ≠ id := by
        rintro rfl
        cases ht.symm.trans hu
        exact hnone hholding
      exact ⟨id', u, by rw [htask, if_neg hid]; exact hu, hx, hholding⟩
  · rw [htask] at hu
    split at hu
    · next hid =>
        cases hu
        subst hid
        cases hc.symm.trans hx
        exact howned r hr
    · next hid => exact (hother r id' hid u hu hr).trans (h.owned id' u x r hu hx hr)
  · have hbefore {id' : TaskId} {u : Task} (hu : task? ⟨w', f.tasks.set id.index t'⟩ id' = some u)
        (hdone : u.isDone = false) : ∃ u₀, f.task? id' = some u₀ ∧ u₀.isDone = false := by
      rw [htask] at hu
      split at hu
      · next hid => exact ⟨t, hid ▸ ht, hnot⟩
      · exact ⟨u, hu, hdone⟩
    obtain ⟨u₁, hu₁, hdone₁⟩ := hbefore ht₁ hnot₁
    obtain ⟨u₂, hu₂, hdone₂⟩ := hbefore ht₂ hnot₂
    exact h.apart id₁ id₂ u₁ u₂ x hu₁ hu₂ hdone₁ hdone₂ hx₁ hx₂

/-- The locks that a context has are those that its call is inside with. -/
theorem isHeldBy_iff (h : Homed homes f) (hcustody : Custody f) (ht : f.task? id = some t)
    (hc : homes[id.index]? = some c) (hnot : t.isDone = false) (r : RegistrationId) :
    (f.world.lock r).isHeldBy c = true ↔ Frame.holding r ∈ t.stack := by
  unfold Lock.isHeldBy
  rw [Bool.and_eq_true, decide_eq_true_iff]
  constructor
  · intro ⟨_, howner⟩
    obtain ⟨id', u, hu, hx, hholding⟩ := h.owner r c howner
    cases h.apart id id' t u c ht hu hnot (Task.not_isDone_of_holding hholding) hc hx
    cases ht.symm.trans hu
    exact hholding
  · intro hholding
    exact ⟨hcustody.locked_of_mem ht (Task.mem_locks_of_holding hholding), h.owned id t c r ht hc hholding⟩

/-- A task makes a move on its context. What it has of locks no other task has, and no lock twice. -/
theorem move (h : Homed homes f) {popped rest : List Frame} {m : Move} (ht : f.task? id = some t)
    (hc : homes[id.index]? = some c) (hnot : t.isDone = false) (hstack : t.stack = popped ++ rest)
    (howns : Move.Owns f.world popped m) (hregistry : m.world.registry = f.world.registry)
    (hmove : Move.Fits f.world.registry c rest m) (honce : ∀ r, (heldLocks t.stack).count r ≤ 1)
    (halone : ∀ r ∈ heldLocks t.stack, ∀ id' ≠ id, ∀ u, f.task? id' = some u → Frame.holding r ∉ u.stack) :
    Homed homes (f.proceed id m rest) := by
  have hworld : m.world.Confined :=
    ⟨hmove.contexts, hregistry ▸ h.confined.adapters, hregistry ▸ h.confined.coherent⟩
  have hgranted (r : RegistrationId) (inside : Inside) (heq : popped = [.granted r inside]) : inside.context = c :=
    (h.fits id t c ht hc).context_of_granted (heq ▸ hstack)
  have hrest {r : RegistrationId} (hr : Frame.holding r ∈ rest) : (f.world.lock r).owner = some c :=
    h.owned id t c r ht hc (hstack ▸ List.mem_append_right _ hr)
  have hlocks : heldLocks t.stack = heldLocks popped ++ heldLocks rest := hstack ▸ heldLocks_append popped rest
  refine Homed.wake (h.set ht hc hnot hworld hregistry hmove.task ?_ ?_ ?_) m.wake
  · intro r x hx
    rcases howns.owner_cases hgranted hx with ⟨rfl, hpush⟩ | ⟨hpopped, hold⟩
    · exact .inl ⟨rfl, List.mem_append_left _ hpush⟩
    · by_cases hr : Frame.holding r ∈ rest
      · exact .inl ⟨Option.some.inj (hold.symm.trans (hrest hr)), List.mem_append_right _ hr⟩
      · refine .inr ⟨?_, hold⟩
        rw [hstack, List.mem_append]
        exact fun hr' => hr'.elim hpopped hr
  · intro r hr
    rcases List.mem_append.1 hr with hpush | hr
    · exact howns.owner_of_push hgranted hpush
    · rw [howns.owner_eq, hrest hr]
      -- The lock would be on the stack twice.
      intro hpopped
      have hcount := honce r
      rw [hlocks, List.count_append] at hcount
      have hpos := List.count_pos_iff.2 hpopped
      have hposRest : 0 < (heldLocks rest).count r := List.count_pos_iff.2 (List.mem_filterMap.2 ⟨_, hr, rfl⟩)
      omega
  · intro r id' hid u hu hr
    refine howns.owner_eq fun hpopped => halone r ?_ id' hid u hu hr
    rw [hlocks]
    exact List.mem_append_left _ hpopped

theorem proceed (h : Homed homes f) (hcustody : Custody f) {m : Move} {rest : List Frame} (ht : f.task? id = some t)
    (hc : homes[id.index]? = some c) (ha : t.advance f.world id = some (m, rest)) : Homed homes (f.proceed id m rest) := by
  have hnot := Task.not_isDone_of_advance ha
  have hlocks := Task.locks_eq (Task.isWaiting_of_advance ha)
  have hmove := (h.fits id t c ht hc).advance h.confined (h.isHeldBy_iff hcustody ht hc hnot) ha
  obtain ⟨popped, hstack, hdeals⟩ := Task.deals_of_advance ha
  refine h.move ht hc hnot hstack hdeals.owns hdeals.registry_eq hmove (fun r => ?_) fun r hr id' hid u hu hholding => ?_
  · rw [← hlocks]
    exact hcustody.count_le_one ht r
  · rw [← hlocks] at hr
    exact hid (hcustody.holder_unique hu ht (Task.mem_locks_of_holding hholding) hr)

theorem home?_concat (hlength : homes.length = f.tasks.length) (home : ContextId) (id : TaskId) :
    (homes ++ [home])[id.index]? = if id = f.next then some home else homes[id.index]? := by
  rw [getElem?_concat, hlength]
  simp only [index_eq_length]

/-- A task has its place before it does anything, on a context on which no call is in flight. -/
theorem place (h : Homed homes f) (hlength : homes.length = f.tasks.length) {home : ContextId}
    (hfresh : ∀ id t, f.task? id = some t → homes[id.index]? = some home → t.isDone = true) :
    Homed (homes ++ [home]) { f with tasks := f.tasks ++ [⟨[], .waiting⟩] } := by
  have hhomes := home?_concat hlength home
  have htask (id : TaskId) : task? { f with tasks := f.tasks ++ [⟨[], .waiting⟩] } id =
      if id = f.next then some ⟨[], .waiting⟩ else f.task? id := task?_concat _ id
  have hold {id : TaskId} {t : Task} (ht : f.task? id = some t) : id ≠ f.next := by
    rintro rfl
    simp [task?, next] at ht
  refine ⟨h.confined, fun id t c ht hc => ?_, fun r c hr => ?_, fun id t c r ht hc hr => ?_,
    fun id id' t t' c ht ht' hnot hnot' hc hc' => ?_⟩
  · rw [htask] at ht
    rw [hhomes] at hc
    split at ht
    · cases ht
      exact .plain trivial trivial
    · next hid =>
        rw [if_neg hid] at hc
        exact h.fits id t c ht hc
  · obtain ⟨id, t, ht, hc, hholding⟩ := h.owner r c hr
    exact ⟨id, t, by rw [htask, if_neg (hold ht)]; exact ht, by rw [hhomes, if_neg (hold ht)]; exact hc, hholding⟩
  · rw [htask] at ht
    rw [hhomes] at hc
    split at ht
    · cases ht
      cases hr
    · next hid =>
        rw [if_neg hid] at hc
        exact h.owned id t c r ht hc hr
  · rw [htask] at ht ht'
    rw [hhomes] at hc hc'
    by_cases hid : id = f.next
    · by_cases hid' : id' = f.next
      · exact hid.trans hid'.symm
      · rw [if_pos hid] at hc
        rw [if_neg hid'] at ht' hc'
        cases hc
        cases (hfresh id' t' ht' hc').symm.trans hnot'
    · rw [if_neg hid] at ht hc
      by_cases hid' : id' = f.next
      · rw [if_pos hid'] at hc'
        cases hc'
        cases (hfresh id t ht hc).symm.trans hnot
      · rw [if_neg hid'] at ht' hc'
        exact h.apart id id' t t' c ht ht' hnot hnot' hc hc'

theorem start (h : Homed homes f) (hlength : homes.length = f.tasks.length) {asked : Call} {home : ContextId}
    (hhome : ∀ x ∈ asked.context? f.world, x = home)
    (hfresh : ∀ id t, f.task? id = some t → homes[id.index]? = some home → t.isDone = true) :
    Homed (homes ++ [home]) (f.start asked) := by
  have hfree (r : RegistrationId) : (f.world.lock r).isHeldBy home = false := by
    refine Bool.eq_false_iff.2 fun hheld => ?_
    obtain ⟨id, t, ht, hc, hholding⟩ := h.owner r home (Lock.owner_of_isHeldBy hheld)
    cases (hfresh id t ht hc).symm.trans (Task.not_isDone_of_holding hholding)
  have hdeals : Move.Deals f.world f.next (.call asked) [] (Move.begin f.world f.next asked) := Move.deals_begin asked
  have hnext : task? { f with tasks := f.tasks ++ [⟨[], .waiting⟩] } f.next = some ⟨[], .waiting⟩ :=
    (task?_concat _ f.next).trans (if_pos rfl)
  have hnextHome : (homes ++ [home])[f.next.index]? = some home := (home?_concat hlength home f.next).trans (if_pos rfl)
  have hmoved := (h.place hlength hfresh).move hnext hnextHome rfl rfl hdeals.owns hdeals.registry_eq
    (Move.fits_start h.confined hhome hfree) (fun _ => Nat.zero_le _) fun r hr => absurd hr List.not_mem_nil
  have hset (t t' : Task) : (f.tasks ++ [t]).set f.next.index t' = f.tasks ++ [t'] := by simp [next]
  have hstart : f.start asked = Flight.proceed { f with tasks := f.tasks ++ [⟨[], .waiting⟩] } f.next
      (Move.begin f.world f.next asked) [] := by
    unfold Flight.start Flight.proceed Flight.spawn
    rw [hset, hset]
  rw [hstart]
  exact hmoved

theorem congr {tasks : List Task} {w : World} (h : Homed homes ⟨w, tasks⟩) (hworld : w'.Confined)
    (hregistry : w'.registry = w.registry) (hlocks : ∀ r, w'.lock r = w.lock r) : Homed homes ⟨w', tasks⟩ where
  confined := hworld
  fits id t c ht hc := hregistry ▸ h.fits id t c ht hc
  owner r c hr := h.owner r c (hlocks r ▸ hr)
  owned id t c r ht hc hr := hlocks r ▸ h.owned id t c r ht hc hr
  apart := h.apart

theorem step (h : Homed homes f) (hcustody : Custody f) (hlength : homes.length = f.tasks.length) {d : Deed}
    (hd : ∀ c, d ≠ .call c) (hgo : f.Goes d f') : Homed homes f' := by
  cases hgo with
  | call c => exact absurd rfl (hd c)
  | @go id t m rest ht ha =>
      have hlt : id.index < homes.length := hlength ▸ (List.getElem?_eq_some_iff.1 ht).1
      exact h.proceed hcustody ht (List.getElem?_eq_getElem hlt) ha
  | openGate gate =>
      have hopen : Homed homes ⟨{ f.world with
          openGates := gate :: f.world.openGates, waiters := f.world.waiters.filter (·.1 ≠ gate) }, f.tasks⟩ :=
        h.congr ⟨h.confined.contexts, h.confined.adapters, h.confined.coherent⟩ rfl fun _ => rfl
      exact hopen.wake _
  | release e =>
      exact h.congr (h.confined.release e) (World.registry_release f.world e)
        (World.lock_eq_of_locks (World.locks_release f.world e))
  | tick now hnow => exact h.congr ⟨h.confined.contexts, h.confined.adapters, h.confined.coherent⟩ rfl fun _ => rfl
  | keep e duration =>
      exact h.congr ⟨h.confined.contexts.of_contexts rfl, h.confined.adapters, h.confined.coherent⟩ rfl fun _ => rfl

end Homed

namespace Apart

variable {f₀ : Flight}

theorem length_eq (h : Apart f₀ homes f) : homes.length = f.tasks.length := by
  induction h with
  | idle h => rw [h.tasks]; rfl
  | call h c home hhome hfresh ih => rw [List.length_append, length_start, ih]; rfl
  | step h hd hgo ih => rw [ih, hgo.length_eq hd]

theorem custody (h : Apart f₀ homes f) : Custody f := by
  induction h with
  | idle h => exact h.custody
  | call h c home hhome hfresh ih => exact ih.start c
  | step h hd hgo ih => exact ih.goes hgo

theorem locksRest (h : Apart f₀ homes f) : f.world.LocksRest := by
  induction h with
  | idle h =>
      intro r _
      rw [h.locks r]
  | call h c home hhome hfresh ih => exact (Goes.call _ c).locksRest ih
  | step h hd hgo ih => exact hgo.locksRest ih

theorem homed (h : Apart f₀ homes f) : Homed homes f := by
  induction h with
  | idle h =>
      refine ⟨h.confined, fun id t c ht => ?_, fun r c hr => ?_, fun id t c r ht => ?_, fun id id' t t' c ht => ?_⟩
      · simp [task?, h.tasks] at ht
      · rw [h.locks r] at hr
        cases hr
      · simp [task?, h.tasks] at ht
      · simp [task?, h.tasks] at ht
  | call h c home hhome hfresh ih => exact ih.start h.length_eq hhome hfresh
  | step h hd hgo ih => exact ih.step h.custody h.length_eq hd hgo

theorem exists_home (h : Apart f₀ homes f) (ht : f.task? id = some t) : ∃ c, homes[id.index]? = some c := by
  have hlt : id.index < homes.length := h.length_eq ▸ (List.getElem?_eq_some_iff.1 ht).1
  exact ⟨_, List.getElem?_eq_getElem hlt⟩

theorem goes {f' : Flight} (h : Apart f₀ homes f) (hgo : Relation.ReflTransGen (fun f f' => ∃ id, Goes f (.go id) f') f f') :
    Apart f₀ homes f' := by
  induction hgo with
  | refl => exact h
  | tail _ hstep ih =>
      obtain ⟨id, hgo⟩ := hstep
      refine ih.step (fun c hc => ?_) hgo
      cases hc

theorem spawn {m : Machine} (h : Apart f₀ homes m.flight) {c : Call} {home : ContextId}
    (hhome : ∀ x ∈ c.context? m.world, x = home)
    (hfresh : ∀ id t, m.flight.task? id = some t → homes[id.index]? = some home → t.isDone = true) (fuel : Nat) :
    Apart f₀ (homes ++ [home]) ((m.spawn c).1.settle (fuel + 1)).flight :=
  (h.call c home hhome hfresh).goes (m.goes_settle_spawn c fuel)

end Apart

theorem local_default (c : ContextId) : Context.Local c {} := ⟨nofun, nofun⟩

/-- Nothing is in flight in a world of new contexts, whose languages keep to theirs. -/
theorem idle_of_adapters {w : World} {adapters : List Adapter} (hregistry : w.registry = .ofAdapters adapters)
    (hlocal : ∀ a ∈ adapters, a.Local) (hcontexts : ∀ x ∈ w.contexts, x = {}) (hlocks : w.locks = ∅)
    (hwaiters : w.waiters = []) : Idle ⟨w, []⟩ := by
  refine ⟨rfl, fun r => ?_, hwaiters, fun c => ?_, ?_, ?_⟩
  · unfold World.lock
    rw [hlocks]
    rfl
  · unfold World.context
    cases hx : w.contexts[c.index]? with
    | none => exact local_default c
    | some x =>
        rw [hcontexts x (List.mem_of_getElem? hx)]
        exact local_default c
  · rw [hregistry, Registry.adapters_ofAdapters]
    exact hlocal
  · rw [hregistry]
    exact (Registry.tagged_ofAdapters adapters).coherent

/-- Documents may be compiled and kept before the first call. -/
theorem Idle.looks {w w' : World} (h : Idle ⟨w, []⟩) (hlooks : World.Looks w w') : Idle ⟨w', []⟩ where
  tasks := rfl
  locks r := (World.lock_eq_of_locks hlooks.locks_eq r).trans (h.locks r)
  waiters := hlooks.waiters_eq.trans h.waiters
  confined := by
    refine ⟨h.confined.contexts.of_contexts hlooks.contexts_eq, ?_, ?_⟩
    · rw [hlooks.registry_eq]
      exact h.confined.adapters
    · rw [hlooks.registry_eq]
      exact h.confined.coherent

end Flight

end ScriptedText
