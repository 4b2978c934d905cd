import ScriptedText.Proofs.Engine.Flight

/-!
What happens to executables while calls are in flight, and that nothing else changes what they have on record.
-/

namespace ScriptedText

/-- What can happen to an executable: one of its runs ends, a context is claimed for it or given up, or it is told for
how long to keep its output. -/
inductive Happening
  | completed (e : ExecutableId) (clock : Int)
  | failed (e : ExecutableId)
  | claimed (e : ExecutableId) (c : ContextId)
  | released (e : ExecutableId)
  | kept (e : ExecutableId) (duration : Int)
  deriving DecidableEq

def Executable.after (e : ExecutableId) (x : Executable) : Happening → Executable
  | .completed e' clock => if e' = e then x.ran clock else x
  | .failed _ => x
  | .claimed e' c => if e' = e then x.claim c else x
  | .released e' => if e' = e then x.unclaim else x
  | .kept e' duration => if e' = e then { x with cacheDuration := duration } else x

/-- A run ends where its last frame goes and a result is there, and a context is claimed where that is told. -/
def Frame.happening? (clock : Int) (f : Frame) (m : Move) : Option Happening :=
  match f, m.push, m.control with
  | .initialized run, [], .settled (.ok _) | .finalized run _, [], .settled (.ok _) =>
    some (.completed run.executable clock)
  | .initialized run, [], .settled (.error _) | .finalized run _, [], .settled (.error _) => some (.failed run.executable)
  | .claiming run, [], .settled (.ok (.flag true)) => some (.claimed run.executable run.context)
  | _, _, _ => none

/-- Whether anything can happen to an executable where the frame goes. -/
def Frame.tells : Frame → Bool
  | .finalized _ _ | .claiming _ => true
  | _ => false

def Task.happening? (w : World) (id : TaskId) (t : Task) : Option Happening :=
  match t.control, t.stack with
  | .settled o, f :: _ => f.happening? w.clock (Move.resume w id f o)
  | _, _ => none

def Flight.happening? (f : Flight) : Deed → Option Happening
  | .go id => (f.task? id).bind (Task.happening? f.world id)
  | .release e => if (f.world.executable e).claimed.isSome then some (.released e) else none
  | .keep e duration => some (.kept e duration)
  | _ => none

namespace World

/-- Executables are only added, none of them with a claim, and claims on contexts stay as they are. -/
structure Spares (w w' : World) : Prop where
  executables : w.executables <+: w'.executables
  claimed : ∀ e c, (w'.executable e).claimed = some c → (w.executable e).claimed = some c
  contexts : w'.contexts.length = w.contexts.length
  immutable : ∀ c, (w'.context c).immutable = (w.context c).immutable
  clock : w.clock ≤ w'.clock

variable {w w' w₁ : World}

theorem Spares.of_eq (he : w'.executables = w.executables) (hc : w'.contexts = w.contexts) (hclock : w.clock ≤ w'.clock) :
    w.Spares w' := by
  refine ⟨?_, fun e c h => ?_, congrArg _ hc, fun c => ?_, hclock⟩
  · exact he.symm ▸ List.prefix_refl w.executables
  · unfold executable at *
    rwa [he] at h
  · unfold context
    rw [hc]

theorem Spares.refl (w : World) : w.Spares w := .of_eq rfl rfl (Int.le_refl _)

theorem Spares.trans (h : w.Spares w₁) (h' : w₁.Spares w') : w.Spares w' where
  executables := h.executables.trans h'.executables
  claimed e c hc := h.claimed e c (h'.claimed e c hc)
  contexts := h'.contexts.trans h.contexts
  immutable c := (h'.immutable c).trans (h.immutable c)
  clock := Int.le_trans h.clock h'.clock

theorem claimed_addExecutable {x : Executable} (hx : x.claimed = none) {e : ExecutableId} {c : ContextId}
    (h : ((w.addExecutable x).1.executable e).claimed = some c) : (w.executable e).claimed = some c := by
  unfold addExecutable executable at *
  dsimp only at h
  rw [Flight.getElem?_concat] at h
  split at h
  · rw [Option.getD_some, hx] at h
    cases h
  · exact h

theorem Looks.claimed (h : Looks w w') {e : ExecutableId} {c : ContextId} (hc : (w'.executable e).claimed = some c) :
    (w.executable e).claimed = some c := by
  induction h with
  | refl => exact hc
  | addExecutable _ x hx ih => exact ih (claimed_addExecutable hx.claimed hc)
  | _ => exact ‹_ → _› hc

theorem Evolves.claimed (h : Evolves w w') {e : ExecutableId} {c : ContextId} (hc : (w'.executable e).claimed = some c) :
    (w.executable e).claimed = some c := by
  induction h with
  | looks hlooks => exact hlooks.claimed hc
  | modifyContext _ c f hf ih => exact ih hc
  | emit _ e ih => exact ih hc
  | behind _ hlooks ih => exact ih (hlooks.claimed hc)

theorem Evolves.spares (h : Evolves w w') : w.Spares w' where
  executables := h.executables_grow
  claimed _ _ := h.claimed
  contexts := h.keeps.contexts
  immutable := h.keeps.immutable
  clock := Int.le_of_eq h.clock_eq.symm

theorem Looks.spares (h : Looks w w') : w.Spares w' := (Evolves.looks h).spares

/-- What a step does to executables and claims, and what has happened then. -/
inductive Turns (w : World) : Option Happening → World → Prop
  | spares {h? : Option Happening} {w' : World} (hnone : h? = none ∨ ∃ e, h? = some (.failed e)) (h : w.Spares w') :
      Turns w h? w'
  | completes (e : ExecutableId) {w' : World} (h : (w.modifyExecutable e (·.ran w.clock)).Spares w') :
      Turns w (some (.completed e w.clock)) w'
  | claims (e : ExecutableId) (c : ContextId) (hfree : (w.executable e).claimed = none) :
      Turns w (some (.claimed e c))
        ((w.modifyContext c fun x => { x with immutable := true }).modifyExecutable e (·.claim c))
  | releases (e : ExecutableId) (c : ContextId) (hclaimed : (w.executable e).claimed = some c) {w' : World}
      (h : ((w.modifyExecutable e Executable.unclaim).modifyContext c fun x => { x with immutable := false }).Spares w') :
      Turns w (some (.released e)) w'
  | keeps (e : ExecutableId) (duration : Int) :
      Turns w (some (.kept e duration)) (w.modifyExecutable e fun x => { x with cacheDuration := duration })

theorem executable_modifyExecutable (f : Executable → Executable) (e' : ExecutableId) {e : ExecutableId}
    (he : e.index < w.executables.length) :
    (w.modifyExecutable e' f).executable e = if e' = e then f (w.executable e) else w.executable e := by
  unfold modifyExecutable executable
  simp only [List.getElem?_modify, List.getElem?_eq_getElem he]
  by_cases hindex : e'.index = e.index
  · have heq : e' = e := by cases e; cases e'; cases hindex; rfl
    simp [heq]
  · have hne : e' ≠ e := fun heq => hindex (congrArg ExecutableId.index heq)
    simp [hindex, hne]

theorem executable_modifyExecutable_cases (w : World) (f : Executable → Executable) (e' e : ExecutableId) :
    (w.modifyExecutable e' f).executable e = w.executable e ∨
      e' = e ∧ (w.modifyExecutable e' f).executable e = f (w.executable e) := by
  by_cases he : e.index < w.executables.length
  · rw [executable_modifyExecutable f e' he]
    split
    · next heq => exact .inr ⟨heq, rfl⟩
    · exact .inl rfl
  · have hlength : (w.modifyExecutable e' f).executables.length = w.executables.length := List.length_modify ..
    unfold executable
    rw [List.getElem?_eq_none (Nat.le_of_not_lt he), List.getElem?_eq_none (hlength ▸ Nat.le_of_not_lt he)]
    exact .inl rfl

/-- Nothing else changes what an executable has on record. -/
theorem Turns.executable_eq {h? : Option Happening} (h : w.Turns h? w') {e : ExecutableId}
    (he : e.index < w.executables.length) :
    w'.executable e = h?.elim (w.executable e) ((w.executable e).after e) := by
  have hgrown {w₁ : World} {e' : ExecutableId} {f : Executable → Executable}
      (h : (w.modifyExecutable e' f).executables <+: w₁.executables) :
      w₁.executable e = if e' = e then f (w.executable e) else w.executable e := by
    refine (executable_of_grown h ?_).trans (executable_modifyExecutable f e' he)
    exact Nat.lt_of_lt_of_eq he (List.length_modify ..).symm
  cases h with
  | spares hnone h =>
      refine (executable_of_grown h.executables he).trans ?_
      rcases hnone with rfl | ⟨e', rfl⟩ <;> rfl
  | completes e' h => exact hgrown h.executables
  | claims e' c hfree => exact executable_modifyExecutable _ e' he
  | releases e' c hclaimed h => exact hgrown h.executables
  | keeps e' duration => exact executable_modifyExecutable _ e' he

theorem immutable_modifyContext (w : World) (c : ContextId) (b : Bool) (c' : ContextId) :
    ((w.modifyContext c fun x => { x with immutable := b }).context c').immutable =
      if c' = c ∧ c.index < w.contexts.length then b else (w.context c').immutable := by
  unfold modifyContext context
  simp only [List.getElem?_modify]
  by_cases hc : c' = c
  · subst hc
    by_cases hlt : c'.index < w.contexts.length
    · simp [hlt]
    · simp [hlt]
  · have hindex : c.index ≠ c'.index := by
      intro heq
      cases c
      cases c'
      cases heq
      exact hc rfl
    simp [hc, hindex]

namespace Turns

variable {h? : Option Happening} {e : ExecutableId} {c : ContextId}

theorem executables_le (h : w.Turns h? w') : w.executables.length ≤ w'.executables.length := by
  have hmodify (e : ExecutableId) (f : Executable → Executable) :
      (w.modifyExecutable e f).executables.length = w.executables.length := List.length_modify ..
  cases h with
  | spares hnone h => exact h.executables.length_le
  | completes e h => exact Nat.le_trans (Nat.le_of_eq (hmodify e _).symm) h.executables.length_le
  | claims e c hfree => exact Nat.le_of_eq (hmodify e _).symm
  | releases e c hclaimed h => exact Nat.le_trans (Nat.le_of_eq (hmodify e _).symm) h.executables.length_le
  | keeps e duration => exact Nat.le_of_eq (hmodify e _).symm

theorem contexts_eq (h : w.Turns h? w') : w'.contexts.length = w.contexts.length := by
  cases h with
  | spares hnone h => exact h.contexts
  | completes e h => exact h.contexts
  | claims e c hfree => exact List.length_modify ..
  | releases e c hclaimed h => exact h.contexts.trans (List.length_modify ..)
  | keeps e duration => rfl

theorem clock_le (h : w.Turns h? w') : w.clock ≤ w'.clock := by
  cases h with
  | spares hnone h => exact h.clock
  | completes e h => exact h.clock
  | releases e c hclaimed h => exact h.clock
  | _ => exact Int.le_refl _

/-- A claimed context is left immutable unless the claim is given up. -/
theorem immutable (h : w.Turns h? w') (himm : (w.context c).immutable = true)
    (hreleased : ∀ e, h? = some (.released e) → (w.executable e).claimed ≠ some c) :
    (w'.context c).immutable = true := by
  cases h with
  | spares hnone h => exact (h.immutable c).trans himm
  | completes e h => exact (h.immutable c).trans himm
  | claims e c' hfree =>
      refine (immutable_modifyContext w c' true c).trans ?_
      split
      · rfl
      · exact himm
  | releases e c' hclaimed h =>
      have hne : c ≠ c' := fun heq => hreleased e rfl (heq ▸ hclaimed)
      refine (h.immutable c).trans ((immutable_modifyContext _ c' false c).trans ?_)
      rw [if_neg fun hc => hne hc.1]
      exact himm
  | keeps e duration => exact himm

/-- Claims come from calls that claim. -/
theorem claimed (h : w.Turns h? w') (hc : (w'.executable e).claimed = some c) :
    (w.executable e).claimed = some c ∨ h? = some (.claimed e c) := by
  have hkept {e' : ExecutableId} {f : Executable → Executable}
      (hc : ((w.modifyExecutable e' f).executable e).claimed = some c)
      (hf : ∀ x, (f x).claimed = some c → x.claimed = some c) : (w.executable e).claimed = some c := by
    rcases executable_modifyExecutable_cases w f e' e with heq | ⟨-, heq⟩
    · rwa [heq] at hc
    · rw [heq] at hc
      exact hf _ hc
  cases h with
  | spares hnone h => exact .inl (h.claimed e c hc)
  | completes e' h => exact .inl (hkept (h.claimed e c hc) fun _ => id)
  | claims e' c' hfree =>
      rcases executable_modifyExecutable_cases (w.modifyContext c' fun x => { x with immutable := true }) (·.claim c')
        e' e with heq | ⟨rfl, heq⟩
      · rw [heq] at hc
        exact .inl hc
      · rw [heq] at hc
        cases hc
        exact .inr rfl
  | releases e' c' hclaimed h => exact .inl (hkept (h.claimed e c hc) fun _ hx => by cases hx)
  | keeps e' duration => exact .inl (hkept hc fun _ => id)

theorem free_of_claimed (h : w.Turns (some (.claimed e c)) w') : (w.executable e).claimed = none := by
  cases h with
  | spares hnone h =>
      rcases hnone with hnone | ⟨e', hnone⟩ <;> cases hnone
  | claims _ _ hfree => exact hfree

theorem immutable_of_claimed (h : w.Turns (some (.claimed e c)) w') (hc : c.index < w.contexts.length) :
    (w'.context c).immutable = true := by
  cases h with
  | spares hnone h =>
      rcases hnone with hnone | ⟨e', hnone⟩ <;> cases hnone
  | claims _ _ hfree => exact (immutable_modifyContext w c true c).trans (if_pos ⟨rfl, hc⟩)

theorem claimed_of_released (h : w.Turns (some (.released e)) w') : ∃ c, (w.executable e).claimed = some c := by
  cases h with
  | spares hnone h =>
      rcases hnone with hnone | ⟨e', hnone⟩ <;> cases hnone
  | releases _ c hclaimed h => exact ⟨c, hclaimed⟩

/-- A claim lasts until it is given up. -/
theorem claimed_of_claimed (h : w.Turns h? w') (he : e.index < w.executables.length)
    (hc : (w.executable e).claimed = some c) (hreleased : h? ≠ some (.released e)) :
    (w'.executable e).claimed = some c := by
  rw [h.executable_eq he]
  cases h? with
  | none => exact hc
  | some a =>
      cases a with
      | failed e' => exact hc
      | claimed e' c' =>
          rw [Option.elim_some, Executable.after]
          split
          · next he =>
              subst he
              cases h.free_of_claimed.symm.trans hc
          · exact hc
      | released e' =>
          rw [Option.elim_some, Executable.after]
          split
          · next he => exact absurd (he ▸ rfl) hreleased
          · exact hc
      | _ =>
          rw [Option.elim_some, Executable.after]
          split <;> exact hc

theorem clock_of_completed {clock : Int} (h : w.Turns (some (.completed e clock)) w') : clock = w.clock := by
  cases h with
  | spares hnone h =>
      rcases hnone with hnone | ⟨e', hnone⟩ <;> cases hnone
  | completes _ h => rfl

end Turns

theorem Turns.spares_none (h : w.Spares w') : w.Turns none w' := .spares (.inl rfl) h

end World

namespace Move

variable {w : World} {id : TaskId} {control : Control} {popped : List Frame} {m : Move} {run : Run}

theorem Deals.spares (h : Deals w id control popped m) (hpopped : popped.any Frame.tells = false) :
    w.Spares m.world := by
  have hset {w₁ : World} (r : RegistrationId) (l : Lock ContextId TaskId) : w₁.Spares (w₁.setLock r l) :=
    .of_eq rfl rfl (Int.le_refl _)
  cases h with
  | quiet hquiet h => exact h.evolves.spares
  | gate gate s k => exact .of_eq rfl rfl (Int.le_refl _)
  | takes hquiet hpush h hfree => exact h.spares.trans (hset ..)
  | queues hquiet hpush h hlocked hother => exact h.spares.trans (hset ..)
  | enters o r inside => exact (hset ..).trans (quiet_goInside _ inside).evolves.spares
  | leaves o r => exact hset ..
  | begins run => exact .refl w
  | counts o run outcome => cases hpopped
  | fails o run outcome h f => cases hpopped
  | claims r run hfree => cases hpopped
  | loses r run => cases hpopped
  | drops f run => cases hpopped

theorem push_finish (w : World) (run : Run) (outcome : Except Failure Unit) :
    (finish w run outcome).push = [.finalized run outcome] := by
  unfold finish runHook
  split <;> rfl

/-- A run goes on after each of its segments. -/
theorem exists_push_runSegments (w : World) (id : TaskId) (run : Run) (segments : List PlacedSegment) :
    (∃ outcome, (runSegments w id run segments).push = [.finalized run outcome]) ∨
      ∃ above rest, (runSegments w id run segments).push = above ++ [.segment run rest] := by
  cases segments with
  | nil => exact .inl ⟨_, push_finish w run _⟩
  | cons s rest => exact .inr ⟨_, rest, rfl⟩

theorem turns_resume (f : Frame) (o : Outcome) :
    w.Turns (f.happening? w.clock (resume w id f o)) (resume w id f o).world := by
  have hdeals : Deals w id (.settled o) [f] (resume w id f o) := deals_resume f o
  have hnone (hf : ∀ m, f.happening? w.clock m = none) (htells : [f].any Frame.tells = false) :
      w.Turns (f.happening? w.clock (resume w id f o)) (resume w id f o).world := by
    rw [hf]
    exact .spares_none (hdeals.spares htells)
  cases f with
  | initialized run =>
      refine .spares ?_ (hdeals.spares rfl)
      cases o with
      | error f => exact .inr ⟨_, rfl⟩
      | ok r =>
          refine .inl ?_
          unfold resume afterInitialized Frame.happening?
          dsimp only
          rcases exists_push_runSegments w id run (w.executable run.executable).segments with ⟨_, h⟩ | ⟨above, _, h⟩
          · simp [h]
          · simp [h]
  | finalized run outcome =>
      have hfails (f : Failure) :
          w.Turns (some (.failed run.executable)) (close w run (.error f)).world :=
        .spares (.inr ⟨_, rfl⟩) (looks_reportFailure w _ f).spares
      cases o with
      | error f => exact hfails f
      | ok r =>
          cases outcome with
          | error f => exact hfails f
          | ok _ => exact .completes run.executable (.of_eq rfl rfl (Int.le_refl _))
  | claiming run =>
      cases o with
      | error f => exact .spares_none (.refl w)
      | ok r =>
          unfold resume afterClaiming
          dsimp only
          split
          · exact .spares_none (.refl w)
          · next hfree => exact .claims run.executable run.context (by simpa using hfree)
  | _ => exact hnone (fun _ => rfl) rfl

end Move

theorem Task.turns_of_advance {w : World} {id : TaskId} {t : Task} {m : Move} {rest : List Frame}
    (ha : t.advance w id = some (m, rest)) : w.Turns (t.happening? w id) m.world := by
  obtain ⟨stack, control⟩ := t
  cases control with
  | call c =>
      cases ha
      exact .spares_none ((Move.deals_begin c).spares rfl)
  | talking s d =>
      cases ha
      exact .spares_none ((Move.deals_converse (c := .talking s d) s d).spares rfl)
  | waiting => cases stack <;> cases ha
  | settled o =>
      cases stack with
      | nil => cases ha
      | cons f rest =>
          cases ha
          exact Move.turns_resume f o

theorem Flight.Goes.turns {f f' : Flight} {d : Deed} (h : f.Goes d f') :
    f.world.Turns (f.happening? d) f'.world := by
  cases h with
  | call c => exact .spares_none ((Move.deals_begin c).spares rfl)
  | @go id t m rest ht ha =>
      unfold happening?
      dsimp only
      rw [ht]
      exact Task.turns_of_advance ha
  | openGate gate => exact .spares_none (.of_eq rfl rfl (Int.le_refl _))
  | release e =>
      unfold happening?
      rcases f.world.release_cases e with ⟨hclaimed, heq⟩ | ⟨c, hclaimed, hevolves⟩
      · simp only [hclaimed, heq, Option.isSome_none, Bool.false_eq_true, if_false]
        exact .spares_none (.refl _)
      · simp only [hclaimed, Option.isSome_some, if_true]
        exact .releases e c hclaimed hevolves.spares
  | tick now hnow => exact .spares_none (.of_eq rfl rfl hnow)
  | keep e duration => exact .keeps e duration

theorem Flight.happening?_of_stays {f : Flight} {id : TaskId}
    (h : (f.task? id).bind (Task.advance f.world id) = none) : f.happening? (.go id) = none := by
  unfold happening?
  dsimp only
  cases ht : f.task? id with
  | none => rfl
  | some t =>
      rw [ht, Option.bind_some] at h
      obtain ⟨stack, control⟩ := t
      cases control with
      | settled o =>
          cases stack with
          | nil => rfl
          | cons frame stack => cases h
      | _ => cases stack <;> rfl

namespace Machine

def happening? (m : Machine) : Option Happening := m.ready.head?.bind fun id => m.flight.happening? (.go id)

def happenings : Nat → Machine → List Happening
  | 0, _ => []
  | fuel + 1, m =>
    match m.step with
    | none => []
    | some m' => m.happening?.toList ++ happenings fuel m'

/-- The task in front takes a step, if it can take one. -/
theorem goes_of_step {m m' : Machine} (h : m.step = some m') :
    (m'.flight = m.flight ∧ m.happening? = none) ∨
      ∃ id, m.flight.Goes (.go id) m'.flight ∧ m.happening? = m.flight.happening? (.go id) := by
  obtain ⟨id, hready, hstep⟩ := flight_step h
  have hhappens : m.happening? = m.flight.happening? (.go id) := by
    rw [happening?, hready]
    rfl
  rcases hstep with ⟨hstays, heq⟩ | hgo
  · exact .inl ⟨heq, hhappens.trans (Flight.happening?_of_stays hstays)⟩
  · exact .inr ⟨id, hgo, hhappens⟩

theorem happening?_spawn (m : Machine) (c : Call) : (m.spawn c).1.happening? = none := by
  have htask : (m.spawn c).1.flight.task? m.flight.next = some ⟨[], .call c⟩ := by
    simp [spawn, flight, Flight.task?, Flight.next]
  have hready : (m.spawn c).1.ready.head? = some m.flight.next := rfl
  unfold happening?
  rw [hready, Option.bind_some, Flight.happening?, htask]
  rfl

end Machine

end ScriptedText
