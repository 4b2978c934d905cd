import ScriptedText.Proofs.Engine.Deadlock
import ScriptedText.Proofs.Engine.Idling
import ScriptedText.Proofs.Engine.Nesting

/-!
Which adapters learn that a context is given up. A context has one adapter on record, that of the program which a run on it has
come to last; when the context is released, that one is told, and whatever others keep for the context stays.
-/

namespace ScriptedText

/-- What a run on a context has to do with adapters: it comes to a program of one, and the program starts. -/
inductive Visit
  | comes (a : AdapterId)
  | starts (a : AdapterId)
  deriving DecidableEq

def Visit.comes? : Visit → Option AdapterId
  | .comes a => some a
  | .starts _ => none

/-- The adapter of the program that was come to last. -/
def lastOf (past : List Visit) : Option AdapterId := (past.filterMap Visit.comes?).getLast?

/-- The program that waits for its lock in the frame: its context and its adapter. -/
def Frame.awaits? : Frame → Option (ContextId × AdapterId)
  | .granted _ (.program run _ a) => some (run.context, a)
  | _ => none

/-- Whether the frame belongs to a run that may come to a program. -/
def Frame.isRunning : Frame → Bool
  | .initialized _ | .segment _ _ => true
  | _ => false

/-- The program that the move starts. -/
def Move.starts? (m : Move) : Option (ContextId × AdapterId) :=
  match m.push, m.control with
  | .program _ _ _ :: _, .talking s _ => some (s.context, s.adapter)
  | _, _ => none

/-- The program that a run comes to next, where these segments are left. -/
def World.comesTo? (w : World) (run : Run) : List PlacedSegment → Option (ContextId × AdapterId)
  | s :: _ => if s.isProgram then (w.registry.forTag? s.tag).map (run.context, ·) else none
  | [] => none

/-- The adapter of a program, if that is one on the context. -/
def adapterOn (c : ContextId) : Option (ContextId × AdapterId) → Option AdapterId
  | some (c', a) => if c' = c then some a else none
  | none => none

namespace Task

/-- The program that one of the task's runs comes to in the next step. -/
def comesTo? (w : World) (t : Task) : Option (ContextId × AdapterId) :=
  match t.stack, t.control with
  | .initialized run :: _, .settled (.ok _) => w.comesTo? run (w.executable run.executable).segments
  | .segment run rest :: _, .settled (.ok _) => w.comesTo? run rest
  | _, _ => none

/-- What the next step of the task has to do with adapters on the context. -/
def visits (w : World) (c : ContextId) (id : TaskId) (t : Task) : List Visit :=
  ((adapterOn c (t.comesTo? w)).map .comes).toList ++
    ((adapterOn c ((t.advance w id).bind fun next => next.1.starts?)).map .starts).toList

end Task

namespace Flight

def visits (f : Flight) (c : ContextId) : Deed → List Visit
  | .call call => Task.visits f.world c f.next ⟨[], .call call⟩
  | .go id => (f.task? id).elim [] (Task.visits f.world c id)
  | _ => []

/-- A history of a flight, with what its runs have had to do with adapters on a context. -/
inductive Hosts (c : ContextId) (f₀ : Flight) : List Visit → Flight → Prop
  | start : Hosts c f₀ [] f₀
  | goes {past : List Visit} {f f' : Flight} {d : Deed} (h : Hosts c f₀ past f) (hgo : f.Goes d f') :
      Hosts c f₀ (past ++ f.visits c d) f'
  | serves {past : List Visit} {f : Flight} (h : Hosts c f₀ past f) (errand : Errand) :
      Hosts c f₀ past { f with world := f.world.serve errand }

/-- No program waits for a lock to run on the context. -/
def IsClear (f : Flight) (c : ContextId) : Prop :=
  ∀ id t, f.task? id = some t → ∀ frame ∈ t.stack, ∀ a, frame.awaits? ≠ some (c, a)

end Flight

namespace World

/-- What an observed adapter reports when a context is given up. -/
def report? (w : World) (c : ContextId) (a : AdapterId) : Option Event :=
  (w.adapter? a).bind fun adapter => if adapter.observed then some (.released adapter.info.defaultTag c) else none

def releases (w : World) (a : AdapterId) : Bool := (w.adapter? a).any (·.releases)

/-- When the context was given up, `told` was told and no other adapter: only what it kept for the context is gone, and only it
reports that. -/
structure Tells (w w' : World) (c : ContextId) (told : Option AdapterId) : Prop where
  notes : ∀ a, (w'.context c).notes.get? a = if told = some a then none else (w.context c).notes.get? a
  events : w'.events = w.events ++ (told.bind (w.report? c)).toList

variable {w : World} {e : ExecutableId} {c : ContextId}

/-- An adapter frees what it keeps for a context that nobody was told of yet. -/
theorem Tells.frees {w₁ : World} {a : AdapterId} {adapter : Adapter} (h : w.Tells w₁ c none)
    (ha : w.adapter? a = some adapter) (hc : c.index < w₁.contexts.length) :
    w.Tells
      (let w₂ := w₁.modifyContext c fun x => { x with notes := x.notes.erase a }
      if adapter.observed then w₂.emit (.released adapter.info.defaultTag c) else w₂) c (some a) := by
  have hnotes (a' : AdapterId) :
      ((w₁.modifyContext c fun x => { x with notes := x.notes.erase a }).context c).notes.get? a' =
        if some a = some a' then none else (w.context c).notes.get? a' := by
    have hkept : (w₁.context c).notes.get? a' = (w.context c).notes.get? a' := (h.notes a').trans (if_neg nofun)
    rw [context_modifyContext c _ hc, OrderedMap.get?_erase, hkept]
    simp only [Option.some.injEq, eq_comm]
  have hevents : w₁.events = w.events := h.events.trans (List.append_nil _)
  dsimp only
  split
  · next hobserved => exact ⟨hnotes, by simp [report?, ha, hobserved, emit, modifyContext, hevents]⟩
  · next hobserved => exact ⟨hnotes, by simp [report?, ha, hobserved, modifyContext, hevents]⟩

/-- A release tells the adapter on record, if that has anything to free. -/
theorem tells_release (hclaimed : (w.executable e).claimed = some c) (hc : c.index < w.contexts.length) :
    w.Tells (w.release e) c ((w.context c).adapter.filter w.releases) := by
  unfold release
  rw [hclaimed]
  dsimp only
  generalize hw₁ : (w.modifyExecutable e Executable.unclaim).modifyContext c (fun x => { x with immutable := false }) = w₁
  have hcontext : w₁.context c = { w.context c with immutable := false } := hw₁ ▸ context_modifyContext c _ hc
  have hknown (a : AdapterId) : w₁.adapter? a = w.adapter? a := hw₁ ▸ rfl
  have hnobody : w.Tells w₁ c none :=
    ⟨fun a => by rw [hcontext, if_neg nofun], by rw [← hw₁]; exact (List.append_nil _).symm⟩
  have hlength : c.index < w₁.contexts.length := by
    rw [← hw₁]
    simpa [modifyContext, modifyExecutable] using hc
  rw [hcontext]
  cases hadapter : (w.context c).adapter with
  | none => exact hnobody
  | some a =>
      simp only [Option.bind_some, Option.filter_some, releases, hknown]
      obtain hnone | ⟨adapter, hsome⟩ := Option.eq_none_or_eq_some (w.adapter? a)
      · simp only [hnone, Option.map_none, Option.any_none]
        exact hnobody
      · simp only [hsome, Option.map_some, Option.any_some]
        split
        · exact hnobody.frees hsome hlength
        · exact hnobody

/-- The record of adapters after a run has come to a program. -/
def noted (w : World) : Option (ContextId × AdapterId) → List (Option AdapterId)
  | none => w.adapters
  | some (c, a) => w.adapters.modify c.index fun _ => some a

theorem adapters_reached (w : World) (run : Run) (s : PlacedSegment) (rest : List PlacedSegment) :
    (w.reached run s).adapters = w.noted (w.comesTo? run (s :: rest)) := by
  simp only [reached, comesTo?]
  split
  · cases w.registry.forTag? s.tag with
    | none => rfl
    | some a => exact w.adapters_recorded run a
  · rfl

end World

namespace Move

variable {w : World} {m : Move} {x : ContextId × AdapterId} {run : Run} {s : PlacedSegment} {rest : List PlacedSegment}

/-- The program is started, or it begins to wait for its lock. -/
def Tackles (m : Move) (x : ContextId × AdapterId) : Prop := m.starts? = some x ∨ ∃ f ∈ m.push, f.awaits? = some x

theorem not_tackles (h : m.push.all Frame.isFree = true) (x : ContextId × AdapterId) : ¬ m.Tackles x := by
  rintro (hstarts | ⟨f, hf, hawaits⟩)
  · unfold starts? at hstarts
    split at hstarts
    · next hpush _ => simp [hpush, Frame.isFree] at h
    · cases hstarts
  · have hfree := List.all_eq_true.1 h f hf
    unfold Frame.awaits? at hawaits
    split at hawaits
    · cases hfree
    · cases hawaits

theorem not_tackles_of_one {f : Frame} (h : m.push = [f]) (hprogram : f.isProgram = false) (hawaits : f.awaits? = none) :
    ¬ m.Tackles x := by
  rintro (hstarts | ⟨f', hf', hawaits'⟩)
  · unfold starts? at hstarts
    rw [h] at hstarts
    split at hstarts
    · next heq _ =>
        cases heq
        cases hprogram
    · cases hstarts
  · rw [h] at hf'
    cases List.mem_singleton.1 hf'
    cases hawaits.symm.trans hawaits'

theorem tackles_startProgram {a : AdapterId} {f : Frame} (hprogram : f.isProgram = false) (hawaits : f.awaits? = none)
    (h : ((startProgram w run s a).under [f]).Tackles x) :
    x = (run.context, a) ∧ ((startProgram w run s a).under [f]).starts? = some x ∧
      ∀ f' ∈ ((startProgram w run s a).under [f]).push, f'.awaits? = none := by
  unfold startProgram at h ⊢
  dsimp only at h ⊢
  split at h
  · have hnone : ∀ f' ∈ [.program run (s.site (w.executable run.executable).name) (w.swap? run), f],
        f'.awaits? = none := by
      rintro f' (_ | ⟨_, hf'⟩)
      · rfl
      · cases List.mem_singleton.1 hf'
        exact hawaits
    rcases h with hstarts | ⟨f', hf', hawaits'⟩
    · cases hstarts
      exact ⟨rfl, rfl, hnone⟩
    · cases (hnone f' hf').symm.trans hawaits'
  · exact absurd h (not_tackles_of_one rfl hprogram hawaits)

theorem tackles_lockAndGo {t : TaskId} {r : RegistrationId} {a : AdapterId} {f : Frame} (hprogram : f.isProgram = false)
    (hawaits : f.awaits? = none) (h : ((lockAndGo w t r (.program run s a)).under [f]).Tackles x) :
    x = (run.context, a) := by
  unfold lockAndGo at h
  split at h
  · exact (tackles_startProgram hprogram hawaits h).1
  · rcases h with hstarts | ⟨f', hf', hawaits'⟩
    · cases hstarts
    · rcases List.mem_cons.1 hf' with rfl | hf'
      · cases hawaits'
        rfl
      · cases List.mem_singleton.1 hf'
        cases hawaits.symm.trans hawaits'

/-- What is started or waited for at a segment is the program that the run has come to. -/
theorem tackles_runSegments {t : TaskId} {segments : List PlacedSegment} (h : (runSegments w t run segments).Tackles x) :
    w.comesTo? run segments = some x := by
  cases segments with
  | nil => exact absurd h (not_tackles (free_finish w run _).push x)
  | cons s rest =>
      unfold runSegments runSegment at h
      unfold World.comesTo? Registry.forTag?
      dsimp only at h ⊢
      split at h
      · next hprog =>
          rw [if_pos hprog]
          split at h
          · next r a hr ha =>
              rw [hr, Option.bind_some]
              unfold Registry.forTag? at ha
              rw [hr, Option.bind_some] at ha
              rw [ha, Option.map_some]
              split at h
              · rw [(tackles_startProgram rfl rfl h).1]
              · rw [tackles_lockAndGo rfl rfl h]
          · exact absurd h (not_tackles_of_one rfl rfl rfl)
      · exact absurd h (not_tackles_of_one rfl rfl rfl)

theorem adapters_close (w : World) (run : Run) (outcome : Except Failure Unit) :
    (close w run outcome).world.adapters = w.adapters := by
  cases outcome with
  | ok _ => rfl
  | error f => exact (w.idles_reportFailure _ f).adapters

theorem adapters_runHook (w : World) (hook : Hook) (event : Event) (push : List Frame) :
    (runHook w hook event push).world.adapters = w.adapters := by
  cases hook <;> rfl

theorem adapters_runSegments (w : World) (t : TaskId) (run : Run) (segments : List PlacedSegment) :
    (runSegments w t run segments).world.adapters = w.noted (w.comesTo? run segments) := by
  cases segments with
  | nil => exact adapters_runHook w _ _ _
  | cons s rest => exact (idles_runSegment w t run s).world.adapters.trans (w.adapters_reached run s rest)

/-- Frames in which no program waits, and of which none belongs to a run, take part in nothing of the kind. -/
theorem not_tackles_of_lays {c : Control} {popped : List Frame} (h : Lays w c popped m)
    (hpopped : ∀ f ∈ popped, f.isRunning = false ∧ f.awaits? = none) : ¬ m.Tackles x := by
  have hnone (h : m.push = []) : ¬ m.Tackles x := not_tackles (by rw [h]; rfl) x
  cases h with
  | call _ h => exact not_tackles h.push x
  | free _ h => exact not_tackles h.push x
  | finishes h => exact not_tackles h.push x
  | tries hf _ =>
      have hrun := (hpopped _ (List.mem_singleton_self _)).1
      rcases hf with ⟨rfl, -⟩ | rfl <;> cases hrun
  | enters _ => cases (hpopped _ (List.mem_singleton_self _)).2
  | lets hpush _ => exact not_tackles_of_one hpush rfl rfl
  | leaves hpush _ _ => exact hnone hpush
  | ends hpush _ _ => exact hnone hpush
  | sets hpush _ => exact hnone hpush

end Move

namespace Task

variable {w : World} {id : TaskId} {t : Task} {m : Move} {rest : List Frame} {x : ContextId × AdapterId}

theorem comesTo?_eq_none (h : ∀ o, t.control ≠ .settled o) : t.comesTo? w = none := by
  obtain ⟨stack, control⟩ := t
  unfold comesTo?
  split
  · next heq => exact absurd heq (h _)
  · next heq => exact absurd heq (h _)
  · rfl

/-- Only where a run comes to a program is another adapter put on record. -/
theorem adapters_of_advance (ha : t.advance w id = some (m, rest)) : m.world.adapters = w.noted (t.comesTo? w) := by
  obtain ⟨stack, control⟩ := t
  cases control with
  | call c =>
      cases ha
      rw [comesTo?_eq_none (t := ⟨stack, .call c⟩) fun _ => nofun]
      cases c with
      | execute run options =>
          unfold Move.begin Move.execute
          dsimp only
          split
          · rfl
          · exact Move.adapters_runHook _ _ _ _
      | makeEnterable run =>
          unfold Move.begin Move.makeEnterable
          dsimp only
          split <;> rfl
      | _ => exact (Move.idles_begin w id rfl).world.adapters
  | talking s d =>
      cases ha
      rw [comesTo?_eq_none (t := ⟨stack, .talking s d⟩) fun _ => nofun]
      exact (Move.idles_converse w id s d).world.adapters
  | waiting => cases stack <;> cases ha
  | settled o =>
      cases stack with
      | nil => cases ha
      | cons f rest =>
          cases ha
          cases f with
          | initialized run =>
              cases o with
              | error f => exact Move.adapters_close w run _
              | ok _ => exact Move.adapters_runSegments w id run _
          | segment run left =>
              cases o with
              | error f => exact Move.adapters_runHook w _ _ _
              | ok _ => exact Move.adapters_runSegments w id run left
          | finalized run outcome => cases o <;> exact Move.adapters_close w run _
          | claiming run => exact (Move.idles_afterClaiming w run o).world.adapters
          | _ => exact (Move.idles_resume w id rfl o).world.adapters

/-- A program is started, or begins to wait, where a run comes to it; one that has waited is started only. -/
theorem tackles_of_advance (ha : t.advance w id = some (m, rest)) (h : m.Tackles x) :
    t.comesTo? w = some x ∨
      (∃ f ∈ t.stack, f.awaits? = some x) ∧ m.starts? = some x ∧ ∀ f ∈ m.push, f.awaits? = none := by
  obtain ⟨popped, hstack, hlays⟩ := lays_of_advance ha
  by_cases hpopped : ∀ f ∈ popped, f.isRunning = false ∧ f.awaits? = none
  · exact absurd h (Move.not_tackles_of_lays hlays hpopped)
  · obtain ⟨stack, control⟩ := t
    cases control with
    | call c =>
        cases ha
        exact absurd h (Move.not_tackles (Move.free_begin w id c).push x)
    | talking s d =>
        cases ha
        exact absurd h (Move.not_tackles_of_lays (Move.lays_converse w id s d) (by simp))
    | waiting => cases stack <;> cases ha
    | settled o =>
        cases stack with
        | nil => cases ha
        | cons f rest =>
            cases ha
            cases f with
            | initialized run =>
                cases o with
                | error f => exact absurd h (Move.not_tackles (Move.free_close w run (.error f)).push x)
                | ok _ => exact .inl (Move.tackles_runSegments h)
            | segment run left =>
                cases o with
                | error f => exact absurd h (Move.not_tackles (Move.free_finish w run _).push x)
                | ok _ => exact .inl (Move.tackles_runSegments h)
            | finalized run outcome =>
                exact absurd h (Move.not_tackles (Move.free_afterFinalized w run outcome o).push x)
            | granted r inside =>
                cases inside with
                | program run s a =>
                    obtain ⟨rfl, hstarts⟩ := Move.tackles_startProgram rfl rfl h
                    exact .inr ⟨⟨_, List.mem_cons_self .., rfl⟩, hstarts⟩
                | entry e => exact absurd h (Move.not_tackles_of_lays (Move.lays_resume w id _ o) (by simp [Frame.isRunning, Frame.awaits?]))
            | _ => exact absurd h (Move.not_tackles_of_lays (Move.lays_resume w id _ o) (by simp [Frame.isRunning, Frame.awaits?]))

end Task

/-! A history. -/

section histories

variable {c : ContextId} {past past' : List Visit} {a : AdapterId}

theorem lastOf_append : lastOf (past ++ past') = (lastOf past').or (lastOf past) := by
  unfold lastOf
  rw [List.filterMap_append, List.getLast?_append]

theorem adapterOn_eq_some {x? : Option (ContextId × AdapterId)} : adapterOn c x? = some a ↔ x? = some (c, a) := by
  rcases x? with _ | ⟨c', a'⟩
  · exact iff_of_false nofun nofun
  · unfold adapterOn
    split
    · next hc => simp [hc]
    · next hc => simp [hc]

namespace Task

variable {w : World} {id : TaskId} {t : Task}

theorem comes_mem_visits : .comes a ∈ t.visits w c id ↔ t.comesTo? w = some (c, a) := by
  simp [visits, adapterOn_eq_some]

theorem starts_mem_visits : .starts a ∈ t.visits w c id ↔
    ((t.advance w id).bind fun next => next.1.starts?) = some (c, a) := by
  simp only [visits, List.mem_append, Option.mem_toList, Option.map_eq_some_iff, adapterOn_eq_some,
    reduceCtorEq, and_false, exists_false, false_or, Visit.starts.injEq, exists_eq_right]

theorem lastOf_visits : lastOf (t.visits w c id) = adapterOn c (t.comesTo? w) := by
  have hstarts (a? : Option AdapterId) : (a?.map Visit.starts).toList.filterMap Visit.comes? = [] := by
    cases a? <;> rfl
  have hcomes (a? : Option AdapterId) : ((a?.map Visit.comes).toList.filterMap Visit.comes?).getLast? = a? := by
    cases a? <;> rfl
  unfold lastOf visits
  rw [List.filterMap_append, hstarts, List.append_nil, hcomes]

theorem visits_of_stays (h : t.advance w id = none) : t.visits w c id = [] := by
  have hcomes : t.comesTo? w = none := by
    obtain ⟨stack, control⟩ := t
    cases control with
    | settled o =>
        cases stack with
        | nil => rfl
        | cons f stack => cases h
    | _ => exact comesTo?_eq_none fun _ => nofun
  unfold visits
  rw [h, hcomes]
  rfl

theorem awaits_of_advance {m : Move} {rest : List Frame} {frame : Frame} (ha : t.advance w id = some (m, rest))
    (hmem : frame ∈ m.push ++ rest) (hawaits : frame.awaits? = some (c, a)) :
    .comes a ∈ t.visits w c id ∨ ∃ frame ∈ t.stack, frame.awaits? = some (c, a) := by
  rcases List.mem_append.1 hmem with hpush | hrest
  · rcases tackles_of_advance ha (.inr ⟨frame, hpush, hawaits⟩) with hcomes | ⟨-, -, hnone⟩
    · exact .inl (comes_mem_visits.2 hcomes)
    · cases (hnone frame hpush).symm.trans hawaits
  · obtain ⟨popped, hstack, -⟩ := lays_of_advance ha
    exact .inr ⟨frame, hstack ▸ List.mem_append_right _ hrest, hawaits⟩

/-- The adapter on record after a step is that of the program which the task has come to, if there is one. -/
theorem adapter_of_advance {m : Move} {rest : List Frame} (ha : t.advance w id = some (m, rest))
    (hc : c.index < w.contexts.length) :
    (m.world.context c).adapter = (lastOf (t.visits w c id)).or (w.context c).adapter := by
  rw [lastOf_visits, World.adapter_context, adapters_of_advance ha, World.adapter_context w]
  rcases t.comesTo? w with _ | ⟨c', a⟩
  · rfl
  · have hsome : w.adapters[c.index]? = some (w.context c).adapter := by
      simp [World.adapters, World.context, List.getElem?_eq_getElem hc]
    simp only [World.noted, List.getElem?_modify, hsome]
    by_cases hcc : c' = c
    · simp [hcc, adapterOn]
    · have hindex : c'.index ≠ c.index := fun heq => hcc (by cases c; cases c'; exact congrArg ContextId.mk heq)
      simp [hcc, hindex, adapterOn]

end Task

namespace Flight

variable {f₀ f f' : Flight} {d : Deed} {e : ExecutableId}

theorem visits_go {id : TaskId} {t : Task} (ht : f.task? id = some t) : f.visits c (.go id) = t.visits f.world c id := by
  unfold visits
  dsimp only
  rw [ht]
  rfl

/-- What the contexts have on record after something has happened. -/
theorem Goes.adapter (h : f.Goes d f') (hc : c.index < f.world.contexts.length) :
    (f'.world.context c).adapter = (lastOf (f.visits c d)).or (f.world.context c).adapter := by
  have hidle (hidles : f.world.Idles f'.world) : (f'.world.context c).adapter = (f.world.context c).adapter := by
    rw [World.adapter_context, hidles.adapters, ← World.adapter_context]
  cases h with
  | call call => exact Task.adapter_of_advance (t := ⟨[], .call call⟩) rfl hc
  | go ht ha =>
      rw [visits_go ht]
      exact Task.adapter_of_advance ha hc
  | release e => exact hidle (f.world.idles_release e)
  | keep e duration => exact hidle ((World.Idles.refl f.world).modifyExecutable e (fun _ => rfl) fun _ => rfl)
  | openGate gate => rfl
  | tick now hnow => rfl

theorem Goes.contexts_length (h : f.Goes d f') : f'.world.contexts.length = f.world.contexts.length :=
  h.turns.contexts_eq

/-- A program that starts was come to just then, or it has waited. -/
theorem starts_of_visits (h : .starts a ∈ f.visits c d) : .comes a ∈ f.visits c d ∨
    ∃ id t, f.task? id = some t ∧ ∃ frame ∈ t.stack, frame.awaits? = some (c, a) := by
  have htask {id : TaskId} {t : Task} (h : .starts a ∈ t.visits f.world c id) :
      .comes a ∈ t.visits f.world c id ∨ ∃ frame ∈ t.stack, frame.awaits? = some (c, a) := by
    obtain ⟨⟨m, rest⟩, ha, hstarts⟩ := Option.bind_eq_some_iff.1 (Task.starts_mem_visits.1 h)
    exact (Task.tackles_of_advance ha (.inl hstarts)).imp Task.comes_mem_visits.2 And.left
  cases d with
  | call call =>
      refine .inl ((htask h).resolve_right ?_)
      rintro ⟨frame, hframe, -⟩
      cases hframe
  | go id =>
      unfold visits at h ⊢
      dsimp only at h ⊢
      cases ht : f.task? id with
      | none =>
          rw [ht] at h
          cases h
      | some t =>
          rw [ht] at h
          exact (htask h).imp_right fun hwaits => ⟨id, t, ht, hwaits⟩
  | _ => cases h

/-- A program that waits has waited before, or it was come to just now. -/
theorem Goes.awaits (h : f.Goes d f') {id : TaskId} {t : Task} (ht : f'.task? id = some t) {frame : Frame}
    (hmem : frame ∈ t.stack) (hawaits : frame.awaits? = some (c, a)) :
    .comes a ∈ f.visits c d ∨ ∃ id t, f.task? id = some t ∧ ∃ frame ∈ t.stack, frame.awaits? = some (c, a) := by
  have hstays {id : TaskId} {t₀ : Task} (ht₀ : f.task? id = some t₀) (hstack : t.stack = t₀.stack) :
      ∃ id t, f.task? id = some t ∧ ∃ frame ∈ t.stack, frame.awaits? = some (c, a) :=
    ⟨id, t₀, ht₀, frame, hstack ▸ hmem, hawaits⟩
  cases h with
  | call call =>
      have hsome : ((f.spawn call).task? f.next).isSome = true := by rw [task?_spawn_next, Option.isSome_some]
      rcases stack_of_task?_proceed hsome ht with ⟨rfl, hstack⟩ | ⟨t₀, ht₀, hstack⟩
      · refine .inl ((Task.awaits_of_advance (t := ⟨[], .call call⟩) rfl (hstack ▸ hmem) hawaits).resolve_right ?_)
        rintro ⟨frame, hframe, -⟩
        cases hframe
      · rw [task?_spawn] at ht₀
        split at ht₀
        · cases ht₀
          rw [hstack] at hmem
          cases hmem
        · exact .inr (hstays ht₀ hstack)
  | @go id₀ t₀ _ _ ht₀ ha =>
      rcases stack_of_task?_proceed (by simp [ht₀]) ht with ⟨-, hstack⟩ | ⟨t₁, ht₁, hstack⟩
      · rw [visits_go ht₀]
        exact (Task.awaits_of_advance ha (hstack ▸ hmem) hawaits).imp_right fun hwaits => ⟨id₀, t₀, ht₀, hwaits⟩
      · exact .inr (hstays ht₁ hstack)
  | openGate gate =>
      obtain ⟨t₀, ht₀, hstack⟩ := exists_of_task?_wake ht
      exact .inr (hstays ht₀ hstack)
  | _ => exact .inr (hstays ht rfl)

/-- What the context has on record is the adapter of the program that was come to last, and no program has started, or waits
to, that was not come to. -/
structure Kept (f₀ f : Flight) (c : ContextId) (past : List Visit) : Prop where
  contexts : f.world.contexts.length = f₀.world.contexts.length
  adapter : (f.world.context c).adapter = (lastOf past).or (f₀.world.context c).adapter
  starts : ∀ a, .starts a ∈ past → .comes a ∈ past
  awaits : ∀ id t, f.task? id = some t → ∀ frame ∈ t.stack, ∀ a, frame.awaits? = some (c, a) → .comes a ∈ past

namespace Kept

variable (h : Kept f₀ f c past)

include h

theorem goes (hc : c.index < f₀.world.contexts.length) (hgo : f.Goes d f') : Kept f₀ f' c (past ++ f.visits c d) where
  contexts := hgo.contexts_length.trans h.contexts
  adapter := by rw [hgo.adapter (h.contexts ▸ hc), h.adapter, lastOf_append, Option.or_assoc]
  starts a ha := by
    rcases List.mem_append.1 ha with hold | hnew
    · exact List.mem_append_left _ (h.starts a hold)
    · rcases starts_of_visits hnew with hcomes | ⟨id, t, ht, frame, hmem, hawaits⟩
      · exact List.mem_append_right _ hcomes
      · exact List.mem_append_left _ (h.awaits id t ht frame hmem a hawaits)
  awaits id t ht frame hmem a hawaits := by
    rcases hgo.awaits ht hmem hawaits with hcomes | ⟨id', t', ht', frame', hmem', hawaits'⟩
    · exact List.mem_append_right _ hcomes
    · exact List.mem_append_left _ (h.awaits id' t' ht' frame' hmem' a hawaits')

theorem serves (errand : Errand) : Kept f₀ { f with world := f.world.serve errand } c past where
  contexts := (congrArg List.length (f.world.contexts_serve errand)).trans h.contexts
  adapter := by
    rw [World.context, f.world.contexts_serve errand]
    exact h.adapter
  starts := h.starts
  awaits := h.awaits

end Kept

theorem Hosts.kept (h : Hosts c f₀ past f) (hclear : f₀.IsClear c) (hc : c.index < f₀.world.contexts.length) :
    Kept f₀ f c past := by
  induction h with
  | start => exact ⟨rfl, rfl, nofun, fun id t ht frame hmem a hawaits => absurd hawaits (hclear id t ht frame hmem a)⟩
  | goes _ hgo ih => exact ih.goes hc hgo
  | serves _ errand ih => exact ih.serves errand

/-- Whatever programs have run on a context, in whatever order and languages, a release tells one adapter: that of the program
which a run came to last. Of the adapters that have run a program there and have something to free, it is that one that is told,
and no other. -/
theorem release_tells_last (h : Hosts c f₀ past f) (hclear : f₀.IsClear c) (hc : c.index < f₀.world.contexts.length)
    (hclaimed : (f.world.executable e).claimed = some c) :
    let told := ((lastOf past).or (f₀.world.context c).adapter).filter f.world.releases
    f.world.Tells (f.world.release e) c told ∧
      ∀ a, .starts a ∈ past → .comes a ∈ past ∧
        (f.world.releases a = true → (told = some a ↔ lastOf past = some a)) := by
  have hkept := h.kept hclear hc
  refine ⟨hkept.adapter ▸ World.tells_release hclaimed (hkept.contexts ▸ hc), fun a ha => ⟨hkept.starts a ha, fun hfrees => ?_⟩⟩
  have hcomes := hkept.starts a ha
  have hsome : (lastOf past).isSome = true := by
    refine Option.isSome_iff_ne_none.2 fun hnone => ?_
    have hmem : a ∈ past.filterMap Visit.comes? := List.mem_filterMap.2 ⟨_, hcomes, rfl⟩
    rw [List.getLast?_eq_none_iff.1 hnone] at hmem
    cases hmem
  obtain ⟨a', ha'⟩ := Option.isSome_iff_exists.1 hsome
  rw [ha', Option.some_or, Option.filter_some]
  constructor
  · intro htold
    split at htold
    · exact htold
    · cases htold
  · rintro ⟨⟩
    exact if_pos hfrees

end Flight

/-! What a machine does is a history. -/

namespace Machine

variable {m m' : Machine}

def visits (m : Machine) (c : ContextId) : List Visit := m.ready.head?.elim [] fun id => m.flight.visits c (.go id)

/-- What runs have to do with adapters on a context while the machine settles. -/
def trail (c : ContextId) : Nat → Machine → List Visit
  | 0, _ => []
  | fuel + 1, m =>
    match m.step with
    | none => []
    | some m' => m.visits c ++ trail c fuel m'

theorem visits_of_stays {id : TaskId} (hready : m.ready.head? = some id)
    (h : (m.flight.task? id).bind (Task.advance m.world id) = none) : m.visits c = [] := by
  unfold visits
  rw [hready, Option.elim_some, Flight.visits]
  cases ht : m.flight.task? id with
  | none => rfl
  | some t =>
      rw [ht, Option.bind_some] at h
      exact Task.visits_of_stays h

theorem visits_spawn (m : Machine) (call : Call) : (m.spawn call).1.visits c = m.flight.visits c (.call call) :=
  Flight.visits_go (f := (m.spawn call).1.flight) (Flight.task?_spawn_next (f := m.flight) call)

end Machine

namespace Flight.Hosts

variable {f₀ : Flight} {m : Machine}

theorem settle (h : Hosts c f₀ past m.flight) (fuel : Nat) : Hosts c f₀ (past ++ m.trail c fuel) (m.settle fuel).flight := by
  induction fuel generalizing m past with
  | zero => exact (List.append_nil past).symm ▸ h
  | succ fuel ih =>
      unfold Machine.settle Machine.trail
      cases hstep : m.step with
      | none => exact (List.append_nil past).symm ▸ h
      | some m' =>
          dsimp only
          rw [← List.append_assoc]
          obtain ⟨id, hready, ⟨hstays, heq⟩ | hgo⟩ := Machine.flight_step hstep
          · rw [Machine.visits_of_stays hready hstays, List.append_nil]
            exact ih (heq ▸ h)
          · have hvisits : m.visits c = m.flight.visits c (.go id) := by
              unfold Machine.visits
              rw [hready, Option.elim_some]
            rw [hvisits]
            exact ih (h.goes hgo)

theorem spawn (h : Hosts c f₀ past m.flight) (call : Call) (fuel : Nat) :
    Hosts c f₀ (past ++ (m.spawn call).1.trail c (fuel + 1)) ((m.spawn call).1.settle (fuel + 1)).flight := by
  obtain ⟨m', hstep⟩ := m.exists_step_of_spawn call
  unfold Machine.settle Machine.trail
  rw [hstep]
  dsimp only
  rw [Machine.visits_spawn, ← List.append_assoc]
  refine settle ?_ fuel
  rw [Machine.flight_spawn hstep]
  exact h.goes (.call m.flight call)

end Flight.Hosts

end histories

/-! A document in two languages, each of which keeps something for the context. -/

def bilingualDraft : Draft :=
  { tag := "a", document := "doc", registered := "doc", text := "<%a def f const 1 %><%b def g const 2 %>" }

namespace Machine

def bilingual : Machine := { world := (languagesWorld.compile bilingualDraft).1 }

/-- The document has run, and its executable has claimed the context. -/
def bilingualClaimed : Machine := (bilingual.spawn (.makeEnterable ⟨⟨0⟩, ⟨0⟩, none, {}⟩)).1.settle 60

/-- Both languages have run and have something to free, and the second one only is told: what the first one keeps stays. -/
theorem release_tells_second_of_two :
    (bilingual.spawn (.makeEnterable ⟨⟨0⟩, ⟨0⟩, none, {}⟩)).1.trail ⟨0⟩ 60 =
        [.comes ⟨0⟩, .starts ⟨0⟩, .comes ⟨1⟩, .starts ⟨1⟩] ∧
      bilingualClaimed.world.releases ⟨0⟩ = true ∧
      bilingualClaimed.world.Tells (bilingualClaimed.world.release ⟨0⟩) ⟨0⟩ (some ⟨1⟩) ∧
      (((bilingualClaimed.world.release ⟨0⟩).context ⟨0⟩).notes.get? ⟨0⟩).isSome = true := by
  have hlooks := looks_compile languagesWorld bilingualDraft
  have hcontexts : 0 < bilingual.world.contexts.length := congrArg List.length hlooks.contexts_eq ▸ Nat.two_pos
  obtain ⟨htrail, hclaimed, hfirst, hsecond, hnotes⟩ :
      (bilingual.spawn (.makeEnterable ⟨⟨0⟩, ⟨0⟩, none, {}⟩)).1.trail ⟨0⟩ 60 =
          [.comes ⟨0⟩, .starts ⟨0⟩, .comes ⟨1⟩, .starts ⟨1⟩] ∧
        (bilingualClaimed.world.executable ⟨0⟩).claimed = some ⟨0⟩ ∧ bilingualClaimed.world.releases ⟨0⟩ = true ∧
        bilingualClaimed.world.releases ⟨1⟩ = true ∧
        (((bilingualClaimed.world.release ⟨0⟩).context ⟨0⟩).notes.get? ⟨0⟩).isSome = true := by decide +kernel
  have hhosts : Flight.Hosts ⟨0⟩ bilingual.flight ([] ++ (bilingual.spawn (.makeEnterable ⟨⟨0⟩, ⟨0⟩, none, {}⟩)).1.trail ⟨0⟩ 60)
      bilingualClaimed.flight := Flight.Hosts.start.spawn (.makeEnterable ⟨⟨0⟩, ⟨0⟩, none, {}⟩) 59
  rw [htrail] at hhosts
  have hclear : bilingual.flight.IsClear ⟨0⟩ := fun id t ht => by simp [Flight.task?, bilingual, Machine.flight] at ht
  obtain ⟨htells, -⟩ := Flight.release_tells_last hhosts hclear hcontexts hclaimed
  have htold : Option.filter bilingualClaimed.world.releases (some ⟨1⟩) = some ⟨1⟩ := by
    rw [Option.filter_some, if_pos hsecond]
  refine ⟨htrail, hfirst, ?_, hnotes⟩
  rw [← htold]
  exact htells

end Machine

end ScriptedText
