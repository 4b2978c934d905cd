import ScriptedText.Proofs.Engine.SegmentSequence

/-!
Leaving a program and entering the next one in the same language: the world is as it was inside, up to what is on
record.
-/

namespace ScriptedText

/-- The service under a name can be taken back to what was there before, and the handle put in place again, without
a trace. -/
def Context.Reexposes (c : Context) (name : String) (previous : Option Service) (h : Handle) : Prop :=
  (c.setService name previous).setService name (some (.handle h)) = c

theorem Context.Reexposes.bare {c : Context} {name : String} {previous : Option Service} {h : Handle}
    (hc : c.Reexposes name previous h) : c.bare.Reexposes name previous h := by
  unfold Context.Reexposes at *
  rw [← Move.bare_setService, ← Move.bare_setService, hc]

theorem reexposes_setService (c : Context) (name : String) (h : Handle) :
    (c.setService name (some (.handle h))).Reexposes name (c.services.get? name) h := by
  unfold Context.Reexposes Context.setService
  cases hprevious : c.services.get? name with
  | none =>
      dsimp only
      rw [OrderedMap.erase_insert hprevious]
  | some service =>
      dsimp only
      rw [OrderedMap.insert_insert, OrderedMap.insert_insert]

theorem get?_setService (c : Context) (name : String) (s : Option Service) :
    (c.setService name s).services.get? name = s := by
  cases s with
  | none => exact (OrderedMap.get?_erase _ _ _).trans (if_pos rfl)
  | some s => exact (OrderedMap.get?_insert _ _ _ _).trans (if_pos rfl)

/-- What of a context does not depend on the adapter on record, nor on the service with the name. -/
structure Overlooks {α : Type} (name : String) (g : Context → α) : Prop where
  adapter : ∀ (c : Context) (a : Option AdapterId), g { c with adapter := a } = g c
  service : ∀ (c : Context) (s : Option Service), g (c.setService name s) = g c

theorem overlooks_immutable (name : String) : Overlooks name Context.immutable :=
  ⟨fun _ _ => rfl, fun c s => Move.immutable_setService c name s⟩

theorem overlooks_out (name : String) : Overlooks name Context.out := ⟨fun _ _ => rfl, fun _ s => by cases s <;> rfl⟩

theorem overlooks_bindings (name : String) : Overlooks name Context.bindings :=
  ⟨fun _ _ => rfl, fun _ s => by cases s <;> rfl⟩

theorem overlooks_notesOf (name : String) (a : AdapterId) : Overlooks name (Context.notesOf · a) :=
  ⟨fun _ _ => rfl, fun _ s => by cases s <;> rfl⟩

theorem overlooks_service {name other : String} (h : other ≠ name) : Overlooks name (·.services.get? other) := by
  refine ⟨fun _ _ => rfl, fun _ s => ?_⟩
  cases s with
  | none => exact (OrderedMap.get?_erase _ _ _).trans (if_neg h)
  | some s => exact (OrderedMap.get?_insert _ _ _ _).trans (if_neg h)

namespace World

variable {w w₁ v : World} {run : Run} {r : RegistrationId} {a : AdapterId} {adapter : Adapter} {s : Segment}

theorem modifyContext_modifyContext (w : World) (c : ContextId) (f g : Context → Context) :
    (w.modifyContext c f).modifyContext c g = w.modifyContext c (g ∘ f) := by
  unfold modifyContext
  rw [List.modify_modify_eq]

theorem modifyContext_eq_self {c : ContextId} {f : Context → Context} (h : f (w.context c) = w.context c) :
    w.modifyContext c f = w := by
  have hcontexts : w.contexts.modify c.index f = w.contexts := by
    apply List.ext_getElem?
    intro i
    rw [List.getElem?_modify]
    by_cases hi : c.index = i
    · subst hi
      unfold context at h
      cases hx : w.contexts[c.index]? with
      | none => rfl
      | some x =>
          rw [hx] at h
          simpa using h
    · simp [hi]
  unfold modifyContext
  rw [hcontexts]

theorem context_modifyContext (c : ContextId) (f : Context → Context) (hc : c.index < w.contexts.length) :
    (w.modifyContext c f).context c = f (w.context c) := by
  simp [modifyContext, context, List.getElem?_eq_getElem hc]

/-- A lock that is taken has been asked for before. -/
theorem setLock_self (h : (w.lock r).locked = true) : w.setLock r (w.lock r) = w := by
  unfold lock at *
  cases hr : w.locks.get? r with
  | none =>
      rw [hr] at h
      cases h
  | some l =>
      unfold setLock
      rw [Option.getD_some, OrderedMap.insert_self hr]

theorem bare_recorded : (w.recorded run a).bare = w.bare := Move.bare_record w run.context a

theorem bare_taken (b : Bool) : (w.taken run r b).bare = w.bare.taken run r b := by
  cases b <;> rfl

theorem bare_left (b : Bool) : (w.left r b).bare = w.bare.left r b := by
  cases b <;> rfl

theorem bare_started : (w.started run s adapter).bare = w.bare := by
  unfold started
  split
  · exact bare_emit_start w rfl
  · rfl

theorem bare_concealed (swap : Option Swap) : (w.concealed run swap).bare = w.bare.concealed run swap := by
  cases swap with
  | none => rfl
  | some swap => exact bare_modifyContext w _ fun x => Move.bare_setService x _ _

theorem bare_exposed : (w.exposed run).bare = w.bare.exposed run := by
  have himmutable : (w.bare.context run.context).immutable = (w.context run.context).immutable := by
    rw [context_bare]
    rfl
  unfold exposed
  rw [himmutable]
  split
  · rfl
  · exact bare_modifyContext w _ fun x => Move.bare_setService x _ _


theorem lock_exposed (r : RegistrationId) : (w.exposed run).lock r = w.lock r := by
  unfold exposed
  split <;> rfl

theorem lock_started (r : RegistrationId) : (w.started run s adapter).lock r = w.lock r := by
  unfold started
  split <;> rfl

theorem lock_concealed (swap : Option Swap) (r : RegistrationId) : (w.concealed run swap).lock r = w.lock r := by
  cases swap <;> rfl

theorem lock_taken (b : Bool) (r' : RegistrationId) :
    (w.taken run r b).lock r' =
      if b ∧ r' = r then { w.lock r with locked := true, owner := some run.context } else w.lock r' := by
  unfold taken
  cases b with
  | false => rfl
  | true =>
      rw [if_pos rfl, lock_setLock]
      simp only [true_and]

theorem lock_entered (r' : RegistrationId) :
    (w.entered run s r a adapter).lock r' = (w.taken run r (w.takes run r adapter)).lock r' := by
  unfold entered
  rw [lock_started, lock_exposed, lock_taken, lock_taken]
  rfl

theorem executable_entered (e : ExecutableId) : (w.entered run s r a adapter).executable e = w.executable e := by
  unfold entered started exposed taken
  split <;> split <;> split <;> rfl

theorem registry_entered : (w.entered run s r a adapter).registry = w.registry := by
  unfold entered started exposed taken
  split <;> split <;> split <;> rfl

/-- The way in changes nothing in contexts but the adapter on record and the service of the run's executable. -/
theorem read_entered {α : Type} {g : Context → α} (h : Overlooks (w.executable run.executable).exposed g) (c : ContextId) :
    g ((w.entered run s r a adapter).context c) = g (w.context c) := by
  have hrecorded : g ((w.recorded run a).context c) = g (w.context c) :=
    read_modifyContext g w run.context (fun x => h.adapter x _) c
  have htaken (v : World) (b : Bool) : (v.taken run r b).context c = v.context c := by
    cases b <;> rfl
  have hexecutable (b : Bool) :
      ((w.recorded run a).taken run r b).executable run.executable = w.executable run.executable := by
    cases b <;> rfl
  have hexposed (v : World) (hv : v.executable run.executable = w.executable run.executable) :
      g ((v.exposed run).context c) = g (v.context c) := by
    unfold exposed
    split
    · rfl
    · rw [hv]
      exact read_modifyContext g v run.context (fun x => h.service x _) c
  have hstarted (v : World) : (v.started run s adapter).context c = v.context c := by
    unfold started
    split <;> rfl
  unfold entered
  rw [hstarted, hexposed _ (hexecutable _), htaken, hrecorded]

theorem length_contexts_entered : (w.entered run s r a adapter).contexts.length = w.contexts.length := by
  unfold entered started exposed taken
  split <;> split <;> split <;> simp [recorded, modifyContext, setLock, emit]

theorem immutable_entered (c : ContextId) :
    ((w.entered run s r a adapter).context c).immutable = (w.context c).immutable := read_entered (overlooks_immutable _) c

theorem context_entered (hm : (w.context run.context).immutable = false)
    (hc : run.context.index < w.contexts.length) :
    (w.entered run s r a adapter).context run.context =
      ({ w.context run.context with adapter := some a } : Context).setService
        (w.executable run.executable).exposed (some (.handle run.handle)) := by
  have hrecorded : (w.recorded run a).context run.context = { w.context run.context with adapter := some a } :=
    context_modifyContext _ _ hc
  have htaken (v : World) (b : Bool) : (v.taken run r b).context run.context = v.context run.context := by
    cases b <;> rfl
  have hstarted (v : World) : (v.started run s adapter).context run.context = v.context run.context := by
    unfold started
    split <;> rfl
  have hlength : run.context.index < ((w.recorded run a).taken run r (w.takes run r adapter)).contexts.length := by
    cases w.takes run r adapter <;> simpa [recorded, taken, modifyContext, setLock] using hc
  have hexecutable : ((w.recorded run a).taken run r (w.takes run r adapter)).executable run.executable =
      w.executable run.executable := by
    cases w.takes run r adapter <;> rfl
  have hmutable : (((w.recorded run a).taken run r (w.takes run r adapter)).context run.context).immutable = false := by
    rw [htaken, hrecorded]
    exact hm
  unfold entered
  rw [hstarted, exposed, if_neg (by rw [hmutable]; nofun), context_modifyContext _ _ hlength, htaken, hrecorded,
    hexecutable]

/-- The world after a program that was entered in `w` and came to `w₁` inside. -/
def seenOut (w : World) (run : Run) (r : RegistrationId) (adapter : Adapter) (w₁ : World) : World :=
  (w₁.concealed run (w.swap? run)).left r (w.takes run r adapter)

/-- The way out puts the service back, and changes nothing else in contexts. -/
theorem read_seenOut {α : Type} {g : Context → α} (h : Overlooks (w.executable run.executable).exposed g) (c : ContextId) :
    g ((w.seenOut run r adapter w₁).context c) = g (w₁.context c) := by
  have hleft (v : World) (b : Bool) : (v.left r b).context c = v.context c := by
    cases b <;> rfl
  unfold seenOut swap?
  rw [hleft]
  split
  · rfl
  · exact read_modifyContext g w₁ run.context (fun x => h.service x _) c

/-- What is left of the way in when a program has succeeded. -/
structure Inside (run : Run) (s : Segment) (r : RegistrationId) (a : AdapterId) (adapter : Adapter) (w w₁ : World) :
    Prop where
  keeps : (w.entered run s r a adapter).Keeps w₁
  locks : GivesBack [] (w.entered run s r a adapter) w₁
  service : (w.context run.context).immutable = false →
    (w₁.context run.context).Reexposes (w.executable run.executable).exposed
      ((w.context run.context).services.get? (w.executable run.executable).exposed) run.handle

namespace Inside

variable {registry : Registry} {exposed : String}

/-- The lock that was taken on the way in is still the run's own, with nobody waiting. -/
theorem lock_of_takes (h : Inside run s r a adapter w w₁) (hw : w.Suits registry exposed run)
    (ht : w.takes run r adapter = true) (hfree : (w.lock r).locked = false) :
    w₁.lock r = { locked := true, owner := some run.context } := by
  have hentered : (w.entered run s r a adapter).lock r = { locked := true, owner := some run.context } := by
    rw [lock_entered, lock_taken, ht, if_pos ⟨rfl, rfl⟩]
    dsimp only
    rw [hw.rest r hfree]
  rcases (h.locks r).2 List.not_mem_nil with hl | ⟨hl, -⟩
  · exact hl.trans hentered
  · rw [hentered] at hl
    cases hl

theorem lock_of_held (h : Inside run s r a adapter w w₁) (ht : w.takes run r adapter = false)
    (hheld : (w.lock r).isHeldBy run.context = true) : w₁.lock r = w.lock r := by
  have hentered : (w.entered run s r a adapter).lock r = w.lock r := by
    rw [lock_entered, lock_taken, ht]
    simp
  have hlocked : (w.lock r).locked = true := by
    unfold Lock.isHeldBy at hheld
    exact (Bool.and_eq_true_iff.1 hheld).1
  rcases (h.locks r).2 List.not_mem_nil with hl | ⟨hl, -⟩
  · exact hl.trans hentered
  · rw [hentered, hlocked] at hl
    cases hl

theorem lock_seenOut_of_takes (h : Inside run s r a adapter w w₁) (hw : w.Suits registry exposed run)
    (ht : w.takes run r adapter = true) (hfree : (w.lock r).locked = false) :
    (w.seenOut run r adapter w₁).lock r = {} := by
  unfold seenOut left
  rw [if_pos ht, lock_setLock, if_pos rfl, lock_concealed, h.lock_of_takes hw ht hfree]
  rfl

/-- The next program in the language takes the lock if this one did, and finds it free. -/
theorem takes_seenOut (h : Inside run s r a adapter w w₁) (hw : w.Suits registry exposed run)
    (hfree : w.takes run r adapter = true → (w.lock r).locked = false) :
    (w.seenOut run r adapter w₁).takes run r adapter = w.takes run r adapter ∧
      (w.takes run r adapter = true → ((w.seenOut run r adapter w₁).lock r).locked = false) := by
  cases ht : w.takes run r adapter with
  | true =>
      have hlock := h.lock_seenOut_of_takes hw ht (hfree ht)
      refine ⟨?_, fun _ => by rw [hlock]⟩
      have hsafe := (Bool.and_eq_true_iff.1 ht).1
      unfold takes
      rw [hlock, hsafe]
      rfl
  | false =>
      refine ⟨?_, nofun⟩
      cases hsafe : adapter.threadSafe with
      | true => simp [takes, hsafe]
      | false =>
          have hheld : (w.lock r).isHeldBy run.context = true := by simpa [takes, hsafe] using ht
          have hlock : (w.seenOut run r adapter w₁).lock r = w.lock r := by
            unfold seenOut left
            rw [if_neg (by rw [ht]; nofun), lock_concealed, h.lock_of_held ht hheld]
          simp [takes, hlock, hheld]

theorem immutable_eq (h : Inside run s r a adapter w w₁) (c : ContextId) :
    (w₁.context c).immutable = (w.context c).immutable := (h.keeps.immutable c).trans (immutable_entered c)

theorem exposed_eq (h : Inside run s r a adapter w w₁) (hw : w.Suits registry exposed run) :
    (w₁.executable run.executable).exposed = (w.executable run.executable).exposed := by
  have hlength : run.executable.index < (w.entered run s r a adapter).executables.length := by
    unfold entered started World.exposed taken
    split <;> split <;> split <;> exact hw.executable
  exact (h.keeps.exposed _ hlength).trans (congrArg Executable.exposed (executable_entered _))

theorem executable_seenOut : (w.seenOut run r adapter w₁).executable run.executable = w₁.executable run.executable := by
  unfold seenOut left concealed
  split <;> split <;> rfl

/-- The next program finds the same service to be put aside. -/
theorem swap?_seenOut (h : Inside run s r a adapter w w₁) (hw : w.Suits registry exposed run) :
    (w.seenOut run r adapter w₁).swap? run = w.swap? run := by
  have hexposed := h.exposed_eq hw
  have hcontext (v : World) (b : Bool) : (v.left r b).context run.context = v.context run.context := by
    cases b <;> rfl
  have hlength : run.context.index < w₁.contexts.length := by
    rw [h.keeps.contexts, length_contexts_entered]
    exact hw.context
  unfold swap?
  rw [executable_seenOut, hexposed, seenOut, hcontext]
  cases hm : (w.context run.context).immutable with
  | true =>
      have hswap : w.swap? run = none := by simp [swap?, hm]
      rw [hswap, concealed, h.immutable_eq, hm]
      rfl
  | false =>
      have hswap : w.swap? run = some ⟨(w.executable run.executable).exposed,
          (w.context run.context).services.get? (w.executable run.executable).exposed⟩ := by simp [swap?, hm]
      rw [hswap, concealed, context_modifyContext _ _ hlength, Move.immutable_setService, h.immutable_eq, hm,
        get?_setService]

theorem exposed_concealed (h : Inside run s r a adapter w w₁) (hw : w.Suits registry exposed run) :
    (w₁.bare.concealed run (w.swap? run)).exposed run = w₁.bare := by
  have himmutable : (w₁.bare.context run.context).immutable = (w.context run.context).immutable := by
    rw [context_bare]
    exact h.immutable_eq _
  cases hm : (w.context run.context).immutable with
  | true =>
      have hswap : w.swap? run = none := by simp [swap?, hm]
      rw [hswap, concealed, World.exposed, if_pos (himmutable.trans hm)]
  | false =>
      have hswap : w.swap? run = some ⟨(w.executable run.executable).exposed,
          (w.context run.context).services.get? (w.executable run.executable).exposed⟩ := by simp [swap?, hm]
      have hmutable : ((w₁.bare.modifyContext run.context (·.setService (w.executable run.executable).exposed
          ((w.context run.context).services.get? (w.executable run.executable).exposed))).context
          run.context).immutable = false := by
        rw [read_modifyContext Context.immutable _ _ fun x => Move.immutable_setService x _ _]
        exact himmutable.trans hm
      have hexecutable : (w₁.executable run.executable).exposed = (w.executable run.executable).exposed :=
        h.exposed_eq hw
      rw [hswap, concealed, World.exposed, if_neg (by rw [hmutable]; exact Bool.false_ne_true)]
      change (w₁.bare.modifyContext _ _).modifyContext _ (·.setService (w₁.executable run.executable).exposed _) = _
      rw [hexecutable, modifyContext_modifyContext]
      refine modifyContext_eq_self ?_
      rw [context_bare]
      exact (h.service hm).bare

/-- The next program in the language starts where this one ended. -/
theorem bare_entered_seenOut (h : Inside run s r a adapter w w₁) (hw : w.Suits registry exposed run)
    (hfree : w.takes run r adapter = true → (w.lock r).locked = false) (s' : Segment) :
    ((w.seenOut run r adapter w₁).entered run s' r a adapter).bare = w₁.bare := by
  have htakes := (h.takes_seenOut hw hfree).1
  have hlocks (v : World) (hv : w.takes run r adapter = true → v.lock r = { locked := true, owner := some run.context }) :
      (v.left r (w.takes run r adapter)).taken run r (w.takes run r adapter) = v := by
    cases ht : w.takes run r adapter with
    | false => rfl
    | true =>
        have hv' := hv ht
        unfold left taken
        rw [if_pos rfl, if_pos rfl, lock_setLock, if_pos rfl, setLock_setLock, hv']
        refine Eq.trans ?_ (setLock_self (r := r) (w := v) (by rw [hv']))
        rw [hv']
        rfl
  have hservice := h.exposed_concealed hw
  unfold entered
  rw [bare_started, bare_exposed, bare_taken, bare_recorded, htakes]
  unfold seenOut
  rw [bare_left, bare_concealed, hlocks, hservice]
  intro ht
  rw [lock_concealed]
  exact h.lock_of_takes hw ht (hfree ht)

end Inside

end World

end ScriptedText
