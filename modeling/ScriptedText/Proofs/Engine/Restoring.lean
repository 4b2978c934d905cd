import ScriptedText.Proofs.Engine.Deadlock
import ScriptedText.Proofs.Engine.Lifecycle
import ScriptedText.Proofs.Engine.Nesting

/-!
What services a context has while runs stand on each other. Each program that has started covers what it found, and uncovers
it when it ends, however it ends; so what the frames of a task say about services is all that the task has done to them.
-/

namespace ScriptedText

open Relation

/-- Whether a program is about to change a service of the context by itself. -/
def Control.setsService (c : ContextId) : Control → Bool
  | .talking s (.ask (.setService _ _) _) => s.context = c
  | _ => false

/-- The services that a context has at a stack, if it was `c₀` below it. -/
inductive Dressed (w : World) (c : ContextId) (c₀ : Context) : List Frame → OrderedMap String Service → Prop
  | nil : Dressed w c c₀ [] c₀.services
  | frame {stack : List Frame} {s : OrderedMap String Service} {f : Frame} (h : Dressed w c c₀ stack s)
      (hf : f.isProgram = false) : Dressed w c c₀ (f :: stack) s
  | elsewhere {stack : List Frame} {s : OrderedMap String Service} {run : Run} (h : Dressed w c c₀ stack s)
      (hc : run.context ≠ c) (site : Site) (swap : Option Swap) : Dressed w c c₀ (.program run site swap :: stack) s
  /-- In a claimed context a program leaves services alone. -/
  | claimed {stack : List Frame} {s : OrderedMap String Service} {run : Run} (h : Dressed w c c₀ stack s)
      (hc : run.context = c) (himmutable : c₀.immutable = true) (site : Site) :
      Dressed w c c₀ (.program run site none :: stack) s
  | covers {stack : List Frame} {s : OrderedMap String Service} {run : Run} {name : String} (h : Dressed w c c₀ stack s)
      (hc : run.context = c) (he : run.executable.index < w.executables.length)
      (hname : name = (w.executable run.executable).exposed) (site : Site) :
      Dressed w c c₀ (.program run site (some ⟨name, s.get? name⟩) :: stack) (s.insert name (.handle run.handle))

namespace World

variable {w w₁ : World} {c c' : ContextId} {g : OrderedMap String Service → OrderedMap String Service}

theorem services_at_of_eq (h : w₁.services = w.services) (c : ContextId) :
    (w₁.context c).services = (w.context c).services := by
  rw [services_context, h, ← services_context]

theorem services_at_of_modify (h : w₁.services = w.services.modify c'.index g) (hc : c.index < w.contexts.length) :
    (w₁.context c).services = if c' = c then g (w.context c).services else (w.context c).services := by
  have hsome : w.services[c.index]? = some (w.context c).services := by
    simp [services, context, List.getElem?_eq_getElem hc]
  rw [services_context, h, List.getElem?_modify, hsome]
  by_cases hcc : c' = c
  · subst hcc
    simp
  · have hindex : c'.index ≠ c.index := fun heq => hcc (by cases c; cases c'; exact congrArg ContextId.mk heq)
    simp [hcc, hindex]

end World

/-- Only a claim, or what gives it up, changes whether a context is claimed. -/
theorem Move.Deals.immutable_eq {w : World} {id : TaskId} {control : Control} {popped : List Frame} {m : Move}
    (h : Move.Deals w id control popped m) (hpopped : popped.any Frame.isClaiming = false) (c : ContextId) :
    (m.world.context c).immutable = (w.context c).immutable := by
  cases h with
  | quiet _ h => exact h.evolves.keeps.immutable c
  | takes _ _ h _ => exact h.keeps.immutable c
  | queues _ _ h _ _ => exact h.keeps.immutable c
  | enters o r inside => exact (quiet_goInside _ inside).evolves.keeps.immutable c
  | fails o run outcome h f => exact h.keeps.immutable c
  | claims r run hfree => cases hpopped
  | _ => rfl

namespace Dressed

variable {w w' : World} {c : ContextId} {c₀ : Context} {s : OrderedMap String Service} {stack above rest popped : List Frame}
  {chain : List (Run × PlacedSegment)} {tier : Tier} {run : Run} {p : PlacedSegment} {m : Move} {control : Control}
  {f : Frame}

theorem of_makes (h : Dressed w c c₀ stack s) (hmakes : w.Makes w') : Dressed w' c c₀ stack s := by
  induction h with
  | nil => exact .nil
  | frame h hf ih => exact .frame ih hf
  | elsewhere h hc site swap ih => exact .elsewhere ih hc site swap
  | claimed h hc himmutable site ih => exact .claimed ih hc himmutable site
  | @covers stack s run name h hc he hname site ih =>
      have hmade : (w'.executable run.executable).asMade.exposed = (w.executable run.executable).asMade.exposed :=
        congrArg Executable.exposed (hmakes.executable_eq he)
      refine .covers ih hc (Nat.lt_of_lt_of_le he ?_) (hname.trans hmade.symm) site
      simpa using hmakes.length_le

/-- Frames of programs that are elsewhere, and other frames, play no part. -/
theorem of_append (h : Dressed w c c₀ (above ++ rest) s)
    (habove : ∀ run site swap, Frame.program run site swap ∈ above → run.context ≠ c) : Dressed w c c₀ rest s := by
  induction above with
  | nil => exact h
  | cons f above ih =>
      refine ih ?_ fun run site swap hmem => habove run site swap (List.mem_cons_of_mem _ hmem)
      cases h with
      | frame h _ => exact h
      | elsewhere h _ _ _ => exact h
      | claimed h hc _ site => exact absurd hc (habove _ _ _ (List.mem_cons_self ..))
      | covers h hc _ _ site => exact absurd hc (habove _ _ _ (List.mem_cons_self ..))

theorem pop (h : Dressed w c c₀ (f :: rest) s) (hf : f.isProgram = false) : Dressed w c c₀ rest s := by
  have happended : Dressed w c c₀ ([f] ++ rest) s := h
  refine happended.of_append fun run site swap hmem => ?_
  cases List.mem_singleton.1 hmem
  cases hf

theorem append (h : Dressed w c c₀ stack s) (habove : above.all fun f => !f.isProgram) :
    Dressed w c c₀ (above ++ stack) s := by
  induction above with
  | nil => exact h
  | cons f above ih =>
      obtain ⟨hf, habove⟩ := Bool.and_eq_true_iff.1 habove
      exact .frame (ih habove) (by simpa using hf)

/-- The executable of a program that is running is found under its exposed name. -/
theorem get?_exposed {site : Site} {swap : Option Swap} (h : Dressed w c c₀ (.program run site swap :: rest) s)
    (hc : run.context = c) (hstarted : c₀.immutable = false ∨ swap.isSome = true) :
    s.get? (w.executable run.executable).exposed = some (.handle run.handle) := by
  cases h with
  | frame _ hf => cases hf
  | elsewhere _ hne _ _ => exact absurd hc hne
  | claimed _ _ himmutable _ => simp [himmutable] at hstarted
  | covers h _ _ hname _ =>
      subst hname
      exact (OrderedMap.get?_insert ..).trans (if_pos rfl)

/-- When a program ends, what it found is there again. -/
theorem uncover {site : Site} {swap : Option Swap} (h : Dressed w c c₀ (.program run site swap :: rest) s)
    (hs : (w.context c).services = s) (hlt : c.index < w.contexts.length)
    (hservices : w'.services = (w.concealed run swap).services) : Dressed w c c₀ rest (w'.context c).services := by
  rw [World.services_concealed] at hservices
  have hother (hc : run.context ≠ c) : (w'.context c).services = (w.context c).services := by
    cases swap with
    | none => exact World.services_at_of_eq hservices c
    | some swap => exact (World.services_at_of_modify hservices hlt).trans (if_neg hc)
  cases h with
  | frame _ hf => cases hf
  | elsewhere h hc _ _ =>
      rw [hother hc, hs]
      exact h
  | claimed h _ _ _ =>
      rw [World.services_at_of_eq hservices, hs]
      exact h
  | covers h hc _ _ _ =>
      rw [World.services_at_of_modify hservices hlt, if_pos hc, hs, OrderedMap.put_insert]
      exact h

theorem tries (h : Dressed w c c₀ stack (w.context c).services) (hlt : c.index < w.contexts.length)
    (he : run.executable.index < w.executables.length)
    (himmutable : (w.context c).immutable = true → c₀.immutable = true) (hm : Move.Tries w run p m) :
    Dressed w c c₀ (m.push ++ stack) (m.world.context c).services := by
  cases hm with
  | done hpush _ hservices =>
      rw [hpush, World.services_at_of_eq hservices]
      exact h
  | asks r a hpush _ hservices =>
      rw [hpush, World.services_at_of_eq hservices]
      exact .frame h rfl
  | starts hpush hservices =>
      rw [World.services_exposed] at hservices
      rw [hpush]
      by_cases hc : run.context = c
      · subst hc
        -- In a claimed context nothing is exposed, and nothing is put down on the frame.
        by_cases hm : (w.context run.context).immutable = true
        · rw [if_pos hm] at hservices
          rw [World.swap?, if_pos hm, World.services_at_of_eq hservices]
          exact .claimed h rfl (himmutable hm) _
        · rw [if_neg hm] at hservices
          rw [World.swap?, if_neg hm, World.services_at_of_modify hservices hlt, if_pos rfl]
          exact .covers h rfl he rfl _
      · have hsame : (m.world.context c).services = (w.context c).services := by
          split at hservices
          · exact World.services_at_of_eq hservices c
          · exact (World.services_at_of_modify hservices hlt).trans (if_neg hc)
        rw [hsame]
        exact .elsewhere h hc _ _

theorem free (h : Dressed w c c₀ stack (w.context c).services) (hm : Move.Free w m) :
    Dressed w c c₀ (m.push ++ stack) (m.world.context c).services := by
  rw [World.services_at_of_eq hm.services]
  refine h.append (List.all_eq_true.2 fun f hf => ?_)
  have hfree := List.all_eq_true.1 hm.push f hf
  cases f with
  | program _ _ _ => cases hfree
  | _ => rfl

/-- One step of a task, which does not change services by itself. -/
theorem lays (h : Dressed w c c₀ (popped ++ rest) (w.context c).services) (hlt : c.index < w.contexts.length)
    (himmutable : (w.context c).immutable = true → c₀.immutable = true)
    (hnested : Nested w (popped ++ rest) chain tier) (hm : Move.Lays w control popped m)
    (hsets : control.setsService c = false) : Dressed w c c₀ (m.push ++ rest) (m.world.context c).services := by
  have hunder (f : Frame) (m' : Move) (heq : m = m'.under [f])
      (h : Dressed w c c₀ (m'.push ++ f :: rest) (m'.world.context c).services) :
      Dressed w c c₀ (m.push ++ rest) (m.world.context c).services := by
    subst heq
    simpa [Move.under] using h
  have hsegments {run : Run} {p : PlacedSegment} {left : List PlacedSegment}
      (h : ∃ before, (w.executable run.executable).segments = before ++ p :: left) :
      run.executable.index < w.executables.length := by
    obtain ⟨before, heq⟩ := h
    exact World.lt_of_segments (by simp [heq])
  cases hm with
  | call _ hfree => exact h.free hfree
  | @free _ f _ hf hfree =>
      refine (h.pop ?_).free hfree
      cases f with
      | program _ _ _ => cases hf
      | _ => rfl
  | finishes hfree => exact (h.pop rfl).free hfree
  | @tries _ f run p left m' hf htries =>
      refine hunder _ m' rfl (tries (.frame (h.pop ?_) rfl) hlt ?_ himmutable htries)
      · rcases hf with ⟨rfl, -⟩ | rfl
        · rfl
        · rfl
      · rcases hf with ⟨rfl, heq⟩ | rfl
        · exact hsegments ⟨[], heq⟩
        · obtain ⟨-, before, p', heq⟩ := hnested.below_of_segment
          exact hsegments ⟨before ++ [p'], by rw [heq, List.append_assoc]; rfl⟩
  | @enters _ r run p a m' htries =>
      have hmem := hnested.below_of_granted.exists_segments
      exact hunder _ m' rfl (tries (.frame (h.pop rfl) rfl) hlt (World.lt_of_segments (List.ne_nil_of_mem hmem))
        himmutable htries)
  | lets hpush hservices =>
      rw [hpush, World.services_at_of_eq hservices]
      exact .frame (h.pop rfl) rfl
  | leaves hpush _ hservices =>
      rw [hpush, World.services_at_of_eq hservices]
      exact h.pop rfl
  | ends hpush _ hservices =>
      rw [hpush]
      exact h.uncover rfl hlt hservices
  | @sets s name v k _ hpush hservices =>
      have hne : s.context ≠ c := of_decide_eq_false hsets
      rw [hpush, World.services_at_of_modify hservices hlt, if_neg hne]
      exact h

end Dressed

/-- A task that claims no context, and whose frames say all that it has done to the services of one. -/
structure Task.Tidy (w : World) (c : ContextId) (c₀ : Context) (t : Task) : Prop where
  nests : t.Nests w
  unclaiming : t.stack.any Frame.isClaiming = false ∧ t.control.claims = false
  dressed : Dressed w c c₀ t.stack (w.context c).services
  immutable : (w.context c).immutable = true → c₀.immutable = true
  exists_context : c.index < w.contexts.length

namespace Task.Tidy

variable {w w' : World} {c : ContextId} {c₀ : Context} {t t' : Task}

theorem of_makes (h : t.Tidy w c c₀) (hmakes : w.Makes w') (hcontexts : w'.contexts.length = w.contexts.length)
    (hservices : (w'.context c).services = (w.context c).services)
    (himmutable : (w'.context c).immutable = true → (w.context c).immutable = true) : t.Tidy w' c c₀ where
  nests := h.nests.of_makes hmakes
  unclaiming := h.unclaiming
  dressed := hservices ▸ h.dressed.of_makes hmakes
  immutable := h.immutable ∘ himmutable
  exists_context := hcontexts ▸ h.exists_context

theorem of_abides (h : t.Tidy w c c₀) (ht : t.Abides t') : t'.Tidy w c c₀ where
  nests := h.nests.of_abides ht
  unclaiming := by
    refine ⟨ht.stack ▸ h.unclaiming.1, ?_⟩
    rcases ht.control with heq | hstill
    · exact heq ▸ h.unclaiming.2
    · cases hcontrol : t'.control with
      | call c => simp [hcontrol, Control.isStill] at hstill
      | _ => rfl
  dressed := ht.stack ▸ h.dressed
  immutable := h.immutable
  exists_context := h.exists_context

theorem advance {id : TaskId} {m : Move} {rest : List Frame} (h : t.Tidy w c c₀) (hsets : t.control.setsService c = false)
    (ha : t.advance w id = some (m, rest)) : Task.Tidy m.world c c₀ ⟨m.push ++ rest, m.control⟩ := by
  obtain ⟨popped, hstack, hdeals⟩ := Task.deals_of_advance ha
  obtain ⟨popped', hstack', hlays⟩ := Task.lays_of_advance ha
  cases List.append_cancel_right (hstack.symm.trans hstack')
  obtain ⟨hstill, hcontrol⟩ := h.unclaiming
  rw [hstack, List.any_append, Bool.or_eq_false_iff] at hstill
  obtain ⟨hpush, hnext⟩ := hdeals.claims_nothing hcontrol
  have hturns := Task.turns_of_advance ha
  obtain ⟨chain, tier, hnested, -⟩ := h.nests
  have hdressed := h.dressed
  rw [hstack] at hnested hdressed
  exact
    { nests := h.nests.advance ha
      unclaiming := ⟨by simp only [List.any_append, hpush, hstill.2, Bool.or_self], hnext⟩
      dressed := (hdressed.lays h.exists_context h.immutable hnested hlays hsets).of_makes hturns.makes
      immutable := fun himmutable => h.immutable ((hdeals.immutable_eq hstill.1 c).symm.trans himmutable)
      exists_context := hturns.contexts_eq ▸ h.exists_context }

end Task.Tidy

namespace Flight

/-- Something happens while a task works on a context. The task may change services by running programs only. Others leave
them as they are, and do not claim the context. -/
inductive Undisturbed (id : TaskId) (c : ContextId) : Flight → Flight → Prop
  | own {f f' : Flight} {t : Task} (ht : f.task? id = some t) (hsets : t.control.setsService c = false)
      (h : f.Goes (.go id) f') : Undisturbed id c f f'
  | other {f f' : Flight} {d : Deed} (hd : d ≠ .go id) (h : f.Goes d f')
      (hservices : (f'.world.context c).services = (f.world.context c).services)
      (hclaims : (f'.world.context c).immutable = true → (f.world.context c).immutable = true) : Undisturbed id c f f'
  | serves (f : Flight) (errand : Errand) : Undisturbed id c f { f with world := f.world.serve errand }

variable {f₀ f f' : Flight} {id : TaskId} {c : ContextId} {c₀ : Context} {run : Run} {options : RunOptions} {t : Task}

theorem Undisturbed.tidy (h : Undisturbed id c f f') (ht : ∃ t, f.task? id = some t ∧ t.Tidy f.world c c₀) :
    ∃ t, f'.task? id = some t ∧ t.Tidy f'.world c c₀ := by
  obtain ⟨t, ht, htidy⟩ := ht
  cases h with
  | own hu hsets h =>
      cases ht.symm.trans hu
      obtain ⟨t', ht', ⟨hne, -⟩ | ⟨-, m, rest, ha, hworld, habides⟩⟩ := h.follow ht
      · exact absurd rfl hne
      · exact ⟨t', ht', hworld ▸ (htidy.advance hsets ha).of_abides habides⟩
  | other hd h hservices hclaims =>
      obtain ⟨t', ht', ⟨-, habides⟩ | ⟨heq, -⟩⟩ := h.follow ht
      · have hturns := h.turns
        exact ⟨t', ht', (htidy.of_abides habides).of_makes hturns.makes hturns.contexts_eq hservices hclaims⟩
      · exact absurd heq hd
  | serves errand =>
      have hcontexts := f.world.contexts_serve errand
      have hcontext : (f.world.serve errand).context c = f.world.context c := by
        unfold World.context
        rw [hcontexts]
      exact ⟨t, ht, htidy.of_makes (World.makes_serve f.world errand) (congrArg List.length hcontexts)
        (congrArg Context.services hcontext) fun himmutable => congrArg Context.immutable hcontext ▸ himmutable⟩

theorem exists_tidy (hc : c.index < f₀.world.contexts.length)
    (h : ReflTransGen (Undisturbed f₀.next c) (f₀.start (.execute run options)) f) :
    ∃ t, f.task? f₀.next = some t ∧ t.Tidy f.world c (f₀.world.context c) := by
  induction h with
  | refl =>
      have hspawned := task?_spawn_next (f := f₀) (.execute run options)
      exact Undisturbed.tidy (f := f₀.spawn (.execute run options)) (.own hspawned rfl (f₀.goes_spawn _))
        ⟨_, hspawned, .call _ _, ⟨rfl, rfl⟩, .nil, id, hc⟩
  | tail _ hstep ih => exact hstep.tidy ih

/-- However it comes to its end, a run leaves the services of its context, and of any other one, as they were. While one of
its programs runs on the context, and none that it has started does, the service under the exposed name is that of the
program's executable. -/
theorem services_restored (hc : c.index < f₀.world.contexts.length)
    (h : ReflTransGen (Undisturbed f₀.next c) (f₀.start (.execute run options)) f)
    (ht : f.task? f₀.next = some t) :
    (∀ o, t.result? = some o → (f.world.context c).services = (f₀.world.context c).services) ∧
      ∀ above inner site swap below, t.stack = above ++ .program inner site swap :: below → inner.context = c →
        (∀ run' site swap, Frame.program run' site swap ∈ above → run'.context ≠ c) →
        ((f₀.world.context c).immutable = false ∨ swap.isSome = true) →
        (f.world.context c).services.get? (f.world.executable inner.executable).exposed =
          some (.handle inner.handle) := by
  obtain ⟨u, hu, htidy⟩ := exists_tidy hc h
  cases ht.symm.trans hu
  refine ⟨fun o ho => ?_, fun above inner site swap below hstack hcontext habove hstarted => ?_⟩
  · obtain ⟨stack, control⟩ := t
    have hdressed := htidy.dressed
    cases stack with
    | nil =>
        generalize (f.world.context c).services = services at hdressed
        cases hdressed
        rfl
    | cons frame stack => cases control <;> cases ho
  · have hdressed := htidy.dressed
    rw [hstack] at hdressed
    exact (hdressed.of_append habove).get?_exposed hcontext hstarted

end Flight

namespace Machine

/-- Whether only the task takes steps for a while, and its programs do not change services of the context by themselves. -/
def restrained (id : TaskId) (c : ContextId) : Nat → Machine → Bool
  | 0, _ => true
  | fuel + 1, m =>
    match m.step with
    | none => true
    | some m' => m.ready.head? = some id && ((m.task? id).all fun t => !t.control.setsService c) && restrained id c fuel m'

theorem undisturbed_settle {id : TaskId} {c : ContextId} (fuel : Nat) {m : Machine} (h : m.restrained id c fuel = true) :
    ReflTransGen (Flight.Undisturbed id c) m.flight (m.settle fuel).flight := by
  induction fuel generalizing m with
  | zero => exact .refl
  | succ fuel ih =>
      cases hstep : m.step with
      | none =>
          rw [settle, hstep]
      | some m' =>
          rw [restrained, hstep] at h
          simp only [Bool.and_eq_true, decide_eq_true_eq] at h
          obtain ⟨⟨hfront, hsets⟩, hrest⟩ := h
          rw [settle, hstep]
          obtain ⟨id', hready, ⟨-, heq⟩ | hgo⟩ := flight_step hstep
          · exact heq ▸ ih hrest
          · cases hfront.symm.trans hready
            have hown {f' : Flight} (hgo : m.flight.Goes (.go id) f') : Flight.Undisturbed id c m.flight f' := by
              cases hgo with
              | @go _ t _ _ ht ha =>
                  have htask : m.task? id = some t := ht
                  rw [htask] at hsets
                  exact .own ht (by simpa using hsets) (.go ht ha)
            exact .head (hown hgo) (ih hrest)

theorem undisturbed_spawn (m : Machine) (call : Call) {c : ContextId} {fuel : Nat} (hfuel : 0 < fuel)
    (h : (m.spawn call).1.restrained m.flight.next c fuel = true) :
    ReflTransGen (Flight.Undisturbed m.flight.next c) (m.flight.start call) ((m.spawn call).1.settle fuel).flight := by
  obtain ⟨m', hstep⟩ := m.exists_step_of_spawn call
  cases fuel with
  | zero => cases hfuel
  | succ fuel =>
      rw [restrained, hstep] at h
      rw [settle, hstep, ← flight_spawn hstep]
      exact undisturbed_settle fuel (Bool.and_eq_true_iff.1 h).2

/-- Whether what the task is at is a program of the executable, on the context. -/
def runsIn (e : ExecutableId) (c : ContextId) (t : Task) : Bool :=
  match t.stack with
  | .program run _ _ :: _ => run.executable = e && run.context = c
  | _ => false

theorem exists_program {e : ExecutableId} {c : ContextId} {t : Task} (h : runsIn e c t = true) :
    ∃ run site swap below, t.stack = .program run site swap :: below ∧ run.executable = e ∧ run.context = c := by
  unfold runsIn at h
  split at h
  · next run site swap below hstack =>
      simp only [Bool.and_eq_true, decide_eq_true_eq] at h
      exact ⟨run, site, swap, below, hstack, h⟩
  · cases h

/-- The context has a service of no value already under the name that the documents expose theirs by. -/
def preparedWorld : World :=
  let library := (languagesWorld.setDocument ⟨0⟩ "inner b" "<%b fail oops%>" "" none).1
  let services := .ofList [("executable", .value .undefined), ("other", .value (.text "x"))]
  ({ library with contexts := [{ services }] }.compile outwardDraft).1

def preparedCall : Call := .execute ⟨⟨0⟩, ⟨0⟩, some .host, {}⟩ {}

/-- A document runs that includes one in which a program fails. -/
def failing : Machine := (spawn { world := preparedWorld } preparedCall).1

/-- The failure leaves both documents; before it, the included document's service stood in place of the including one's. -/
theorem services_restored_through_failure :
    ((failing.settle 40).result? ⟨0⟩).isSome = true ∧
      ((failing.settle 40).world.context ⟨0⟩).services = (preparedWorld.context ⟨0⟩).services ∧
      ∃ inner site swap below, ((failing.settle 17).task? ⟨0⟩).map Task.stack = some (.program inner site swap :: below) ∧
        inner.executable = ⟨1⟩ ∧
        ((failing.settle 17).world.context ⟨0⟩).services.get?
          ((failing.settle 17).world.executable inner.executable).exposed = some (.handle inner.handle) := by
  have hreaches {fuel : Nat} (hfuel : 0 < fuel) (h : failing.restrained ⟨0⟩ ⟨0⟩ fuel = true) :=
    undisturbed_spawn { world := preparedWorld } preparedCall hfuel h
  have hcontext : ContextId.index ⟨0⟩ < (Flight.mk preparedWorld []).world.contexts.length := by decide +kernel
  -- What is said of any machine that goes so far is not computed at this one.
  have hrestored {m : Machine} {t : Task} (ht : m.task? ⟨0⟩ = some t)
      (h : ReflTransGen (Flight.Undisturbed ⟨0⟩ ⟨0⟩) (Flight.start ⟨preparedWorld, []⟩ preparedCall) m.flight) :=
    Flight.services_restored hcontext h ht
  have hends {m : Machine}
      (h : ReflTransGen (Flight.Undisturbed ⟨0⟩ ⟨0⟩) (Flight.start ⟨preparedWorld, []⟩ preparedCall) m.flight)
      (hresult : (m.result? ⟨0⟩).isSome = true) :
      (m.world.context ⟨0⟩).services = (preparedWorld.context ⟨0⟩).services := by
    obtain ⟨o, ho⟩ := Option.isSome_iff_exists.1 hresult
    obtain ⟨t, ht, ho⟩ := Option.bind_eq_some_iff.1 ho
    exact (hrestored ht h).1 o ho
  have hinside {m : Machine}
      (h : ReflTransGen (Flight.Undisturbed ⟨0⟩ ⟨0⟩) (Flight.start ⟨preparedWorld, []⟩ preparedCall) m.flight)
      (htop : (m.task? ⟨0⟩).any (runsIn ⟨1⟩ ⟨0⟩) = true) :
      ∃ inner site swap below, (m.task? ⟨0⟩).map Task.stack = some (.program inner site swap :: below) ∧
        inner.executable = ⟨1⟩ ∧ (m.world.context ⟨0⟩).services.get? (m.world.executable inner.executable).exposed =
          some (.handle inner.handle) := by
    obtain ⟨t, ht, htop⟩ := (Option.any_eq_true ..).1 htop
    obtain ⟨inner, site, swap, below, hstack, he, hc⟩ := exists_program htop
    have hservice := (hrestored ht h).2 [] inner site swap below hstack hc
      (fun _ _ _ hmem => absurd hmem List.not_mem_nil) (.inl (by decide +kernel))
    exact ⟨inner, site, swap, below, by rw [ht, Option.map_some, hstack], he, hservice⟩
  exact ⟨by decide +kernel, hends (hreaches (by decide) (by decide +kernel)) (by decide +kernel),
    hinside (hreaches (by decide) (by decide +kernel)) (by decide +kernel)⟩

end Machine

end ScriptedText
