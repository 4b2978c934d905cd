import ScriptedText.Proofs.Engine.Lifecycle

/-!
Whose a claimed context is, with any number of executables: it is one executable's, and immutable, as long as no call
claims a context that another executable has. Such a call is not turned down.
-/

namespace ScriptedText

namespace World

/-- Claimed contexts are immutable, and each is one executable's. -/
structure Owned (w : World) : Prop where
  unique : ∀ e e' c, (w.executable e).claimed = some c → (w.executable e').claimed = some c → e = e'
  immutable : ∀ e c, (w.executable e).claimed = some c → (w.context c).immutable = true

/-- There are the executable and the context of the run. -/
structure Has (w : World) (run : Run) : Prop where
  executable : run.executable.index < w.executables.length
  context : run.context.index < w.contexts.length

variable {w w' : World} {h? : Option Happening} {e : ExecutableId} {c : ContextId} {run : Run}

theorem owned_of_unclaimed (h : ∀ e, (w.executable e).claimed = none) : w.Owned where
  unique e _ _ hc := nomatch (h e).symm.trans hc
  immutable e _ hc := nomatch (h e).symm.trans hc

theorem lt_of_claimed (h : (w.executable e).claimed = some c) : e.index < w.executables.length := by
  refine Nat.lt_of_not_le fun hle => ?_
  unfold executable at h
  rw [List.getElem?_eq_none hle] at h
  cases h

theorem Turns.has (h : w.Turns h? w') (hrun : w.Has run) : w'.Has run where
  executable := Nat.lt_of_lt_of_le hrun.executable h.executables_le
  context := h.contexts_eq ▸ hrun.context

/-- A claim is in order just if no other executable has the context. -/
theorem Turns.owned_iff (h : w.Turns h? w') (howned : w.Owned)
    (hhas : ∀ e c, h? = some (.claimed e c) → e.index < w.executables.length ∧ c.index < w.contexts.length) :
    w'.Owned ↔ ∀ e c, h? = some (.claimed e c) → ∀ e', (w.executable e').claimed ≠ some c := by
  constructor
  · intro howned' e c hclaims e' hc
    subst hclaims
    have hother := h.claimed_of_claimed (lt_of_claimed hc) hc nofun
    have hself : (w'.executable e).claimed = some c := by
      rw [h.executable_eq (hhas e c rfl).1, Option.elim_some, Executable.after, if_pos rfl, Executable.claim]
    cases howned'.unique e e' c hself hother
    cases h.free_of_claimed.symm.trans hc
  · intro hfree
    refine ⟨fun e e' c hc hc' => ?_, fun e c hc => ?_⟩
    · rcases h.claimed hc with hold | hnew
      · rcases h.claimed hc' with hold' | hnew'
        · exact howned.unique e e' c hold hold'
        · exact absurd hold (hfree e' c hnew' e)
      · rcases h.claimed hc' with hold' | hnew'
        · exact absurd hold' (hfree e c hnew e')
        · cases hnew.symm.trans hnew'
          rfl
    · rcases h.claimed hc with hold | hnew
      · refine h.immutable (howned.immutable e c hold) fun e' hreleased hc' => ?_
        cases howned.unique e e' c hold hc'
        rw [h.executable_eq (lt_of_claimed hold), hreleased, Option.elim_some, Executable.after, if_pos rfl] at hc
        cases hc
      · have hin := (hhas e c hnew).2
        subst hnew
        exact h.immutable_of_claimed hin

end World

/-- No claim is about to begin, and those that are under way are of such runs. -/
structure Task.Claims (P : Run → Prop) (t : Task) : Prop where
  runs : ∀ run, .claiming run ∈ t.stack → P run
  control : t.control.claims = false

namespace Task.Claims

variable {P Q : Run → Prop} {t : Task} {w : World} {id : TaskId} {m : Move} {rest : List Frame}

theorem mono (h : t.Claims P) (hP : ∀ run, P run → Q run) : t.Claims Q := ⟨fun run hr => hP run (h.runs run hr), h.control⟩

theorem woken (h : t.Claims P) : t.woken.Claims P := ⟨h.runs, rfl⟩

theorem of_any {stack : List Frame} {control : Control} (h : stack.any Frame.isClaiming = false)
    (hcontrol : control.claims = false) : Task.Claims P ⟨stack, control⟩ where
  runs _ hr := absurd rfl (List.any_eq_false.1 h _ hr)
  control := hcontrol

theorem advance (h : t.Claims P) (ha : t.advance w id = some (m, rest)) :
    Task.Claims P ⟨m.push ++ rest, m.control⟩ := by
  obtain ⟨popped, hstack, hdeals⟩ := Task.deals_of_advance ha
  obtain ⟨hpush, hcontrol⟩ := hdeals.claims_nothing h.control
  refine ⟨fun run hr => ?_, hcontrol⟩
  rcases List.mem_append.1 hr with hnew | hold
  · exact absurd rfl (List.any_eq_false.1 hpush _ hnew)
  · exact h.runs run (hstack ▸ List.mem_append_right popped hold)

theorem begin {c : Call} (h : ∀ run, c = .makeEnterable run → P run) :
    Task.Claims P ⟨(Move.begin w id c).push, (Move.begin w id c).control⟩ := by
  have hplain (hc : (Control.call c).claims = false) :
      Task.Claims P ⟨(Move.begin w id c).push, (Move.begin w id c).control⟩ := by
    have hdeals : Move.Deals w id (.call c) [] (Move.begin w id c) := Move.deals_begin c
    obtain ⟨hpush, hcontrol⟩ := hdeals.claims_nothing hc
    exact .of_any hpush hcontrol
  cases c with
  | makeEnterable run =>
      unfold Move.begin Move.makeEnterable
      dsimp only
      split
      · exact .of_any rfl rfl
      · refine ⟨fun run' hr => ?_, rfl⟩
        cases List.mem_singleton.1 hr
        exact h run rfl
  | _ => exact hplain rfl

end Task.Claims

/-- A claim is made only for an executable and on a context that are there. -/
def Deed.Known (w : World) : Deed → Prop
  | .call (.makeEnterable run) => w.Has run
  | _ => True

namespace Flight

/-- The step claims a context that an executable has. -/
def Encroaches (f : Flight) (d : Deed) : Prop :=
  ∃ e c e', f.happening? d = some (.claimed e c) ∧ (f.world.executable e').claimed = some c

/-- Histories in which no context is claimed that an executable has. -/
inductive Peaceful : Flight → Prop
  | start {f : Flight} (htasks : f.tasks = []) (hlocks : ∀ r, f.world.lock r = {}) (hwaiters : f.world.waiters = [])
      (howned : f.world.Owned) : Peaceful f
  | goes {f f' : Flight} {d : Deed} (h : Peaceful f) (hknown : d.Known f.world) (hpeace : ¬ f.Encroaches d)
      (hgo : f.Goes d f') : Peaceful f'

variable {f f' : Flight} {d : Deed}

/-- The invariant of such a history. -/
structure InOrder (f : Flight) : Prop where
  custody : Custody f
  owned : f.world.Owned
  claims : ∀ id t, f.task? id = some t → t.Claims f.world.Has

namespace InOrder

theorem has_of_claimed (h : f.InOrder) {e : ExecutableId} {c : ContextId}
    (hclaimed : f.happening? d = some (.claimed e c)) :
    e.index < f.world.executables.length ∧ c.index < f.world.contexts.length := by
  cases d with
  | go id =>
      obtain ⟨t, ht, hhappens⟩ := Option.bind_eq_some_iff.1 hclaimed
      obtain ⟨r, run, rest, rfl, rfl, rfl⟩ := Task.eq_of_claimed hhappens
      have hhas := (h.claims id _ ht).runs run (List.mem_cons_self ..)
      exact ⟨hhas.executable, hhas.context⟩
  | release e' =>
      unfold happening? at hclaimed
      dsimp only at hclaimed
      split at hclaimed <;> cases hclaimed
  | _ => cases hclaimed

theorem owned_iff (h : f.InOrder) (hgo : f.Goes d f') : f'.world.Owned ↔ ¬ f.Encroaches d := by
  rw [hgo.turns.owned_iff h.owned fun _ _ => h.has_of_claimed]
  constructor
  · rintro hfree ⟨e, c, e', hclaims, hc⟩
    exact hfree e c hclaims e' hc
  · intro hpeace e c hclaims e' hc
    exact hpeace ⟨e, c, e', hclaims, hc⟩

theorem claims_of_goes (h : f.InOrder) (hknown : d.Known f.world) (hgo : f.Goes d f') {id : TaskId} {t : Task}
    (ht : f'.task? id = some t) : t.Claims f'.world.Has := by
  refine Task.Claims.mono ?_ fun run => hgo.turns.has
  cases h.custody.comes hgo ht with
  | stays hbefore => exact h.claims id t hbefore
  | wakes hbefore _ => exact (h.claims id _ hbefore).woken
  | goes hbefore ha => exact (h.claims id _ hbefore).advance ha
  | calls c => exact .begin fun run hrun => by subst hrun; exact hknown

theorem goes (h : f.InOrder) (hknown : d.Known f.world) (hpeace : ¬ f.Encroaches d) (hgo : f.Goes d f') : f'.InOrder where
  custody := h.custody.goes hgo
  owned := (h.owned_iff hgo).2 hpeace
  claims _ _ ht := h.claims_of_goes hknown hgo ht

end InOrder

theorem Peaceful.inOrder (h : Peaceful f) : f.InOrder := by
  induction h with
  | start htasks hlocks hwaiters howned =>
      exact ⟨.empty htasks hlocks hwaiters, howned, fun id t ht => by simp [task?, htasks] at ht⟩
  | goes h hknown hpeace hgo ih => exact ih.goes hknown hpeace hgo

/-- Claimed contexts have one owner each and are immutable, and stay so up to the release of the owner, until a call
claims a context that another executable has: that call, and no other step, breaks it. -/
theorem Peaceful.owned (h : Peaceful f) :
    f.world.Owned ∧ ∀ d f', f.Goes d f' → (f'.world.Owned ↔ ¬ f.Encroaches d) ∧
      ∀ e c, (f.world.executable e).claimed = some c → d ≠ .release e →
        (f'.world.executable e).claimed = some c ∧ (f'.world.context c).immutable = true := by
  have howned := h.inOrder.owned
  refine ⟨howned, fun d f' hgo => ⟨h.inOrder.owned_iff hgo, fun e c hc hd => ⟨?_, ?_⟩⟩⟩
  · exact hgo.turns.claimed_of_claimed (World.lt_of_claimed hc) hc fun hreleased => hd (eq_release_of_released hreleased)
  · refine hgo.turns.immutable (howned.immutable e c hc) fun e' hreleased hc' => ?_
    cases howned.unique e e' c hc hc'
    exact hd (eq_release_of_released hreleased)

/-! What a machine does is such a history, unless a context is claimed twice on the way. -/

/-- The contexts that were claimed, in order. -/
def claimedContexts (past : List Happening) : List ContextId :=
  past.filterMap fun
    | .claimed _ c => some c
    | _ => none

theorem mem_claimedContexts_of_claimed {a? : Option Happening} {e : ExecutableId} {c : ContextId}
    (h : a? = some (.claimed e c)) : c ∈ claimedContexts a?.toList := by
  simp [h, claimedContexts]

theorem Peaceful.settle {m : Machine} (h : Peaceful m.flight) (fuel : Nat)
    (hnodup : (claimedContexts (m.happenings fuel)).Nodup)
    (hfree : ∀ c ∈ claimedContexts (m.happenings fuel), ∀ e, (m.world.executable e).claimed ≠ some c) :
    Peaceful (m.settle fuel).flight := by
  induction fuel generalizing m with
  | zero => exact h
  | succ fuel ih =>
      unfold Machine.settle
      unfold Machine.happenings at hnodup hfree
      cases hstep : m.step with
      | none => exact h
      | some m' =>
          have hsplit : claimedContexts (m.happening?.toList ++ m'.happenings fuel) =
              claimedContexts m.happening?.toList ++ claimedContexts (m'.happenings fuel) := List.filterMap_append
          simp only [hstep, hsplit, List.nodup_append, List.mem_append] at hnodup hfree ⊢
          obtain ⟨-, hlater, hdisjoint⟩ := hnodup
          rcases Machine.goes_of_step hstep with ⟨heq, -⟩ | ⟨id, hgo, hhappens⟩
          · have hworld : m'.world = m.world := congrArg Flight.world heq
            exact ih (heq ▸ h) hlater fun c hc e => hworld ▸ hfree c (.inr hc) e
          · have hpeace : ¬ m.flight.Encroaches (.go id) := by
              rintro ⟨e, c, e', hclaims, hc⟩
              exact hfree c (.inl (mem_claimedContexts_of_claimed (hhappens.trans hclaims))) e' hc
            have hknown : (Deed.go id).Known m.flight.world := trivial
            refine ih (h.goes hknown hpeace hgo) hlater fun c hc e hclaimed => ?_
            rcases hgo.turns.claimed hclaimed with hold | hnew
            · exact hfree c (.inr hc) e hold
            · exact hdisjoint c (mem_claimedContexts_of_claimed (hhappens.trans hnew)) c hc rfl

theorem Peaceful.spawn {m : Machine} (h : Peaceful m.flight) {c : Call} (hknown : (Deed.call c).Known m.world)
    (fuel : Nat) (hnodup : (claimedContexts ((m.spawn c).1.happenings (fuel + 1))).Nodup)
    (hfree : ∀ x ∈ claimedContexts ((m.spawn c).1.happenings (fuel + 1)), ∀ e, (m.world.executable e).claimed ≠ some x) :
    Peaceful ((m.spawn c).1.settle (fuel + 1)).flight := by
  obtain ⟨m', hstep⟩ := m.exists_step_of_spawn c
  have hflight := Machine.flight_spawn hstep
  have hgo : m.flight.Goes (.call c) m'.flight := hflight ▸ .call m.flight c
  have hpeace : ¬ m.flight.Encroaches (.call c) := by
    rintro ⟨e, x, e', hclaims, -⟩
    cases hclaims
  unfold Machine.settle
  unfold Machine.happenings at hnodup hfree
  simp only [hstep, Machine.happening?_spawn, Option.toList_none, List.nil_append] at hnodup hfree ⊢
  refine (h.goes hknown hpeace hgo).settle fuel hnodup fun x hx e hclaimed => ?_
  rcases hgo.turns.claimed hclaimed with hold | hnew
  · exact hfree x hx e hold
  · cases hnew

end Flight

/-- Two executables of one text. -/
def twinWorld : World := ((printWorld.compile printDraft).1.compile printDraft).1

namespace Machine

/-- The first one has claimed the context. -/
def occupied : Machine := (spawn { world := twinWorld } (.makeEnterable ⟨⟨0⟩, ⟨0⟩, none, {}⟩)).1.settle 60

/-- The second one has run, and is about to claim the context. -/
def contended : Machine := (occupied.spawn (.makeEnterable ⟨⟨1⟩, ⟨0⟩, none, {}⟩)).1.settle 10

theorem peaceful_contended : Flight.Peaceful contended.flight := by
  have hlooks : World.Looks printWorld twinWorld :=
    (looks_compile printWorld printDraft).trans (looks_compile (printWorld.compile printDraft).1 printDraft)
  have hunclaimed (e : ExecutableId) : (twinWorld.executable e).claimed = none := by
    cases hc : (twinWorld.executable e).claimed with
    | none => rfl
    | some c => cases (show (default : Executable).claimed = some c from hlooks.claimed hc)
  obtain ⟨hmade, hfirst, hmade', hsecond⟩ :
      twinWorld.executables.length = 2 ∧
        (spawn { world := twinWorld } (.makeEnterable ⟨⟨0⟩, ⟨0⟩, none, {}⟩)).1.happenings 60 =
          [.completed ⟨0⟩ 0, .claimed ⟨0⟩ ⟨0⟩] ∧
        (occupied.world.executables.length = 2 ∧ occupied.world.contexts.length = 1) ∧
        (occupied.spawn (.makeEnterable ⟨⟨1⟩, ⟨0⟩, none, {}⟩)).1.happenings 10 = [.completed ⟨1⟩ 0] := by
    decide +kernel
  have hcontexts : twinWorld.contexts.length = 1 := congrArg List.length hlooks.contexts_eq
  have hstart : Flight.Peaceful (flight { world := twinWorld }) :=
    .start rfl (fun r => World.lock_eq_of_locks (w := printWorld) hlooks.locks_eq r) hlooks.waiters_eq
      (World.owned_of_unclaimed hunclaimed)
  have hoccupied : Flight.Peaceful occupied.flight := by
    have hknown : twinWorld.Has ⟨⟨0⟩, ⟨0⟩, none, {}⟩ := ⟨hmade ▸ Nat.two_pos, hcontexts ▸ Nat.one_pos⟩
    refine hstart.spawn (m := { world := twinWorld }) (c := .makeEnterable ⟨⟨0⟩, ⟨0⟩, none, {}⟩) hknown 59 ?_
      fun x _ e hc => ?_
    · rw [hfirst]
      decide
    · cases (hunclaimed e).symm.trans hc
  have hknown : occupied.world.Has ⟨⟨1⟩, ⟨0⟩, none, {}⟩ := ⟨hmade'.1 ▸ Nat.one_lt_two, hmade'.2 ▸ Nat.one_pos⟩
  refine hoccupied.spawn (c := .makeEnterable ⟨⟨1⟩, ⟨0⟩, none, {}⟩) hknown 9 ?_ fun x hx => ?_
  · rw [hsecond]
    decide
  · rw [hsecond] at hx
    cases hx

/-- The second claim breaks it: the context has two owners then, and when the first one gives it up it is not immutable
any more, although it is claimed. -/
theorem not_owned_of_contended :
    ∃ m, contended.step = some m ∧ contended.flight.Peaceful ∧ contended.world.Owned ∧ ¬ m.world.Owned ∧
      ((m.world.release ⟨0⟩).executable ⟨1⟩).claimed = some ⟨0⟩ ∧
      ((m.world.release ⟨0⟩).context ⟨0⟩).immutable = false := by
  obtain ⟨hsome, hhappens, hclaimed, hlost⟩ :
      contended.step.isSome = true ∧ contended.happening? = some (.claimed ⟨1⟩ ⟨0⟩) ∧
        (contended.world.executable ⟨0⟩).claimed = some ⟨0⟩ ∧
        contended.step.map (fun m => (((m.world.release ⟨0⟩).executable ⟨1⟩).claimed,
          ((m.world.release ⟨0⟩).context ⟨0⟩).immutable)) = some (some ⟨0⟩, false) := by decide +kernel
  obtain ⟨m, hstep⟩ := Option.isSome_iff_exists.1 hsome
  rw [hstep, Option.map_some, Option.some.injEq, Prod.mk.injEq] at hlost
  obtain ⟨howned, hnext⟩ := peaceful_contended.owned
  rcases goes_of_step hstep with ⟨-, hnone⟩ | ⟨id, hgo, hsame⟩
  · cases hnone.symm.trans hhappens
  · have hencroaches : contended.flight.Encroaches (.go id) := ⟨_, _, _, hsame.symm.trans hhappens, hclaimed⟩
    exact ⟨m, hstep, peaceful_contended, howned, fun h => (hnext _ _ hgo).1.1 h hencroaches, hlost⟩

end Machine

end ScriptedText
