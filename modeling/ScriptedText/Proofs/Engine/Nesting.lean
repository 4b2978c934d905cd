import ScriptedText.Proofs.Engine.Happening
import ScriptedText.Proofs.Engine.Laying
import ScriptedText.Proofs.Engine.Modes

/-!
How runs stand on each other in a task. Each program that has started stands on the segment of its run that it belongs to,
with nothing but its lock between them, and whatever it has started in turn stands above it.
-/

namespace ScriptedText

/-- The run and the segment of it that what comes next on a stack is a part of, if any. -/
abbrev Tier := Option (Run × PlacedSegment)

/-- What a frame may stand on, and what may stand on it. -/
inductive Frame.Rests (w : World) : Tier → Frame → Tier → Prop
  | free {f : Frame} (hf : f.isFree = true) : Rests w none f none
  /-- The segment is the one before those that are left. -/
  | segment {run : Run} {before rest : List PlacedSegment} {s : PlacedSegment}
      (h : (w.executable run.executable).segments = before ++ s :: rest) :
      Rests w none (.segment run rest) (some (run, s))
  | granted (run : Run) (s : PlacedSegment) (r : RegistrationId) (a : AdapterId) :
      Rests w (some (run, s)) (.granted r (.program run s a)) (some (run, s))
  | holding (tier : Tier) (r : RegistrationId) : Rests w tier (.holding r) tier

/-- A stack on which the programs of some segments are running, the innermost first. -/
inductive Nested (w : World) : List Frame → List (Run × PlacedSegment) → Tier → Prop
  | nil : Nested w [] [] none
  | frame {stack : List Frame} {chain : List (Run × PlacedSegment)} {below above : Tier} {f : Frame}
      (h : Nested w stack chain below) (hf : f.Rests w below above) : Nested w (f :: stack) chain above
  | program {stack : List Frame} {chain : List (Run × PlacedSegment)} {run : Run} {s : PlacedSegment}
      (h : Nested w stack chain (some (run, s))) (swap : Option Swap) :
      Nested w (.program run (s.site (w.executable run.executable).name) swap :: stack) ((run, s) :: chain) none

/-- Where a segment is begun, the task does nothing but wait or go on with the frame on top. -/
structure Task.Stands (w : World) (t : Task) (chain : List (Run × PlacedSegment)) (tier : Tier) : Prop where
  nested : Nested w t.stack chain tier
  still : t.control.isStill = true ∨ tier = none

/-- The frames of a task stand on each other as those of runs do. -/
def Task.Nests (w : World) (t : Task) : Prop := ∃ chain tier, t.Stands w chain tier

/-- The task stays where it is, but that it may be let go on. -/
structure Task.Abides (t t' : Task) : Prop where
  stack : t'.stack = t.stack
  control : t'.control = t.control ∨ t'.control.isStill = true

namespace World

variable {w w' : World} {e : ExecutableId}

theorem lt_of_segments (h : (w.executable e).segments ≠ []) : e.index < w.executables.length := by
  refine Nat.lt_of_not_le fun hle => h ?_
  unfold executable
  rw [List.getElem?_eq_none hle]
  rfl

theorem Turns.makes {h? : Option Happening} (h : w.Turns h? w') : w.Makes w' := by
  have hspares {w₁ : World} (h : w₁.Spares w') : w₁.Makes w' := h.executables.map Executable.asMade
  have hmodify (e : ExecutableId) (f : Executable → Executable) (hf : ∀ x, (f x).asMade = x.asMade) :
      w.Makes (w.modifyExecutable e f) := makes_of_stock (w.stock_modifyExecutable e hf)
  cases h with
  | spares _ h => exact hspares h
  | completes e h => exact (hmodify e (·.ran w.clock) fun _ => rfl).trans (hspares h)
  | claims e c _ => exact hmodify e (·.claim c) fun _ => rfl
  | releases e c _ h =>
      have hunclaim : w.Makes (w.modifyExecutable e Executable.unclaim) := hmodify e Executable.unclaim fun _ => rfl
      have hspared := hspares h
      exact hunclaim.trans hspared
  | keeps e duration => exact hmodify e (fun x => { x with cacheDuration := duration }) fun _ => rfl

end World

theorem Flight.Stirs.makes {f f' : Flight} (h : f.Stirs f') : f.world.Makes f'.world := by
  cases h with
  | goes h => exact h.turns.makes
  | serves errand => exact World.makes_serve f.world errand

namespace Nested

variable {w w' : World} {stack rest popped push : List Frame} {chain : List (Run × PlacedSegment)} {tier : Tier}
  {run : Run} {s : PlacedSegment} {f : Frame} {m : Move} {c : Control}

/-- A run that has begun a segment is one of an executable that there is. -/
theorem exists_segments (h : Nested w stack chain (some (run, s))) :
    s ∈ (w.executable run.executable).segments := by
  generalize htier : (some (run, s) : Tier) = tier at h
  induction h with
  | nil => cases htier
  | program h swap ih => cases htier
  | frame h hf ih =>
      cases hf with
      | free hf => cases htier
      | segment hsegments =>
          cases htier
          rw [hsegments]
          exact List.mem_append_right _ (List.mem_cons_self ..)
      | granted run s r a => exact ih htier
      | holding tier r => exact ih htier

theorem of_makes (h : Nested w stack chain tier) (hmakes : w.Makes w') : Nested w' stack chain tier := by
  -- Runs on a stack have segments, so their executables are there already and stay as they were made.
  have hsame (e : ExecutableId) (he : (w.executable e).segments ≠ []) :
      (w'.executable e).asMade = (w.executable e).asMade := hmakes.executable_eq (World.lt_of_segments he)
  induction h with
  | nil => exact .nil
  | @program stack chain run s h swap ih =>
      have hne : (w.executable run.executable).segments ≠ [] := List.ne_nil_of_mem h.exists_segments
      have hname : (w'.executable run.executable).asMade.name = (w.executable run.executable).asMade.name :=
        congrArg Executable.name (hsame run.executable hne)
      change (w'.executable run.executable).name = (w.executable run.executable).name at hname
      exact hname ▸ .program ih swap
  | frame h hf ih =>
      cases hf with
      | free hf => exact .frame ih (.free hf)
      | @segment run before rest s hsegments =>
          have hne : (w.executable run.executable).segments ≠ [] := by simp [hsegments]
          have heq : (w'.executable run.executable).asMade.segments = (w.executable run.executable).asMade.segments :=
            congrArg Executable.segments (hsame run.executable hne)
          exact .frame ih (.segment (heq.trans hsegments))
      | granted run s r a => exact .frame ih (.granted run s r a)
      | holding _ r => exact .frame ih (.holding _ r)

theorem below_of_free (h : Nested w (f :: rest) chain tier) (hf : f.isFree = true) : Nested w rest chain none := by
  cases h with
  | program h swap => cases hf
  | frame h hrests =>
      cases hrests with
      | free _ => exact h
      | _ => cases hf

theorem below_of_segment {left : List PlacedSegment} (h : Nested w (.segment run left :: rest) chain tier) :
    Nested w rest chain none ∧ ∃ before s, (w.executable run.executable).segments = before ++ s :: left := by
  cases h with
  | frame h hrests =>
      cases hrests with
      | free hf => cases hf
      | segment hsegments => exact ⟨h, _, _, hsegments⟩

theorem below_of_granted {r : RegistrationId} {a : AdapterId}
    (h : Nested w (.granted r (.program run s a) :: rest) chain tier) : Nested w rest chain (some (run, s)) := by
  cases h with
  | frame h hrests =>
      cases hrests with
      | free hf => cases hf
      | granted run s r a => exact h

theorem append_free (h : Nested w stack chain none) (hpush : push.all Frame.isFree = true) :
    Nested w (push ++ stack) chain none := by
  induction push with
  | nil => exact h
  | cons f push ih =>
      obtain ⟨hf, hpush⟩ := Bool.and_eq_true_iff.1 hpush
      exact .frame (ih hpush) (.free hf)

theorem stands_of_free (h : Nested w rest chain none) (hm : Move.Free w m) (hmakes : w.Makes m.world) :
    Task.Nests m.world ⟨m.push ++ rest, m.control⟩ :=
  ⟨chain, none, (h.append_free hm.push).of_makes hmakes, .inr rfl⟩

theorem stands_of_tries (h : Nested w stack chain (some (run, s))) (hm : Move.Tries w run s m)
    (hmakes : w.Makes m.world) : Task.Nests m.world ⟨m.push ++ stack, m.control⟩ := by
  cases hm with
  | done hpush hcontrol _ =>
      rw [hpush]
      exact ⟨chain, some (run, s), h.of_makes hmakes, .inl hcontrol⟩
  | asks r a hpush hcontrol _ =>
      rw [hpush]
      exact ⟨chain, some (run, s), (h.frame (.granted run s r a)).of_makes hmakes, .inl hcontrol⟩
  | starts hpush _ =>
      rw [hpush]
      exact ⟨(run, s) :: chain, none, (h.program _).of_makes hmakes, .inr rfl⟩

theorem nests_of_lays (h : Nested w (popped ++ rest) chain tier) (hstill : c.isStill = true ∨ tier = none)
    (hm : Move.Lays w c popped m) (hmakes : w.Makes m.world) : Task.Nests m.world ⟨m.push ++ rest, m.control⟩ := by
  -- An attempt at a segment goes on above the frame of its run, or above its lock.
  have hunder (f : Frame) (m' : Move) (heq : m = m'.under [f])
      (h : Task.Nests m'.world ⟨m'.push ++ f :: rest, m'.control⟩) : Task.Nests m.world ⟨m.push ++ rest, m.control⟩ := by
    subst heq
    simpa [Move.under] using h
  have hactive (hc : c.isStill = false) : tier = none := hstill.resolve_left (by simp [hc])
  cases hm with
  | call hc hfree =>
      cases hactive hc
      exact h.stands_of_free hfree hmakes
  | free hf hfree => exact (h.below_of_free hf).stands_of_free hfree hmakes
  | finishes hfree => exact h.below_of_segment.1.stands_of_free hfree hmakes
  | @tries c f run s left m' hf htries =>
      have hbelow : Nested w rest chain none ∧ ∃ before, (w.executable run.executable).segments = before ++ s :: left := by
        rcases hf with ⟨rfl, hsegments⟩ | rfl
        · exact ⟨h.below_of_free rfl, [], hsegments⟩
        · obtain ⟨hrest, before, s', hsegments⟩ := h.below_of_segment
          exact ⟨hrest, before ++ [s'], by rw [hsegments, List.append_assoc]; rfl⟩
      obtain ⟨hrest, before, hsegments⟩ := hbelow
      exact hunder _ m' rfl ((hrest.frame (.segment hsegments)).stands_of_tries htries hmakes)
  | @enters c r run s a m' htries =>
      exact hunder _ m' rfl ((h.below_of_granted.frame (.holding _ r)).stands_of_tries htries hmakes)
  | @lets c r e m hpush hsame =>
      rw [hpush]
      exact ⟨chain, none, ((h.below_of_free rfl).frame (.holding none r)).of_makes hmakes, .inr rfl⟩
  | leaves hpush hcontrol hsame =>
      rw [hpush]
      cases h with
      | frame h hrests => exact ⟨_, _, h.of_makes hmakes, .inl hcontrol⟩
  | ends hpush hcontrol hsame =>
      rw [hpush]
      cases h with
      | program h swap => exact ⟨_, _, h.of_makes hmakes, .inl hcontrol⟩
      | frame h hrests =>
          cases hrests with
          | free hf => cases hf
  | sets hpush hservices =>
      cases hactive rfl
      rw [hpush]
      exact ⟨chain, none, h.of_makes hmakes, .inr rfl⟩

end Nested

namespace Task.Nests

variable {w w' : World} {t : Task}

theorem of_makes (h : t.Nests w) (hmakes : w.Makes w') : t.Nests w' := by
  obtain ⟨chain, tier, hnested, hstill⟩ := h
  exact ⟨chain, tier, hnested.of_makes hmakes, hstill⟩

theorem advance {id : TaskId} {m : Move} {rest : List Frame} (h : t.Nests w)
    (ha : t.advance w id = some (m, rest)) : Task.Nests m.world ⟨m.push ++ rest, m.control⟩ := by
  obtain ⟨chain, tier, hnested, hstill⟩ := h
  obtain ⟨popped, hstack, hlays⟩ := Task.lays_of_advance ha
  rw [hstack] at hnested
  exact hnested.nests_of_lays hstill hlays (Task.turns_of_advance ha).makes

theorem call (w : World) (c : Call) : Task.Nests w ⟨[], .call c⟩ := ⟨[], none, .nil, .inr rfl⟩

theorem of_abides {t' : Task} (h : t.Nests w) (ht : t.Abides t') : t'.Nests w := by
  obtain ⟨chain, tier, hnested, hstill⟩ := h
  refine ⟨chain, tier, ht.stack ▸ hnested, ?_⟩
  rcases ht.control with heq | hstill'
  · exact heq ▸ hstill
  · exact .inl hstill'

end Task.Nests

namespace World

/-- What the host does by itself concerns sources, documents and files alone. -/
theorem looks_serve (w : World) (errand : Errand) :
    Looks w (w.serve errand) ∨ ∃ tree, w.serve errand = { w with tree } := by
  cases errand with
  | invalidate d => exact .inl ((Looks.refl w).modifyDocument d _)
  | depend d name => exact .inl ((Looks.refl w).modifyDocument d _)
  | attach d e => exact .inl (looks_attachExecutable w d e)
  | set s name text tag e => exact .inl (looks_setDocument w s name text tag e)
  | setIfAbsent s name text tag e =>
      exact .inl ((looks_createDocument w s name text tag e).modifySource s _)
  | compile o => exact .inl (looks_compile w o)
  | files tree => exact .inr ⟨tree, rfl⟩

theorem contexts_serve (w : World) (errand : Errand) : (w.serve errand).contexts = w.contexts := by
  rcases w.looks_serve errand with h | ⟨tree, h⟩
  · exact h.contexts_eq
  · rw [h]

end World

namespace Flight

variable {f f' : Flight} {d : Deed} {id : TaskId} {t : Task}

theorem exists_wake (ids : List TaskId) (ht : f.task? id = some t) : ∃ t', (f.wake ids).task? id = some t' ∧ t.Abides t' := by
  rw [task?_wake]
  split
  · exact ⟨t.woken, by rw [ht, Option.map_some], rfl, .inr rfl⟩
  · exact ⟨t, ht, rfl, .inl rfl⟩

theorem exists_proceed {id' : TaskId} (hne : id ≠ id') (ht : f.task? id = some t) (m : Move) (rest : List Frame) :
    ∃ t', (f.proceed id' m rest).task? id = some t' ∧ t.Abides t' := by
  refine exists_wake m.wake ?_
  unfold task? at ht ⊢
  rw [List.getElem?_set_ne (index_ne hne), ht]

/-- A task takes a step of its own, or it stays where it is whatever else happens. -/
theorem Goes.follow (h : f.Goes d f') (ht : f.task? id = some t) :
    ∃ t', f'.task? id = some t' ∧ (d ≠ .go id ∧ t.Abides t' ∨ d = .go id ∧ ∃ m rest,
      t.advance f.world id = some (m, rest) ∧ f'.world = m.world ∧ Task.Abides ⟨m.push ++ rest, m.control⟩ t') := by
  have hlt : id.index < f.tasks.length := (List.getElem?_eq_some_iff.1 ht).1
  cases h with
  | call c =>
      have hne : id ≠ f.next := fun heq => Nat.ne_of_lt hlt (congrArg TaskId.index heq)
      have hspawn : (f.spawn c).task? id = some t := by rw [task?_spawn, if_neg hne, ht]
      obtain ⟨t', ht', habides⟩ := exists_proceed hne hspawn (Move.begin f.world f.next c) []
      exact ⟨t', ht', .inl ⟨fun heq => (by cases heq), habides⟩⟩
  | @go id' u m rest hu ha =>
      by_cases hid : id = id'
      · subst hid
        cases hu.symm.trans ht
        have hset : task? { world := m.world, tasks := f.tasks.set id.index ⟨m.push ++ rest, m.control⟩ } id =
            some ⟨m.push ++ rest, m.control⟩ := by rw [task?_set id _ _ (by rw [ht]; rfl), if_pos rfl]
        obtain ⟨t', ht', habides⟩ := exists_wake m.wake hset
        exact ⟨t', ht', .inr ⟨rfl, m, rest, ha, rfl, habides⟩⟩
      · obtain ⟨t', ht', habides⟩ := exists_proceed hid ht m rest
        exact ⟨t', ht', .inl ⟨fun heq => hid (Deed.go.inj heq).symm, habides⟩⟩
  | openGate gate =>
      obtain ⟨t', ht', habides⟩ := exists_wake (f := { f with world := _ }) _ ht
      exact ⟨t', ht', .inl ⟨fun heq => (by cases heq), habides⟩⟩
  | _ => exact ⟨t, ht, .inl ⟨fun heq => (by cases heq), rfl, .inl rfl⟩⟩

/-- The first step of a call is one that its task takes. -/
theorem goes_spawn (f : Flight) (c : Call) : (f.spawn c).Goes (.go f.next) (f.start c) :=
  .go (task?_spawn_next c) rfl

end Flight

theorem Task.Nests.goes {f f' : Flight} {d : Deed} {id : TaskId} {t t' : Task} (h : t.Nests f.world)
    (hgo : f.Goes d f') (ht : f.task? id = some t) (ht' : f'.task? id = some t') : t'.Nests f'.world := by
  obtain ⟨u, hu, hcases⟩ := hgo.follow ht
  cases ht'.symm.trans hu
  rcases hcases with ⟨-, habides⟩ | ⟨-, m, rest, ha, hworld, habides⟩
  · exact (h.of_abides habides).of_makes hgo.turns.makes
  · exact hworld ▸ (h.advance ha).of_abides habides

end ScriptedText
