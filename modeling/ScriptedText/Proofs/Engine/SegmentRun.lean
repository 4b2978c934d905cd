import ScriptedText.Proofs.Engine.Record

/-!
What running a segment comes to: literal text is written, and a program is a dialogue between two changes of the
world, one that lets it in and one that sees it out.
-/

namespace ScriptedText

def Run.handle (run : Run) : Handle := ⟨run.executable, run.context, run.container⟩

def Run.speaker (run : Run) (a : AdapterId) : Speaker := ⟨run.executable, run.context, a⟩

namespace World

variable (w : World) (run : Run)

/-- The adapter of a program that is about to start goes on record. -/
def recorded (a : AdapterId) : World := w.modifyContext run.context fun c => { c with adapter := some a }

/-- Whether a program takes the lock of its registration. -/
def takes (r : RegistrationId) (adapter : Adapter) : Bool := !adapter.threadSafe && !(w.lock r).isHeldBy run.context

def taken (r : RegistrationId) (takes : Bool) : World :=
  if takes then w.setLock r { w.lock r with locked := true, owner := some run.context } else w

def left (r : RegistrationId) (takes : Bool) : World :=
  if takes then w.setLock r (w.lock r).leave.1 else w

/-- The service of the run's executable is put in place, unless the context is claimed. -/
def exposed : World :=
  if (w.context run.context).immutable then w
  else w.modifyContext run.context
    (·.setService (w.executable run.executable).exposed (some (.handle run.handle)))

/-- What stands in place of that service before. -/
def swap? : Option Swap :=
  if (w.context run.context).immutable then none
  else some ⟨(w.executable run.executable).exposed,
    (w.context run.context).services.get? (w.executable run.executable).exposed⟩

def concealed : Option Swap → World
  | none => w
  | some swap => w.modifyContext run.context (·.setService swap.name swap.previous)

/-- An adapter that is observed puts on record that a program has started. -/
def started (s : Segment) (adapter : Adapter) : World :=
  if adapter.observed then
    w.emit (.ran adapter.info.defaultTag (w.executable run.executable).name s.line s.column)
  else w

/-- The world in which a program starts. -/
def entered (s : Segment) (r : RegistrationId) (a : AdapterId) (adapter : Adapter) : World :=
  ((((w.recorded run a).taken run r (w.takes run r adapter)).exposed run).started run s adapter)

end World

/-- What comes of a segment whose program came to an outcome. -/
def Segment.outcome (s : Segment) (document : String) : Outcome → Outcome
  | .error f => .error (Move.normalize (s.site document) f)
  | .ok _ => .ok .nothing

variable {id : TaskId} {w w' : World} {run : Run} {r : RegistrationId} {a : AdapterId} {adapter : Adapter}
  {p : PlacedSegment} {o : Outcome} {source : String}

namespace Move

theorem startProgram_eq (ha : w.adapter? a = some adapter) (hp : p.program = some source) :
    startProgram w run p a =
      say ((w.exposed run).started run p.toSegment adapter) (run.speaker a)
        (do adapter.run source (w.executable run.executable).exposed; return .nothing)
        [.program run (p.site (w.executable run.executable).name) (w.swap? run)] := by
  have hname : ((w.exposed run).executable run.executable).name = (w.executable run.executable).name := by
    unfold World.exposed
    split <;> rfl
  unfold startProgram World.started World.swap?
  simp only [ha, hp, hname]
  rfl

theorem afterProgram_eq (s : Segment) (document : String) (swap : Option Swap) (o : Outcome) :
    afterProgram w run (s.site document) swap o = settle (w.concealed run swap) (s.outcome document o) := by
  cases swap <;> cases o <;> rfl

theorem ends_startProgram (ha : w.adapter? a = some adapter) (hp : p.program = some source) :
    (startProgram w run p a).Ends id w' o ↔
      ∃ w₁ o₁, (adapter.run source (w.executable run.executable).exposed).Says id
          ((w.exposed run).started run p.toSegment adapter) (run.speaker a) w₁ o₁ ∧
        w' = w₁.concealed run (w.swap? run) ∧
        o = p.toSegment.outcome (w.executable run.executable).name o₁ := by
  rw [startProgram_eq ha hp]
  have hunder (v : World) (s : Speaker) (d : Dialogue Reply) (f : Frame) : say v s d [f] = (say v s d []).under [f] := rfl
  rw [hunder, ends_under]
  constructor
  · rintro ⟨w₁, o₁, hs, he⟩
    rw [resume, afterProgram_eq, ends_settle] at he
    exact ⟨w₁, o₁, hs, he.1, he.2⟩
  · rintro ⟨w₁, o₁, hs, rfl, rfl⟩
    refine ⟨w₁, o₁, hs, ?_⟩
    rw [resume, afterProgram_eq, ends_settle]
    exact ⟨rfl, rfl⟩

end Move

namespace World

theorem read_modifyContext {α : Type} (g : Context → α) (w : World) (c : ContextId) {f : Context → Context}
    (hf : ∀ x, g (f x) = g x) (c' : ContextId) : g ((w.modifyContext c f).context c') = g (w.context c') :=
  read_modify hf c'.index _

theorem setLock_setLock (w : World) (r : RegistrationId) (l l' : Lock ContextId TaskId) :
    (w.setLock r l).setLock r l' = w.setLock r l' := by
  unfold setLock
  rw [OrderedMap.insert_insert]

theorem swap?_recorded (w : World) (run : Run) (a : AdapterId) : (w.recorded run a).swap? run = w.swap? run := by
  have himmutable := read_modifyContext Context.immutable w run.context
    (f := fun c => { c with adapter := some a }) (fun _ => rfl) run.context
  have hservices := read_modifyContext Context.services w run.context
    (f := fun c => { c with adapter := some a }) (fun _ => rfl) run.context
  unfold swap? recorded
  rw [himmutable, hservices]
  rfl

end World

namespace Move

/-- What a program comes to under a lock that is free. -/
theorem ends_lockAndGo_of_free {inside : Inside} (hheld : (w.lock r).isHeldBy inside.context = false)
    (hfree : (w.lock r).locked = false) :
    (lockAndGo w id r inside).Ends id w' o ↔
      ∃ w₁, (goInside (w.setLock r { w.lock r with locked := true, owner := some inside.context }) inside).Ends id w₁ o ∧
        w' = w₁.setLock r (w₁.lock r).leave.1 := by
  have hmove : lockAndGo w id r inside =
      { world := w.setLock r { w.lock r with locked := true }, push := [.granted r inside]
        control := .settled (.ok .nothing) } := by
    unfold lockAndGo Lock.request
    simp only [hheld, hfree, Bool.false_eq_true, if_false, if_true]
  have hclaim : ((w.setLock r { w.lock r with locked := true }).setLock r
      (((w.setLock r { w.lock r with locked := true }).lock r).claim inside.context)) =
      w.setLock r { w.lock r with locked := true, owner := some inside.context } := by
    rw [World.setLock_setLock, World.lock_setLock, if_pos rfl]
    rfl
  rw [hmove]
  unfold Move.Ends
  rw [Task.ends_frame, resume, afterGranted, hclaim, ends_under]
  constructor
  · rintro ⟨w₁, o₁, hin, hout⟩
    obtain ⟨hw, ho⟩ := Task.ends_nil_settled.1 hout
    exact ⟨w₁, ho ▸ hin, hw⟩
  · rintro ⟨w₁, hin, rfl⟩
    exact ⟨w₁, o, hin, Task.ends_nil_settled.2 ⟨rfl, rfl⟩⟩

theorem not_ends_lockAndGo {inside : Inside} (hheld : (w.lock r).isHeldBy inside.context = false)
    (hlocked : (w.lock r).locked = true) : ¬ (lockAndGo w id r inside).Ends id w' o := by
  have hmove : (lockAndGo w id r inside).control = .waiting := by
    unfold lockAndGo Lock.request
    simp only [hheld, hlocked, Bool.false_eq_true, if_false, if_true]
  unfold Move.Ends
  rw [hmove]
  exact Task.not_ends_waiting

theorem lockAndGo_of_held {inside : Inside} (hheld : (w.lock r).isHeldBy inside.context = true) :
    lockAndGo w id r inside = goInside w inside := by
  unfold lockAndGo
  rw [if_pos hheld]

theorem runSegment_eq (hprog : p.isProgram = true) (hr : w.registry.registration? p.tag = some r)
    (ha : w.registry.forTag? p.tag = some a) (hadapter : w.registry.adapter? a = some adapter) :
    runSegment w id run p =
      if adapter.threadSafe then startProgram (w.recorded run a) run p a
      else lockAndGo (w.recorded run a) id r (.program run p a) := by
  have hsafe : (((w.recorded run a).adapter? a).map (·.threadSafe)).getD true = adapter.threadSafe := by
    change ((w.registry.adapter? a).map (·.threadSafe)).getD true = _
    rw [hadapter]
    rfl
  unfold runSegment
  rw [if_pos hprog, hr, ha]
  dsimp only
  change (if (((w.recorded run a).adapter? a).map (·.threadSafe)).getD true then _ else _ : Move) = _
  rw [hsafe]
  rfl

/-- A program that starts in a world `v`, where it would in `w` but for what is on record and the locks. -/
theorem ends_startProgram_of_same {v : World} (hv : v.adapter? a = some adapter) (hp : p.program = some p.text)
    (hs : v.swap? run = w.swap? run) (he : v.executable run.executable = w.executable run.executable) :
    (startProgram v run p a).Ends id w' o ↔
      ∃ w₁ o₁, (adapter.run p.text (w.executable run.executable).exposed).Says id
          ((v.exposed run).started run p.toSegment adapter) (run.speaker a) w₁ o₁ ∧
        w' = w₁.concealed run (w.swap? run) ∧
        o = p.toSegment.outcome (w.executable run.executable).name o₁ := by
  rw [ends_startProgram hv hp, he, hs]

theorem ends_runSegment_program (hprog : p.isProgram = true) (hr : w.registry.registration? p.tag = some r)
    (ha : w.registry.forTag? p.tag = some a) (hadapter : w.registry.adapter? a = some adapter)
    (hp : p.program = some p.text) :
    (runSegment w id run p).Ends id w' o ↔
      (w.takes run r adapter = true → (w.lock r).locked = false) ∧
        ∃ w₁ o₁, (adapter.run p.text (w.executable run.executable).exposed).Says id
            (w.entered run p.toSegment r a adapter) (run.speaker a) w₁ o₁ ∧
          w' = (w₁.concealed run (w.swap? run)).left r (w.takes run r adapter) ∧
          o = p.toSegment.outcome (w.executable run.executable).name o₁ := by
  have hswap := World.swap?_recorded w run a
  unfold World.entered
  rw [runSegment_eq hprog hr ha hadapter]
  cases hfree : adapter.threadSafe with
  | true =>
      have htakes : w.takes run r adapter = false := by simp [World.takes, hfree]
      rw [htakes, if_pos rfl, ends_startProgram_of_same (v := w.recorded run a) hadapter hp hswap rfl]
      exact ⟨fun h => ⟨fun h => absurd h Bool.false_ne_true, h⟩, And.right⟩
  | false =>
      rw [if_neg Bool.false_ne_true]
      cases hheld : (w.lock r).isHeldBy run.context with
      | true =>
          have htakes : w.takes run r adapter = false := by simp [World.takes, hheld]
          have hin : lockAndGo (w.recorded run a) id r (.program run p a) = startProgram (w.recorded run a) run p a :=
            lockAndGo_of_held hheld
          rw [htakes, hin, ends_startProgram_of_same (v := w.recorded run a) hadapter hp hswap rfl]
          exact ⟨fun h => ⟨fun h => absurd h Bool.false_ne_true, h⟩, And.right⟩
      | false =>
          have htakes : w.takes run r adapter = true := by simp [World.takes, hfree, hheld]
          rw [htakes]
          cases hlocked : (w.lock r).locked with
          | true =>
              have hnot : ¬ (lockAndGo (w.recorded run a) id r (.program run p a)).Ends id w' o :=
                not_ends_lockAndGo hheld hlocked
              exact iff_of_false hnot fun h => Bool.noConfusion (h.1 rfl)
          | false =>
              have hin : (lockAndGo (w.recorded run a) id r (.program run p a)).Ends id w' o ↔
                  ∃ w₁, (startProgram ((w.recorded run a).taken run r true) run p a).Ends id w₁ o ∧
                    w' = w₁.left r true := ends_lockAndGo_of_free hheld hlocked
              have hstart {w' : World} :
                  (startProgram ((w.recorded run a).taken run r true) run p a).Ends id w' o ↔
                    ∃ w₁ o₁, (adapter.run p.text (w.executable run.executable).exposed).Says id
                        ((((w.recorded run a).taken run r true).exposed run).started run p.toSegment adapter)
                        (run.speaker a) w₁ o₁ ∧
                      w' = w₁.concealed run (w.swap? run) ∧
                      o = p.toSegment.outcome (w.executable run.executable).name o₁ :=
                ends_startProgram_of_same hadapter hp hswap rfl
              rw [hin]
              constructor
              · rintro ⟨w₁, hs, rfl⟩
                obtain ⟨w₂, o₁, hsays, rfl, ho⟩ := hstart.1 hs
                exact ⟨fun _ => rfl, w₂, o₁, hsays, rfl, ho⟩
              · rintro ⟨-, w₁, o₁, hsays, rfl, ho⟩
                exact ⟨_, hstart.2 ⟨w₁, o₁, hsays, rfl, ho⟩, rfl⟩

theorem ends_runSegment_literal (hlit : p.isProgram = false) :
    (runSegment w id run p).Ends id w' o ↔
      w' = w.modifyContext run.context (·.write .out p.text) ∧ o = .ok .nothing := by
  unfold runSegment
  rw [if_neg (by simp [hlit])]
  exact ends_settle

/-- A program that has no adapter fails, whatever its text. -/
theorem ends_runSegment_missing (hprog : p.isProgram = true) (hnone : w.registry.adapterForTag? p.tag = none) :
    (runSegment w id run p).Ends id w' o ↔
      w' = (w.registry.forTag? p.tag).elim w (w.recorded run) ∧
        o = .error ((Problem.adapterMissing p.tag).failure [p.site (w.executable run.executable).name]) := by
  unfold runSegment
  rw [if_pos hprog]
  unfold Registry.adapterForTag? Registry.forTag? at *
  cases hr : w.registry.registration? p.tag with
  | none => exact ends_settle
  | some r =>
      rw [hr, Option.bind_some] at hnone
      simp only [Option.bind_some]
      cases ha : w.registry.owner? r with
      | none => exact ends_settle
      | some a =>
          rw [ha, Option.bind_some] at hnone
          have hadapter : (w.recorded run a).adapter? a = none := hnone
          have hmove : startProgram (w.recorded run a) run p a = refuse (w.recorded run a)
              ((Problem.adapterMissing p.tag).failure [p.site (w.executable run.executable).name]) := by
            unfold startProgram
            simp only [hadapter]
            rfl
          dsimp only
          change (if (((w.recorded run a).adapter? a).map (·.threadSafe)).getD true then _ else _ : Move).Ends id w' o ↔ _
          rw [hadapter]
          change (startProgram (w.recorded run a) run p a).Ends id w' o ↔ _
          rw [hmove]
          exact ends_settle

end Move

end ScriptedText
