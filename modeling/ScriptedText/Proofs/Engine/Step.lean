import ScriptedText.Proofs.Engine.Evolution

/-!
What one step of a task can do to locks, runs and claims. Every other step is quiet.
-/

namespace ScriptedText

/-- Whether nothing but the task itself has to do with the reply that the frame waits for. -/
def Frame.isQuiet : Frame → Bool
  | .granted _ _ | .holding _ | .claiming _ | .finalized _ _ => false
  | _ => true

namespace Move

/-- A step of the task `id` under a control, and the frame that it takes from the stack, if any. -/
inductive Deals (w : World) (id : TaskId) : Control → List Frame → Move → Prop
  | quiet {c : Control} {popped : List Frame} {m : Move} (hpopped : popped.all Frame.isQuiet) (h : Quiet w m) :
      Deals w id c popped m
  /-- The task waits for a gate. -/
  | gate {c : Control} (gate : String) (s : Speaker) (k : Outcome → Dialogue Reply) :
      Deals w id c []
        { world := { w with waiters := w.waiters ++ [(gate, id)] }, push := [.conversation s k], control := .waiting }
  /-- A free lock is taken. -/
  | takes {c : Control} {popped push : List Frame} {w₁ : World} {r : RegistrationId} {inside : Inside}
      (hpopped : popped.all Frame.isQuiet) (hpush : push.all Frame.isPlain) (h : World.Evolves w w₁)
      (hfree : (w₁.lock r).locked = false) :
      Deals w id c popped
        { world := w₁.setLock r { w₁.lock r with locked := true }, push := .granted r inside :: push
          control := .settled (.ok .nothing) }
  /-- A lock that is taken is waited for, unless it is the context's own. -/
  | queues {c : Control} {popped push : List Frame} {w₁ : World} {r : RegistrationId} {inside : Inside}
      (hpopped : popped.all Frame.isQuiet) (hpush : push.all Frame.isPlain) (h : World.Evolves w w₁)
      (hlocked : (w₁.lock r).locked = true) (hother : (w₁.lock r).isHeldBy inside.context = false) :
      Deals w id c popped
        { world := w₁.setLock r { w₁.lock r with queue := (w₁.lock r).queue ++ [id] }
          push := .granted r inside :: push, control := .waiting }
  | enters (o : Outcome) (r : RegistrationId) (inside : Inside) :
      Deals w id (.settled o) [.granted r inside] (afterGranted w r inside)
  | leaves (o : Outcome) (r : RegistrationId) : Deals w id (.settled o) [.holding r] (afterHolding w r o)
  /-- A run comes to its end, and counts. -/
  | counts (o : Outcome) (run : Run) (outcome : Except Failure Unit) :
      Deals w id (.settled o) [.finalized run outcome] (close w run (.ok ()))
  | fails (o : Outcome) (run : Run) (outcome : Except Failure Unit) {w' : World} (h : World.Looks w w')
      (f : Failure) : Deals w id (.settled o) [.finalized run outcome] (refuse w' f)
  /-- A run starts that may claim its context. -/
  | begins (run : Run) :
      Deals w id (.call (.makeEnterable run)) [] (call w (.execute run {}) [.claiming run])
  | claims (r : Reply) (run : Run) (hfree : (w.executable run.executable).claimed = none) :
      Deals w id (.settled (.ok r)) [.claiming run]
        (reply ((w.modifyContext run.context fun c => { c with immutable := true }).modifyExecutable run.executable
          (·.claim run.context)) (.flag true))
  | loses (r : Reply) (run : Run) : Deals w id (.settled (.ok r)) [.claiming run] (reply w (.flag false))
  | drops (f : Failure) (run : Run) : Deals w id (.settled (.error f)) [.claiming run] (refuse w f)

variable {w w₁ : World} {id : TaskId} {c : Control} {popped push : List Frame} {m : Move}

theorem Quiet.under (h : Quiet w m) (hpush : push.all Frame.isPlain) : Quiet w (m.under push) := by
  refine ⟨h.evolves, ?_, h.control, h.wake⟩
  unfold Move.under
  rw [List.all_append, h.push, hpush]
  rfl

theorem deals_lockAndGo (hpopped : popped.all Frame.isQuiet) (hpush : push.all Frame.isPlain)
    (h : World.Evolves w w₁) (r : RegistrationId) (inside : Inside) :
    Deals w id c popped ((lockAndGo w₁ id r inside).under push) := by
  unfold lockAndGo
  split
  · exact .quiet hpopped (((quiet_goInside w₁ inside).behind h).under hpush)
  · next hother =>
      cases hlocked : (w₁.lock r).locked with
      | false =>
          rw [Lock.request_of_free hlocked]
          exact .takes hpopped hpush h hlocked
      | true =>
          rw [Lock.request_of_locked hlocked]
          exact .queues hpopped hpush h hlocked (Bool.eq_false_iff.2 hother)

theorem deals_runSegment (hpopped : popped.all Frame.isQuiet) (hpush : push.all Frame.isPlain) (run : Run)
    (s : PlacedSegment) : Deals w id c popped ((runSegment w id run s).under push) := by
  have hadapter (a : AdapterId) :
      World.Evolves w (w.modifyContext run.context fun c => { c with adapter := some a }) :=
    (World.Evolves.refl w).modifyContext _ _ rfl
  unfold runSegment
  split
  · split
    · dsimp only
      split
      · exact .quiet hpopped (((quiet_startProgram _ run s _).behind (hadapter _)).under hpush)
      · exact deals_lockAndGo hpopped hpush (hadapter _) _ _
    · exact .quiet hpopped ((searches_settle w _).quiet.under hpush)
  · have hwrite : Quiet w (reply (w.modifyContext run.context (·.write .out s.text)) .nothing) :=
      ⟨(World.Evolves.refl w).modifyContext _ _ rfl, rfl, rfl, rfl⟩
    exact .quiet hpopped (hwrite.under hpush)

theorem deals_runSegments (hpopped : popped.all Frame.isQuiet) (run : Run) (segments : List PlacedSegment) :
    Deals w id c popped (runSegments w id run segments) := by
  cases segments with
  | nil => exact .quiet hpopped (quiet_finish w run _)
  | cons s rest => exact deals_runSegment hpopped rfl run s

theorem deals_enter (e : ExecutableId) (name : String) (args : List Value) :
    Deals w id c [] (enter w id e name args) := by
  have hrefuse (f : Failure) : Deals w id c [] (refuse w f) := .quiet rfl (searches_settle w _).quiet
  have hstart (entry : Entry) : Deals w id c [] ((startEntry w entry).under [.entering name]) :=
    .quiet rfl ((quiet_startEntry w entry).under rfl)
  unfold enter
  dsimp only
  split
  · exact hrefuse _
  · split
    · exact hrefuse _
    · split
      · exact hrefuse _
      · split
        · split
          · exact hstart _
          · exact deals_lockAndGo rfl rfl (.refl w) _ _
        · exact hstart _

theorem deals_begin (call : Call) : Deals w id (.call call) [] (begin w id call) := by
  have hsearch {m : Move} (h : Searches w m) : Deals w id (.call call) [] m := .quiet rfl h.quiet
  have hcall (other : Call) (hplain : other.isPlain) {push : List Frame} (hpush : push.all Frame.isPlain) :
      Deals w id (.call call) [] (Move.call w other push) :=
    .quiet rfl ⟨.refl w, hpush, hplain, rfl⟩
  cases call with
  | execute run options => exact .quiet rfl (quiet_execute w run options)
  | makeEnterable run =>
      unfold begin makeEnterable
      dsimp only
      split
      · exact hsearch (searches_settle w _)
      · exact .begins run
  | enter e name args => exact deals_enter e name args
  | runOnce name c => exact .quiet rfl (quiet_runOnce w name c)
  | _ => first | exact hsearch (searches_begin w id rfl) | exact hcall _ rfl rfl

theorem deals_afterFinalized (run : Run) (outcome : Except Failure Unit) (o : Outcome) :
    Deals w id (.settled o) [.finalized run outcome] (afterFinalized w run outcome o) := by
  have hfails (f : Failure) : Deals w id (.settled o) [.finalized run outcome] (close w run (.error f)) :=
    .fails o run outcome (looks_reportFailure w _ f) f
  cases o with
  | error f => exact hfails f
  | ok _ =>
      cases outcome with
      | error f => exact hfails f
      | ok _ => exact .counts _ run _

theorem deals_afterClaiming (run : Run) (o : Outcome) :
    Deals w id (.settled o) [.claiming run] (afterClaiming w run o) := by
  unfold afterClaiming
  cases o with
  | error f => exact .drops f run
  | ok r =>
      dsimp only
      split
      · exact .loses r run
      · next hfree => exact .claims r run (by simpa using hfree)

theorem deals_resume (f : Frame) (o : Outcome) : Deals w id (.settled o) [f] (resume w id f o) := by
  cases f with
  | initialized run =>
      cases o with
      | error f => exact .quiet rfl (quiet_close_error w run f)
      | ok _ => exact deals_runSegments rfl run _
  | segment run rest =>
      cases o with
      | error f => exact .quiet rfl (quiet_finish w run _)
      | ok _ => exact deals_runSegments rfl run rest
  | finalized run outcome => exact deals_afterFinalized run outcome o
  | program run site swap => exact .quiet rfl (quiet_afterProgram w run site swap o)
  | granted r inside => exact .enters o r inside
  | holding r => exact .leaves o r
  | claiming run => exact deals_afterClaiming run o
  | entering name => exact .quiet rfl (quiet_afterEntering w name o)
  | conversation s k => exact .quiet rfl ⟨.refl w, rfl, rfl, rfl⟩
  | fetched name isText c =>
      cases o with
      | error f => exact .quiet rfl (searches_settle w _).quiet
      | ok reply =>
          cases reply with
          | executable e => exact .quiet rfl (quiet_afterFetched w name isText c e)
          | _ => exact .quiet rfl (searches_settle w _).quiet
  | included => cases o <;> exact .quiet rfl (searches_settle w _).quiet
  | ranOnce => cases o <;> exact .quiet rfl (searches_settle w _).quiet
  | _ => exact .quiet rfl (searches_resume w id rfl o).quiet

theorem deals_answer (s : Speaker) (q : Ask) (k : q.Answer → Dialogue Reply) :
    Deals w id c [] (answer w id s q k) := by
  by_cases hq : ∀ gate, q ≠ .gate gate
  · exact .quiet rfl (quiet_answer w id s hq k)
  · obtain ⟨gate, hgate⟩ := Classical.not_forall.1 hq
    cases Classical.not_not.1 hgate
    unfold answer waitForGate
    dsimp only
    split
    · exact .quiet rfl (quiet_settle w _ rfl)
    · exact .gate gate s _

theorem deals_converse (s : Speaker) (d : Dialogue Reply) : Deals w id c [] (converse w id s d) := by
  cases d with
  | done r => exact .quiet rfl (searches_settle w _).quiet
  | fail f => exact .quiet rfl (searches_settle w _).quiet
  | ask q k => exact deals_answer s q k

/-- No step registers an adapter. -/
theorem Deals.registry_eq (h : Deals w id c popped m) : m.world.registry = w.registry := by
  cases h with
  | quiet hpopped h => exact h.evolves.keeps.registry
  | takes hpopped hpush h hfree => exact h.keeps.registry
  | queues hpopped hpush h hlocked hother => exact h.keeps.registry
  | enters o r inside => exact (quiet_goInside (w.setLock r ((w.lock r).claim inside.context)) inside).evolves.keeps.registry
  | fails o run outcome h f => exact h.registry_eq
  | _ => rfl

end Move

theorem Task.deals_of_advance {w : World} {id : TaskId} {t : Task} {m : Move} {rest : List Frame}
    (ha : t.advance w id = some (m, rest)) :
    ∃ popped, t.stack = popped ++ rest ∧ Move.Deals w id t.control popped m := by
  obtain ⟨stack, control⟩ := t
  cases control with
  | call c =>
      cases ha
      exact ⟨[], rfl, Move.deals_begin c⟩
  | talking s d =>
      cases ha
      exact ⟨[], rfl, Move.deals_converse s d⟩
  | waiting => cases stack <;> cases ha
  | settled o =>
      cases stack with
      | nil => cases ha
      | cons f rest =>
          cases ha
          exact ⟨[f], rfl, Move.deals_resume f o⟩

end ScriptedText
