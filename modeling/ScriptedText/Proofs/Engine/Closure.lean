import ScriptedText.Proofs.Engine.SingleFlight
import ScriptedText.Proofs.Files.Following

/-!
A check by a machine that does nothing else. It comes to an end, and what it finds is about the whole closure of a document:
all that it leads to, through whatever circles.
-/

namespace ScriptedText

open Relation

/-- The document is in order by itself. Its file, where it has one that is due to be looked at, is there and is no newer than
what was read. -/
structure World.InOrder (w : World) (d : DocumentId) : Prop where
  valid : (w.document d).validity ≠ .invalid
  file : (w.document d).file = none ∨ (w.source (w.document d).source).interval = -1 ∨
    w.clock - (w.document d).lastCheck ≤ (w.source (w.document d).source).interval ∨
    ∃ file time, (w.document d).file = some file ∧ (w.tree.status file).time? = some time ∧
      time ≤ (w.document d).timestamp

namespace World

variable {w : World} {d : DocumentId}

theorem isUnchanged_iff {file : Files.Path} (h : (w.document d).file = some file) :
    w.isUnchanged d = true ↔ ∃ time, (w.tree.status file).time? = some time ∧ time ≤ (w.document d).timestamp := by
  simp only [isUnchanged, h]
  cases w.tree.status file with
  | directory path mtime => cases mtime <;> simp [Files.Status.time?, Files.Status.dated?, Files.Node.time?]
  | _ => simp [Files.Status.time?, Files.Status.dated?, Files.Node.time?]

theorem inOrder_iff : w.InOrder d ↔ ¬ w.Fails d := by
  constructor
  · intro h
    refine not_fails h.valid ?_
    rcases h.file with hnone | hnever | hearly | ⟨file, time, hfile, htime, hle⟩
    · simp [hnone]
    · exact .inr (.inl hnever)
    · exact .inr (.inr (.inl hearly))
    · exact .inr (.inr (.inr ((isUnchanged_iff hfile).2 ⟨time, htime, hle⟩)))
  · intro h
    obtain ⟨hvalid, hfile⟩ := not_or.1 h
    refine ⟨hvalid, ?_⟩
    cases hsome : (w.document d).file with
    | none => exact .inl rfl
    | some file =>
        by_cases hnever : (w.source (w.document d).source).interval = -1
        · exact .inr (.inl hnever)
        · by_cases hearly : w.clock - (w.document d).lastCheck ≤ (w.source (w.document d).source).interval
          · exact .inr (.inr (.inl hearly))
          · have hunchanged : w.isUnchanged d = true := by
              cases hchanged : w.isUnchanged d with
              | true => rfl
              | false => exact absurd ⟨by simp [hsome], hnever, Int.not_le.1 hearly, hchanged⟩ hfile
            obtain ⟨time, htime, hle⟩ := (isUnchanged_iff hsome).1 hunchanged
            exact .inr (.inr (.inr ⟨file, time, rfl, htime, hle⟩))

theorem not_stale_iff : ¬ w.Stale d ↔ ∀ d', ReflTransGen w.Leads d d' → w.InOrder d' := by
  simp only [Stale, not_exists, not_and, inOrder_iff]

end World

namespace Machine

variable {m : Machine} {id : TaskId} {t : Task} {w' : World} {o : Outcome}

theorem settle_of_ready_nil (h : m.ready = []) (fuel : Nat) : m.settle fuel = m := by
  cases fuel with
  | zero => rfl
  | succ fuel => simp [settle, step, h]

/-- A task that looks something up wakes no others, so it stays alone. -/
theorem step_alone (ht : m.task? id = some t) (hready : m.ready = [id]) {move : Move} {rest : List Frame}
    (ha : t.advance m.world id = some (move, rest)) (hwake : move.wake = []) :
    m.step = some ⟨move.world, m.tasks.set id.index ⟨move.push ++ rest, move.control⟩, [id]⟩ := by
  have hnext : (m.task? id).bind (Task.advance m.world id) = some (move, rest) := by rw [ht, Option.bind_some, ha]
  simp only [step, hready, hnext, hwake]
  split <;> rfl

/-- A lookup that is alone comes to the end that it comes to by itself. -/
theorem settle_of_ends {w : World} (h : Task.Ends id w t w' o) (hlooks : t.looksUp = true) (hworld : m.world = w)
    (ht : m.task? id = some t) (hready : m.ready = [id]) :
    ∃ n, ∀ fuel, n ≤ fuel → (m.settle fuel).world = w' ∧ (m.settle fuel).result? id = some o := by
  induction h generalizing m with
  | settled w o =>
      refine ⟨0, fun fuel _ => ?_⟩
      have hresult : m.result? id = some o := by rw [result?, ht]; rfl
      cases fuel with
      | zero => exact ⟨hworld, hresult⟩
      | succ fuel =>
          have hstep : m.step = some { m with ready := [] } := by simp [step, hready, ht, Task.advance]
          rw [settle, hstep]
          dsimp only
          rw [settle_of_ready_nil rfl]
          exact ⟨hworld, hresult⟩
  | @step w w' t move rest o ha hrest ih =>
      subst hworld
      obtain ⟨hwake, hlooks'⟩ := Task.looksUp_of_advance hlooks ha
      have hstep := step_alone ht hready ha hwake
      have hlt : id.index < m.tasks.length := (List.getElem?_eq_some_iff.1 ht).1
      obtain ⟨n, hn⟩ := ih (m := ⟨move.world, m.tasks.set id.index ⟨move.push ++ rest, move.control⟩, [id]⟩) hlooks' rfl
        (by simp [task?, hlt]) rfl
      refine ⟨n + 1, fun fuel hfuel => ?_⟩
      cases fuel with
      | zero => exact absurd hfuel (Nat.not_succ_le_zero n)
      | succ fuel =>
          rw [settle, hstep]
          exact hn fuel (Nat.le_of_succ_le_succ hfuel)

/-- A check that nothing else goes on beside comes to an end. The document is valid just if each one in its closure is in
order by itself; otherwise it is invalid from then on. -/
theorem check_is_of_closure (m : Machine) (hready : m.ready = []) (d : DocumentId) :
    ∃ w' b visited n, (∀ fuel, n ≤ fuel →
        ((m.spawn (.isValid d [])).1.settle fuel).world = w' ∧
          ((m.spawn (.isValid d [])).1.settle fuel).result? (m.spawn (.isValid d [])).2 = some (.ok (.validity b visited))) ∧
      (b = true ↔ ∀ d', ReflTransGen m.world.Leads d d' → m.world.InOrder d') ∧
      (b = false → (w'.document d).validity = .invalid) := by
  obtain ⟨w', b, visited, hends, -, hvalid, hinvalid⟩ := World.ends_isValid m.world (m.spawn (.isValid d [])).2 d
  have htask : (m.spawn (.isValid d [])).1.task? (m.spawn (.isValid d [])).2 = some ⟨[], .call (.isValid d [])⟩ := by
    simp [spawn, task?]
  have halone : (m.spawn (.isValid d [])).1.ready = [(m.spawn (.isValid d [])).2] := by simp [spawn, hready]
  obtain ⟨n, hn⟩ := settle_of_ends (m := (m.spawn (.isValid d [])).1) hends rfl rfl htask halone
  exact ⟨w', b, visited, n, hn, hvalid.trans World.not_stale_iff, hinvalid⟩

/-- `a` and `b` depend on each other and on a document that is missing, and `b` on `c` as well, whose file is newer than
what was read. -/
def circle : World :=
  let read (name : String) (dependencies : List String) (file : Option Files.Path) : Document :=
    { name, text := "", tag := "", timestamp := 3, file, source := ⟨0⟩, dependencies, lastCheck := 0 }
  { clock := 100
    tree := { origin := "", nodes := .ofList [(["c"], .file [] 5)] }
    sources := [{ storage := .files { base := [] } 10, byName := .ofList [("a", ⟨0⟩), ("b", ⟨1⟩), ("c", ⟨2⟩)] }]
    documents := [read "a" ["b", "ghost"] none, read "b" ["a", "ghost", "c"] none, read "c" [] (some ["c"])] }

/-- The check of `a` goes around the circle, and comes to `c`. -/
theorem check_is_of_closure_in_circle :
    ∃ (w' : World) (visited : List DocumentId) (n : Nat), (w'.document ⟨0⟩).validity = .invalid ∧ ∀ fuel, n ≤ fuel →
      ((spawn { world := circle } (.isValid ⟨0⟩ [])).1.settle fuel).result? ⟨0⟩ = some (.ok (.validity false visited)) := by
  obtain ⟨w', b, visited, n, hsettles, hvalid, hinvalid⟩ := check_is_of_closure { world := circle } rfl ⟨0⟩
  have hab : circle.Leads ⟨0⟩ ⟨1⟩ := ⟨"b", by decide, by decide⟩
  have hbc : circle.Leads ⟨1⟩ ⟨2⟩ := ⟨"c", by decide, by decide⟩
  have hc : circle.Fails ⟨2⟩ := .inr (by decide +kernel)
  cases b with
  | true => exact absurd hc (World.inOrder_iff.1 (hvalid.1 rfl ⟨2⟩ (.tail (.single hab) hbc)))
  | false => exact ⟨w', visited, n, hinvalid rfl, fun fuel hfuel => (hsettles fuel hfuel).2⟩

end Machine

end ScriptedText
