import ScriptedText.Engine.Machine

/-!
A task that runs alone, to its end: its runs fall apart at the frames on its stack, and a dialogue falls apart at
its questions.
-/

namespace ScriptedText

variable {id : TaskId} {w w' w₁ w₂ : World} {t : Task} {o o' o₁ o₂ : Outcome}

/-- The task comes to an end in a world, with an outcome, while no other task does anything. -/
inductive Task.Ends (id : TaskId) : World → Task → World → Outcome → Prop
  | settled (w : World) (o : Outcome) : Ends id w ⟨[], .settled o⟩ w o
  | step {w w' : World} {t : Task} {m : Move} {stack : List Frame} {o : Outcome}
      (h : t.advance w id = some (m, stack)) (hrest : Ends id m.world ⟨m.push ++ stack, m.control⟩ w' o) :
      Ends id w t w' o

/-- The same, with the number of steps that it takes. -/
inductive Task.EndsIn (id : TaskId) : Nat → World → Task → World → Outcome → Prop
  | settled (w : World) (o : Outcome) : EndsIn id 0 w ⟨[], .settled o⟩ w o
  | step {n : Nat} {w w' : World} {t : Task} {m : Move} {stack : List Frame} {o : Outcome}
      (h : t.advance w id = some (m, stack)) (hrest : EndsIn id n m.world ⟨m.push ++ stack, m.control⟩ w' o) :
      EndsIn id (n + 1) w t w' o

/-- What a task comes to that goes on with a move. -/
def Move.Ends (id : TaskId) (m : Move) (w' : World) (o : Outcome) : Prop :=
  Task.Ends id m.world ⟨m.push, m.control⟩ w' o

def Dialogue.Ends (id : TaskId) (w : World) (s : Speaker) (d : Dialogue Reply) (w' : World) (o : Outcome) : Prop :=
  Task.Ends id w ⟨[], .talking s d⟩ w' o

/-- Runs a task alone for a number of steps. -/
def Task.drive (id : TaskId) : Nat → World → Task → Option (World × Outcome)
  | 0, w, t => t.result?.map (w, ·)
  | n + 1, w, t =>
    match t.advance w id with
    | none => t.result?.map (w, ·)
    | some (m, stack) => drive id n m.world ⟨m.push ++ stack, m.control⟩

namespace Task

theorem ends_of_result? (h : t.result?.map (w, ·) = some (w', o)) : Ends id w t w' o := by
  obtain ⟨stack, control⟩ := t
  cases control with
  | settled o₁ =>
      cases stack with
      | nil =>
          cases h
          exact .settled w o
      | cons f stack => cases h
  | call c => cases h
  | talking s d => cases h
  | waiting => cases h

theorem ends_of_drive {n : Nat} (h : drive id n w t = some (w', o)) : Ends id w t w' o := by
  induction n generalizing w t with
  | zero => exact ends_of_result? h
  | succ n ih =>
      rw [drive] at h
      cases ha : t.advance w id with
      | none =>
          rw [ha] at h
          exact ends_of_result? h
      | some next =>
          rw [ha] at h
          exact .step ha (ih h)

theorem Ends.unique (h : Ends id w t w₁ o₁) (h' : Ends id w t w₂ o₂) : w₁ = w₂ ∧ o₁ = o₂ := by
  induction h with
  | settled w o =>
      cases h' with
      | settled => exact ⟨rfl, rfl⟩
      | step ha _ => cases ha
  | step ha _ ih =>
      cases h' with
      | settled => cases ha
      | step ha' hrest =>
          rw [ha] at ha'
          cases ha'
          exact ih hrest

theorem not_ends_waiting {stack : List Frame} : ¬ Ends id w ⟨stack, .waiting⟩ w' o := by
  intro h
  cases h with
  | step ha _ => cases stack <;> cases ha

/-- Frames at the bottom of a stack play no part while there are others above them. -/
theorem advance_append {stack base : List Frame} {c : Control}
    (h : stack ≠ [] ∨ ∀ o, c ≠ .settled o) :
    Task.advance w id ⟨stack ++ base, c⟩ =
      (Task.advance w id ⟨stack, c⟩).map fun next => (next.1, next.2 ++ base) := by
  cases c with
  | call c => rfl
  | talking s d => rfl
  | waiting => cases stack <;> cases base <;> rfl
  | settled o =>
      cases stack with
      | nil => exact (h.elim (· rfl) (fun h => h o rfl)).elim
      | cons f stack => rfl

/-! Numbers of steps, for inductions over the parts of a run. -/

theorem Ends.exists_endsIn (h : Ends id w t w' o) : ∃ n, EndsIn id n w t w' o := by
  induction h with
  | settled w o => exact ⟨0, .settled w o⟩
  | step ha _ ih =>
      obtain ⟨n, hn⟩ := ih
      exact ⟨n + 1, .step ha hn⟩

theorem EndsIn.ends {n : Nat} (h : EndsIn id n w t w' o) : Ends id w t w' o := by
  induction h with
  | settled w o => exact .settled w o
  | step ha _ ih => exact .step ha ih

theorem EndsIn.exists_step {n : Nat} {m : Move} {stack : List Frame} (h : EndsIn id n w t w' o)
    (ha : t.advance w id = some (m, stack)) : ∃ k, n = k + 1 ∧ EndsIn id k m.world ⟨m.push ++ stack, m.control⟩ w' o := by
  cases h with
  | settled => cases ha
  | step ha' hrest =>
      rw [ha] at ha'
      cases ha'
      exact ⟨_, rfl, hrest⟩

/-- The steps fall apart where the frames at the bottom of the stack get their reply. -/
theorem EndsIn.exists_parts {n : Nat} {stack base : List Frame} {c : Control}
    (h : EndsIn id n w ⟨stack ++ base, c⟩ w' o) : ∃ k l w₁ o₁, k + l = n ∧ EndsIn id k w ⟨stack, c⟩ w₁ o₁ ∧
      EndsIn id l w₁ ⟨base, .settled o₁⟩ w' o := by
  generalize ht : (⟨stack ++ base, c⟩ : Task) = t at h
  induction h generalizing stack c with
  | settled w o =>
      obtain ⟨hs, rfl⟩ := Task.mk.inj ht
      obtain ⟨rfl, rfl⟩ := List.append_eq_nil_iff.1 hs
      exact ⟨0, 0, w, o, rfl, .settled w o, .settled w o⟩
  | @step n w w' t m rest o ha hrest ih =>
      subst ht
      by_cases hin : stack ≠ [] ∨ ∀ o, c ≠ .settled o
      · rw [advance_append hin] at ha
        obtain ⟨⟨m', rest'⟩, hm, he⟩ := Option.map_eq_some_iff.1 ha
        cases he
        have hsplit : (⟨(m'.push ++ rest') ++ base, m'.control⟩ : Task) = ⟨m'.push ++ (rest' ++ base), m'.control⟩ := by
          rw [List.append_assoc]
        obtain ⟨k, l, w₁, o₁, hkl, h₁, h₂⟩ := ih hsplit
        exact ⟨k + 1, l, w₁, o₁, by omega, .step hm h₁, h₂⟩
      · obtain ⟨hs, hc⟩ := not_or.1 hin
        cases Classical.not_not.1 hs
        obtain ⟨o₁, ho⟩ := Classical.not_forall.1 hc
        cases Classical.not_not.1 ho
        exact ⟨0, n + 1, w, o₁, Nat.zero_add _, .settled w o₁, .step ha hrest⟩

theorem ends_append {stack base : List Frame} {c : Control} :
    Ends id w ⟨stack ++ base, c⟩ w' o ↔
      ∃ w₁ o₁, Ends id w ⟨stack, c⟩ w₁ o₁ ∧ Ends id w₁ ⟨base, .settled o₁⟩ w' o := by
  constructor
  · intro h
    obtain ⟨n, hn⟩ := h.exists_endsIn
    obtain ⟨k, l, w₁, o₁, -, h₁, h₂⟩ := hn.exists_parts
    exact ⟨w₁, o₁, h₁.ends, h₂.ends⟩
  · rintro ⟨w₁, o₁, h₁, h₂⟩
    generalize ht : (⟨stack, c⟩ : Task) = t at h₁
    induction h₁ generalizing stack c with
    | settled w o =>
        cases ht
        exact h₂
    | @step w w' t m rest o₁ ha hrest ih =>
        subst ht
        have hin : stack ≠ [] ∨ ∀ o, c ≠ .settled o := by
          by_cases hs : stack = []
          · subst hs
            refine .inr ?_
            rintro o rfl
            cases ha
          · exact .inl hs
        have hnext : Task.advance w id ⟨stack ++ base, c⟩ = some (m, rest ++ base) := by
          rw [advance_append hin, ha]
          rfl
        refine .step hnext ?_
        rw [← List.append_assoc]
        exact ih h₂ rfl

theorem ends_nil_settled : Ends id w ⟨[], .settled o⟩ w' o' ↔ w' = w ∧ o' = o := by
  constructor
  · intro h
    obtain ⟨hw, ho⟩ := h.unique (.settled w o)
    exact ⟨hw, ho⟩
  · rintro ⟨rfl, rfl⟩
    exact .settled w' o'

theorem ends_of_advance {m : Move} {stack : List Frame} (h : t.advance w id = some (m, stack)) :
    Ends id w t w' o ↔ Ends id m.world ⟨m.push ++ stack, m.control⟩ w' o := by
  constructor
  · intro he
    cases he with
    | settled => cases h
    | step ha hrest =>
        rw [h] at ha
        cases ha
        exact hrest
  · exact .step h

theorem ends_frame {f : Frame} : Ends id w ⟨[f], .settled o⟩ w' o' ↔ (Move.resume w id f o).Ends id w' o' := by
  rw [ends_of_advance rfl, List.append_nil]
  rfl

theorem ends_call {c : Call} : Ends id w ⟨[], .call c⟩ w' o ↔ (Move.begin w id c).Ends id w' o := by
  rw [ends_of_advance rfl, List.append_nil]
  rfl

end Task

namespace Move

theorem ends_settle : (settle w o).Ends id w' o' ↔ w' = w ∧ o' = o := Task.ends_nil_settled

theorem ends_push {push : List Frame} {m : Move} :
    Move.Ends id { m with push := m.push ++ push } w' o ↔
      ∃ w₁ o₁, m.Ends id w₁ o₁ ∧ Task.Ends id w₁ ⟨push, .settled o₁⟩ w' o := Task.ends_append

/-- A move that leaves one frame to be dealt with when all else is done. -/
theorem ends_under {f : Frame} {m : Move} :
    (m.under [f]).Ends id w' o ↔ ∃ w₁ o₁, m.Ends id w₁ o₁ ∧ (resume w₁ id f o₁).Ends id w' o := by
  unfold under
  rw [ends_push]
  simp only [Task.ends_frame]

theorem ends_call {c : Call} {f : Frame} :
    (call w c [f]).Ends id w' o ↔ ∃ w₁ o₁, Task.Ends id w ⟨[], .call c⟩ w₁ o₁ ∧ (resume w₁ id f o₁).Ends id w' o :=
  ends_under (m := call w c [])

theorem ends_call_of_ends {c : Call} {f : Frame} (h : Task.Ends id w ⟨[], .call c⟩ w₁ o₁) :
    (call w c [f]).Ends id w' o ↔ (resume w₁ id f o₁).Ends id w' o := by
  constructor
  · intro hends
    obtain ⟨w₂, o₂, hcall, hrest⟩ := ends_call.1 hends
    obtain ⟨rfl, rfl⟩ := Task.Ends.unique hcall h
    exact hrest
  · exact fun hrest => ends_call.2 ⟨w₁, o₁, h, hrest⟩

end Move

namespace Dialogue

variable {s : Speaker} {r : Reply} {f : Failure}

theorem ends_converse {d : Dialogue Reply} : d.Ends id w s w' o ↔ (Move.converse w id s d).Ends id w' o := by
  unfold Dialogue.Ends
  rw [Task.ends_of_advance rfl, List.append_nil]
  rfl

theorem ends_done : (Dialogue.done r).Ends id w s w' o ↔ w' = w ∧ o = .ok r := by
  rw [ends_converse]
  exact Move.ends_settle

theorem ends_fail : (Dialogue.fail f : Dialogue Reply).Ends id w s w' o ↔ w' = w ∧ o = .error f := by
  rw [ends_converse]
  exact Move.ends_settle

theorem callOther_eq_under (h : Handle) (mode : CallMode) (name : String) (push : List Frame) :
    Move.callOther w h mode name push = (Move.callOther w h mode name []).under push := by
  unfold Move.callOther
  split <;> rfl

theorem callOnce_eq_under (h : Handle) (name : String) (push : List Frame) :
    Move.callOnce w h name push = (Move.callOnce w h name []).under push := by
  unfold Move.callOnce
  split <;> rfl

theorem waitForGate_eq_under (gate : String) (push : List Frame) :
    Move.waitForGate w id gate push = (Move.waitForGate w id gate []).under push := by
  unfold Move.waitForGate
  split <;> rfl

/-- A question is answered at once, or a move comes first whose outcome is the answer. -/
theorem answer_cases (w : World) (id : TaskId) (s : Speaker) (q : Ask) :
    (∃ w₁ a, ∀ k, Move.answer w id s q k = Move.say w₁ s (k a) []) ∨
      ∃ (m : Move) (g : Outcome → q.Answer), ∀ k,
        Move.answer w id s q k = m.under [.conversation s fun o => k (g o)] := by
  cases q with
  | call h mode name =>
      exact .inr ⟨Move.callOther w h mode name [], fun o => o.map fun _ => (), fun k => callOther_eq_under h mode name _⟩
  | callOnce h name =>
      exact .inr ⟨Move.callOnce w h name [], fun o => o.map Reply.isTrue, fun k => callOnce_eq_under h name _⟩
  | gate name => exact .inr ⟨Move.waitForGate w id name [], fun _ => (), fun k => waitForGate_eq_under name _⟩
  | pause => exact .inr ⟨Move.pass w [], fun _ => (), fun k => rfl⟩
  | _ => exact .inl ⟨_, _, fun k => rfl⟩

/-- What a dialogue comes to after a question depends on it through the answer only. -/
theorem ends_ask (id : TaskId) (w : World) (s : Speaker) (q : Ask) :
    ∃ answered : World → q.Answer → Prop, ∀ (k : q.Answer → Dialogue Reply) w' o,
      (Dialogue.ask q k).Ends id w s w' o ↔ ∃ w₁ a, answered w₁ a ∧ (k a).Ends id w₁ s w' o := by
  rcases answer_cases w id s q with ⟨w₁, a, h⟩ | ⟨m, g, h⟩
  · refine ⟨fun w₂ b => w₂ = w₁ ∧ b = a, fun k w' o => ?_⟩
    rw [ends_converse, Move.converse, h]
    constructor
    · exact fun he => ⟨w₁, a, ⟨rfl, rfl⟩, he⟩
    · rintro ⟨w₂, b, ⟨rfl, rfl⟩, he⟩
      exact he
  · refine ⟨fun w₁ b => ∃ o, m.Ends id w₁ o ∧ b = g o, fun k w' o => ?_⟩
    rw [ends_converse, Move.converse, h, Move.ends_under]
    constructor
    · rintro ⟨w₁, o₁, hm, he⟩
      exact ⟨w₁, g o₁, ⟨o₁, hm, rfl⟩, he⟩
    · rintro ⟨w₁, -, ⟨o₁, hm, rfl⟩, he⟩
      exact ⟨w₁, o₁, hm, he⟩

def Says (id : TaskId) (w : World) (s : Speaker) (d : Dialogue Unit) (w' : World) (o : Outcome) : Prop :=
  Dialogue.Ends id w s (do d; return .nothing) w' o

/-- The second part of a dialogue begins where the first one has succeeded. -/
theorem ends_bind {d : Dialogue Unit} {f : Unit → Dialogue Reply} :
    (d.bind f).Ends id w s w' o ↔
      (∃ e, o = .error e ∧ d.Says id w s w' (.error e)) ∨
        ∃ w₁, d.Says id w s w₁ (.ok .nothing) ∧ (f ()).Ends id w₁ s w' o := by
  induction d generalizing w with
  | done a =>
      change (f a).Ends id w s w' o ↔ (∃ e, o = .error e ∧ (done Reply.nothing).Ends id w s w' (.error e)) ∨
        ∃ w₁, (done Reply.nothing).Ends id w s w₁ (.ok .nothing) ∧ _
      simp [ends_done]
  | fail e =>
      change (fail e : Dialogue Reply).Ends id w s w' o ↔
        (∃ e', o = .error e' ∧ (fail e : Dialogue Reply).Ends id w s w' (.error e')) ∨
          ∃ w₁, (fail e : Dialogue Reply).Ends id w s w₁ (.ok .nothing) ∧ _
      simp only [ends_fail, Except.error.injEq, reduceCtorEq, and_false, false_and, exists_false, or_false]
      constructor
      · rintro ⟨rfl, rfl⟩
        exact ⟨e, rfl, rfl, rfl⟩
      · rintro ⟨-, rfl, rfl, rfl⟩
        exact ⟨rfl, rfl⟩
  | ask q k ih =>
      obtain ⟨answered, h⟩ := ends_ask id w s q
      have hrest (r : q.Answer → Dialogue Unit) (w' : World) (o : Outcome) :
          (Dialogue.ask q r).Says id w s w' o ↔ ∃ w₁ a, answered w₁ a ∧ (r a).Says id w₁ s w' o :=
        h (fun a => do r a; return .nothing) w' o
      change (Dialogue.ask q fun a => (k a).bind f).Ends id w s w' o ↔ _
      rw [h]
      constructor
      · rintro ⟨w₁, a, ha, he⟩
        rcases (ih a).1 he with ⟨e, rfl, hf⟩ | ⟨w₂, hs, hf⟩
        · exact .inl ⟨e, rfl, (hrest k _ _).2 ⟨w₁, a, ha, hf⟩⟩
        · exact .inr ⟨w₂, (hrest k _ _).2 ⟨w₁, a, ha, hs⟩, hf⟩
      · rintro (⟨e, rfl, hs⟩ | ⟨w₂, hs, hf⟩)
        · obtain ⟨w₁, a, ha, hs⟩ := (hrest k _ _).1 hs
          exact ⟨w₁, a, ha, (ih a).2 (.inl ⟨e, rfl, hs⟩)⟩
        · obtain ⟨w₁, a, ha, hs⟩ := (hrest k _ _).1 hs
          exact ⟨w₁, a, ha, (ih a).2 (.inr ⟨w₂, hs, hf⟩)⟩

theorem says_bind {d₁ d₂ : Dialogue Unit} :
    (d₁.bind fun _ => d₂).Says id w s w' o ↔
      (∃ e, o = .error e ∧ d₁.Says id w s w' (.error e)) ∨
        ∃ w₁, d₁.Says id w s w₁ (.ok .nothing) ∧ d₂.Says id w₁ s w' o := by
  have h := bind_assoc d₁ (fun _ => d₂) fun _ => Dialogue.done Reply.nothing
  unfold Says
  change ((d₁.bind fun _ => d₂).bind fun _ => Dialogue.done Reply.nothing).Ends id w s w' o ↔ _
  rw [h]
  exact ends_bind

theorem eq_nothing_of_says {d : Dialogue Unit} {r : Reply} (h : d.Says id w s w' (.ok r)) : r = .nothing := by
  rcases ends_bind.1 h with ⟨e, he, -⟩ | ⟨w₁, -, hd⟩
  · cases he
  · cases (ends_done.1 hd).2
    rfl

theorem says_write {text : String} :
    (Dialogue.write text).Says id w s w' o ↔
      w' = w.modifyContext s.context (·.write .out text) ∧ o = .ok .nothing := by
  unfold Says
  rw [ends_converse]
  exact ends_done

end Dialogue

end ScriptedText
