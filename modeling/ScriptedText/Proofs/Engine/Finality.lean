import Mathlib.Logic.Relation
import ScriptedText.Proofs.Engine.Ageing
import ScriptedText.Proofs.Engine.Flight

/-!
Whether a document that is invalid stays so. It does, unless a check of it was under way when it became invalid: the
check looks at that before it waits for anything, and not again when it comes to its end.
-/

namespace ScriptedText

open Relation

/-- What the host does to documents by itself. -/
inductive Errand
  | invalidate (d : DocumentId)
  | depend (d : DocumentId) (name : String)
  | attach (d : DocumentId) (e : ExecutableId)
  | set (s : SourceId) (name text tag : String) (e : Option ExecutableId)
  | setIfAbsent (s : SourceId) (name text tag : String) (e : Option ExecutableId)
  | compile (o : Draft)
  /-- Files are written and removed. -/
  | files (tree : Files.Tree)

namespace World

def serve (w : World) : Errand → World
  | .invalidate d => w.modifyDocument d Document.invalidate
  | .depend d name => w.modifyDocument d (·.addDependency name)
  | .attach d e => (w.attachExecutable d e).1
  | .set s name text tag e => (w.setDocument s name text tag e).1
  | .setIfAbsent s name text tag e => (w.setDocumentIfAbsent s name text tag e).1
  | .compile o => (w.compile o).1
  | .files tree => { w with tree }

theorem ages_serve (w : World) (errand : Errand) : w.Ages (w.serve errand) := by
  cases errand with
  | invalidate d => exact .modifyDocument d (Document.ages_invalidate _)
  | depend d name => exact .modifyDocument d (Document.ages_addDependency _ name)
  | attach d e => exact ages_attachExecutable w d e
  | set s name text tag e => exact ages_setDocument w s name text tag e
  | setIfAbsent s name text tag e => exact ages_setDocumentIfAbsent w s name text tag e
  | compile o => exact ages_compile w o
  | files tree => exact .of_eq rfl rfl

/-- Nothing is left to do for a check but to write that the document is valid: no dependency is left from place `i` on,
and there is no file to look at. -/
def Clears (w : World) (d : DocumentId) (i : Nat) : Prop :=
  w.nextDependency? d i = none ∧
    ((w.document d).file.isNone = true ∨ (w.source (w.document d).source).interval = -1)

def validate (w : World) (d : DocumentId) : World := w.modifyDocument d fun x => { x with validity := .valid }

end World

/-- The next step of the task is the last one of a check of `d`, which finds nothing and writes that. -/
def Task.Passes (w : World) (d : DocumentId) (t : Task) : Prop :=
  match t.stack, t.control with
  | .dependency d' i :: _, .settled (.ok (.validity true _)) => d' = d ∧ w.Clears d (i + 1)
  | .fileTime d' _ :: _, .settled (.ok _) => d' = d ∧ w.isUnchanged d = true
  | _, _ => False

namespace Move

variable {w : World} {d : DocumentId} {visited : List DocumentId}

theorem checkFrom_of_clears {i : Nat} (h : w.Clears d i) : (checkFrom w d visited i).world = w.validate d := by
  obtain ⟨hnone, hfile⟩ := h
  unfold checkFrom
  rw [hnone]
  dsimp only
  unfold checkFile
  rcases hfile with hfile | hinterval
  · simp [hfile, reply, settle, World.validate]
  · simp [hinterval, reply, settle, World.validate]

/-- A check writes that the document is valid only where it is done. -/
theorem ages_checkFrom (i : Nat) : w.Ages (checkFrom w d visited i).world ∨ w.Clears d i := by
  unfold checkFrom
  split
  · exact .inl (.refl w)
  · next hnone =>
      unfold checkFile
      dsimp only
      split
      · next hfile => exact .inr ⟨hnone, by simpa using hfile⟩
      · split
        · exact .inl (.refl w)
        · exact .inl (.modifyDocument d (Document.ages_lastCheck _ _))

theorem checks_checkFrom (i : Nat) : ∀ x ∈ (checkFrom w d visited i).push.filterMap Frame.checked?, x = d := by
  unfold checkFrom checkFile
  split
  · simp [call, Frame.checked?]
  · dsimp only
    split
    · simp [reply, settle]
    · split <;> simp [reply, settle, pass, Frame.checked?]

theorem world_checkFrom_of_valid {i : Nat} (hd : (w.document d).validity ≠ .invalid) :
    w.Ages (checkFrom w d visited i).world := by
  have hcases : w.Ages (checkFrom w d visited i).world ∨ w.Clears d i := ages_checkFrom i
  rcases hcases with hages | hclears
  · exact hages
  · rw [checkFrom_of_clears hclears]
    exact .modifyDocument d (Document.ages_validate hd)

theorem ages_isValid (w : World) (d : DocumentId) (visited : List DocumentId) :
    w.Ages (isValid w d visited).world ∧
      ∀ x ∈ (isValid w d visited).push.filterMap Frame.checked?, (w.document x).validity ≠ .invalid := by
  unfold isValid
  split
  · exact ⟨.refl w, by simp [reply, settle]⟩
  · next hd =>
      split
      · exact ⟨.refl w, by simp [reply, settle]⟩
      · refine ⟨world_checkFrom_of_valid hd, fun x hx => ?_⟩
        cases checks_checkFrom 0 x hx
        exact hd

/-- A step of a check of `d` concerns no check of another document. -/
theorem ages_resume_of_checked {f : Frame} (hf : f.checked? = some d) (o : Outcome) (id : TaskId) (rest : List Frame) :
    (w.Ages (resume w id f o).world ∨ Task.Passes w d ⟨f :: rest, .settled o⟩) ∧
      ∀ x ∈ (resume w id f o).push.filterMap Frame.checked?, x = d := by
  have hsettle (m : Move) (hm : m = settle w o) :
      (w.Ages m.world ∨ Task.Passes w d ⟨f :: rest, .settled o⟩) ∧ ∀ x ∈ m.push.filterMap Frame.checked?, x = d := by
    subst hm
    exact ⟨.inl (.refl w), by simp [settle]⟩
  cases f with
  | dependency d' i =>
      cases hf
      cases o with
      | error _ => exact hsettle _ rfl
      | ok r =>
          cases r with
          | validity valid visited =>
              cases valid with
              | true => exact ⟨(ages_checkFrom (i + 1)).imp_right fun h => ⟨rfl, h⟩, checks_checkFrom (i + 1)⟩
              | false =>
                  refine ⟨.inl (.modifyDocument d (Document.ages_invalidate _)), ?_⟩
                  simp [resume, afterDependency, reply, settle]
          | _ => exact hsettle _ rfl
  | fileTime d' visited =>
      cases hf
      cases o with
      | error _ => exact hsettle _ rfl
      | ok r =>
          refine ⟨?_, by simp [resume, afterFileTime, reply, settle]⟩
          cases hunchanged : w.isUnchanged d with
          | true => exact .inr ⟨rfl, hunchanged⟩
          | false =>
              unfold resume afterFileTime
              dsimp only
              rw [hunchanged]
              exact .inl (.modifyDocument d (Document.ages_invalidate _))
  | _ => cases hf

end Move

namespace Task

variable {w : World} {id : TaskId} {t : Task} {m : Move} {rest : List Frame} {d : DocumentId}

theorem world_of_passes (h : t.Passes w d) (ha : t.advance w id = some (m, rest)) : m.world = w.validate d := by
  obtain ⟨stack, control⟩ := t
  unfold Passes at h
  split at h
  · next hstack hcontrol =>
      cases hcontrol
      cases hstack
      obtain ⟨rfl, hclears⟩ := h
      cases ha
      exact Move.checkFrom_of_clears hclears
  · next hstack hcontrol =>
      cases hcontrol
      cases hstack
      obtain ⟨rfl, hunchanged⟩ := h
      cases ha
      unfold Move.resume Move.afterFileTime
      dsimp only
      rw [hunchanged]
      rfl
  · cases h

/-- Every step lets documents age, except for the last one of a check that finds nothing. -/
theorem ages_of_advance (ha : t.advance w id = some (m, rest)) : w.Ages m.world ∨ ∃ d, t.Passes w d := by
  obtain ⟨stack, control⟩ := t
  cases control with
  | call c =>
      cases ha
      by_cases hc : ∃ d visited, c = .isValid d visited
      · obtain ⟨d, visited, rfl⟩ := hc
        exact .inl (Move.ages_isValid w d visited).1
      · exact .inl (Move.ages_begin w id fun d visited h => hc ⟨d, visited, h⟩).world
  | talking s d =>
      cases ha
      exact .inl (Move.ages_converse w id s d).world
  | waiting => cases stack <;> cases ha
  | settled o =>
      cases stack with
      | nil => cases ha
      | cons f rest =>
          cases ha
          cases hf : f.checked? with
          | none => exact .inl (Move.ages_resume w id hf o).world
          | some d => exact (Move.ages_resume_of_checked hf o id rest).1.imp_right fun h => ⟨d, h⟩

theorem ages_of_advance_of_valid (ha : t.advance w id = some (m, rest))
    (hvalid : ∀ d, t.Passes w d → (w.document d).validity ≠ .invalid) : w.Ages m.world := by
  rcases ages_of_advance ha with hages | ⟨d, hpasses⟩
  · exact hages
  · rw [world_of_passes hpasses ha]
    exact .modifyDocument d (Document.ages_validate (hvalid d hpasses))

/-- No check of an invalid document begins. -/
theorem not_mem_checks_of_advance (hd : (w.document d).validity = .invalid) (hnot : d ∉ t.checks)
    (ha : t.advance w id = some (m, rest)) : d ∉ checks ⟨m.push ++ rest, m.control⟩ := by
  obtain ⟨stack, control⟩ := t
  have happend {push below : List Frame} (hpush : d ∉ push.filterMap Frame.checked?)
      (hbelow : d ∉ below.filterMap Frame.checked?) : d ∉ checks ⟨push ++ below, m.control⟩ := by
    unfold checks
    rw [List.filterMap_append, List.mem_append]
    exact not_or.2 ⟨hpush, hbelow⟩
  cases control with
  | call c =>
      cases ha
      refine happend ?_ hnot
      by_cases hc : ∃ d visited, c = .isValid d visited
      · obtain ⟨d', visited, rfl⟩ := hc
        exact fun hmem => (Move.ages_isValid w d' visited).2 d hmem hd
      · rw [(Move.ages_begin w id fun d visited h => hc ⟨d, visited, h⟩).push]
        exact List.not_mem_nil
  | talking s q =>
      cases ha
      refine happend ?_ hnot
      rw [(Move.ages_converse w id s q).push]
      exact List.not_mem_nil
  | waiting => cases stack <;> cases ha
  | settled o =>
      cases stack with
      | nil => cases ha
      | cons f rest =>
          cases ha
          have hrest : d ∉ rest.filterMap Frame.checked? := by
            intro hmem
            apply hnot
            cases hf : f.checked? <;> simp [checks, hf, hmem]
          refine happend ?_ hrest
          cases hf : f.checked? with
          | none =>
              rw [(Move.ages_resume w id hf o).push]
              exact List.not_mem_nil
          | some d' =>
              intro hmem
              cases (Move.ages_resume_of_checked hf o id rest).2 d hmem
              exact hnot (by simp [checks, hf])

/-- What was found to be invalid is not, after a step, just if the step is the last one of a check that finds nothing. -/
theorem revives_iff_passes (hd : (w.document d).validity = .invalid) (ha : t.advance w id = some (m, rest)) :
    (m.world.document d).validity ≠ .invalid ↔ t.Passes w d := by
  have hvalidate (d' : DocumentId) : ((w.validate d').document d).validity = if d' = d then .valid else .invalid := by
    unfold World.validate
    rw [World.document_modifyDocument w _ d' (World.lt_of_invalid hd)]
    split
    · rfl
    · exact hd
  constructor
  · intro hrevived
    rcases ages_of_advance ha with hages | ⟨d', hpasses⟩
    · exact absurd (hages.invalid hd) hrevived
    · rw [world_of_passes hpasses ha, hvalidate] at hrevived
      split at hrevived
      · next heq => exact heq ▸ hpasses
      · exact absurd rfl hrevived
  · intro hpasses
    rw [world_of_passes hpasses ha, hvalidate, if_pos rfl]
    exact nofun

theorem mem_checks_of_passes (h : t.Passes w d) : d ∈ t.checks := by
  obtain ⟨stack, control⟩ := t
  unfold Passes at h
  split at h
  · next hstack _ =>
      cases hstack
      simp [checks, Frame.checked?, h.1]
  · next hstack _ =>
      cases hstack
      simp [checks, Frame.checked?, h.1]
  · cases h

end Task

namespace World

theorem ages_release (w : World) (e : ExecutableId) : w.Ages (w.release e) := by
  unfold release
  split
  · exact .refl w
  · dsimp only
    split
    · exact .of_eq rfl rfl
    · split
      · split <;> exact .of_eq rfl rfl
      · exact .of_eq rfl rfl

end World

namespace Flight

/-- A call, a step or another thing that happens in a flight, or the host does something to documents by itself. -/
inductive Stirs : Flight → Flight → Prop
  | goes {f f' : Flight} {deed : Deed} (h : f.Goes deed f') : Stirs f f'
  | serves (f : Flight) (errand : Errand) : Stirs f { f with world := f.world.serve errand }

/-- The step is the last one of a check of `d`, which finds nothing. -/
def Passes (f : Flight) (deed : Deed) (d : DocumentId) : Prop :=
  ∃ id t, deed = .go id ∧ f.task? id = some t ∧ t.Passes f.world d

/-- No check of `d` is under way. -/
def Unchecked (f : Flight) (d : DocumentId) : Prop := ∀ id t, f.task? id = some t → d ∉ t.checks

variable {f f' : Flight} {deed : Deed} {d : DocumentId}

theorem Goes.revives_iff_passes (h : f.Goes deed f') (hd : (f.world.document d).validity = .invalid) :
    (f'.world.document d).validity ≠ .invalid ↔ f.Passes deed d := by
  have hages (hworld : f.world.Ages f'.world) (hdeed : ∀ id, deed ≠ .go id) :
      (f'.world.document d).validity ≠ .invalid ↔ f.Passes deed d := by
    refine iff_of_false (fun hrevived => hrevived (hworld.invalid hd)) ?_
    rintro ⟨id, t, rfl, -⟩
    exact hdeed id rfl
  cases h with
  | call c =>
      refine hages ?_ nofun
      have hbegin : Task.advance f.world f.next ⟨[], .call c⟩ = some (Move.begin f.world f.next c, []) := rfl
      rcases Task.ages_of_advance hbegin with hworld | ⟨d, hpasses⟩
      · exact hworld
      · cases hpasses
  | @go id t m rest ht ha =>
      refine (Task.revives_iff_passes hd ha).trans ⟨fun hpasses => ⟨id, t, rfl, ht, hpasses⟩, ?_⟩
      rintro ⟨id', t', hid, ht', hpasses⟩
      cases hid
      cases ht.symm.trans ht'
      exact hpasses
  | openGate gate => exact hages (.of_eq rfl rfl) nofun
  | release e => exact hages (World.ages_release f.world e) nofun
  | tick now hnow => exact hages (.of_eq rfl rfl) nofun
  | keep e duration => exact hages (.of_eq rfl rfl) nofun

theorem Goes.unchecked (h : f.Goes deed f') (hd : (f.world.document d).validity = .invalid) (hnone : f.Unchecked d) :
    f'.Unchecked d := by
  intro id t ht
  obtain ⟨t₀, hfrom, hstack⟩ := h.stack_cases ht
  have hbefore : d ∉ t₀.checks := by
    rcases hfrom with hsome | ⟨c, rfl⟩
    · exact hnone id t₀ hsome
    · exact List.not_mem_nil
  rcases hstack with hsame | ⟨m, rest, ha, hnext⟩
  · unfold Task.checks
    rwa [hsame]
  · have hafter := Task.not_mem_checks_of_advance hd hbefore ha
    unfold Task.checks at hafter ⊢
    rwa [hnext]

theorem Stirs.invalid (h : f.Stirs f') (hd : (f.world.document d).validity = .invalid) (hnone : f.Unchecked d) :
    (f'.world.document d).validity = .invalid ∧ f'.Unchecked d := by
  cases h with
  | goes h =>
      refine ⟨Classical.byContradiction fun hrevived => ?_, h.unchecked hd hnone⟩
      obtain ⟨id, t, -, ht, hpasses⟩ := (h.revives_iff_passes hd).1 hrevived
      exact hnone id t ht (Task.mem_checks_of_passes hpasses)
  | serves errand => exact ⟨(World.ages_serve f.world errand).invalid hd, hnone⟩

/-- A document that is invalid while no check of it is under way is invalid ever after, and is found so at once by every
check that begins. At any time just one kind of step makes an invalid document valid: the last one of a check that began
before and finds nothing. -/
theorem invalid_is_final (hd : (f.world.document d).validity = .invalid) :
    (f.Unchecked d → ∀ f', Relation.ReflTransGen Stirs f f' → (f'.world.document d).validity = .invalid ∧
      ∀ id visited, Move.begin f'.world id (.isValid d visited) = Move.reply f'.world (.validity false visited)) ∧
    (∀ deed f', f.Goes deed f' → ((f'.world.document d).validity ≠ .invalid ↔ f.Passes deed d)) ∧
    ∀ errand, ((f.world.serve errand).document d).validity = .invalid := by
  refine ⟨fun hnone f' h => ?_, fun deed f' h => h.revives_iff_passes hd,
    fun errand => (World.ages_serve f.world errand).invalid hd⟩
  have hkept : (f'.world.document d).validity = .invalid ∧ f'.Unchecked d := by
    induction h with
    | refl => exact ⟨hd, hnone⟩
    | tail _ hstep ih => exact hstep.invalid ih.1 ih.2
  exact ⟨hkept.1, fun id visited => if_pos hkept.1⟩

end Flight

/-- A document that depends on another one. -/
def linkedWorld : World :=
  let w : World := { tree := { origin := "" }, sources := [{ storage := .memory "" }] }
  ((w.setDocument ⟨0⟩ "e" "" "" none).1.setDocument ⟨0⟩ "d" "" "" none).1.modifyDocument ⟨1⟩ (·.addDependency "e")

namespace Machine

/-- The check of the document has found the other one valid. Then the document becomes invalid. -/
def overtaken : Machine :=
  let m := (spawn { world := linkedWorld } (.isValid ⟨1⟩ [])).1.settle 2
  { m with world := m.world.serve (.invalidate ⟨1⟩) }

/-- The check goes on, and makes the document valid again. A document that no check is at work on stays invalid. -/
theorem revived_of_overtaken :
    ∃ m, overtaken.step = some m ∧ (overtaken.world.document ⟨1⟩).validity = .invalid ∧
      (m.world.document ⟨1⟩).validity = .valid ∧ overtaken.flight.Passes (.go ⟨0⟩) ⟨1⟩ ∧
      ∀ f, Relation.ReflTransGen Flight.Stirs { world := m.world.serve (.invalidate ⟨1⟩) } f →
        (f.world.document ⟨1⟩).validity = .invalid := by
  obtain ⟨hready, hinvalid, hvalid, hagain⟩ :
      overtaken.ready = [⟨0⟩] ∧ (overtaken.world.document ⟨1⟩).validity = .invalid ∧
        overtaken.step.map (fun m => (m.world.document ⟨1⟩).validity) = some .valid ∧
        overtaken.step.map (fun m => ((m.world.serve (.invalidate ⟨1⟩)).document ⟨1⟩).validity) = some .invalid := by
    decide +kernel
  obtain ⟨m, hstep, hrevived⟩ := Option.map_eq_some_iff.1 hvalid
  rw [hstep, Option.map_some, Option.some.injEq] at hagain
  refine ⟨m, hstep, hinvalid, hrevived, ?_, fun f hf => ?_⟩
  · obtain ⟨id, hid, ⟨-, hsame⟩ | hgo⟩ := flight_step hstep
    · have hworld : m.world = overtaken.world := congrArg Flight.world hsame
      rw [hworld, hinvalid] at hrevived
      cases hrevived
    · rw [hready] at hid
      cases hid
      refine ((Flight.invalid_is_final hinvalid).2.1 _ _ hgo).1 ?_
      exact fun h => nomatch hrevived.symm.trans h
  · let later : Flight := { world := m.world.serve (.invalidate ⟨1⟩) }
    have hnone : later.Unchecked ⟨1⟩ := fun id t ht => nomatch ht
    exact ((Flight.invalid_is_final (f := later) hagain).1 hnone f hf).1

end Machine

end ScriptedText
