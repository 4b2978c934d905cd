import ScriptedText.Proofs.Engine.InFlow
import ScriptedText.Proofs.Engine.Provenance
import ScriptedText.Proofs.Engine.Restoring

/-!
On which document it is recorded that a program includes another one: on the one that is kept under the name of the
program's executable, whether or not the executable is still that document's.
-/

namespace ScriptedText

open Relation World

namespace World

/-- The document that the source keeps under the name that the executable was made for. -/
def namesake? (w : World) (s : SourceId) (e : ExecutableId) : Option DocumentId :=
  if (w.executable e).partition = w.identifier s then w.cached? s (w.executable e).registered else none

/-- The source keeps the document, whose executable this is. -/
def IsHolder (w : World) (s : SourceId) (e : ExecutableId) (d : DocumentId) : Prop :=
  (∃ name, w.cached? s name = some d) ∧ (w.document d).executable = some e

/-- The name is recorded on these documents, and nothing happens to others. -/
def Records (w w' : World) (name : String) (recorders : DocumentId → Prop) : Prop :=
  ∀ d, (recorders d → w'.document d = (w.document d).addDependency name) ∧ (¬ recorders d → w'.document d = w.document d)

variable {w w' : World} {s : SourceId} {e : ExecutableId} {name : String} {d : DocumentId} {host : Host} {c : ContextId}

/-- A document that comes from no file is kept under the name that its executable was made for. -/
theorem Homegrown.namesake?_of_isHolder (h : w.Homegrown) (hmemory : w.IsMemory s) (hd : w.IsHolder s e d) :
    w.namesake? s e = some d := by
  obtain ⟨⟨name, hkept⟩, he⟩ := hd
  have hfits := h.name s name d hkept
  have hfile := hfits.memory hmemory
  have hmade := h.made d e he
  rw [namesake?, hmade.partition, hfits.housed.2, if_pos rfl, hmade.registered hfile, hfits.own hfile]
  exact hkept

theorem Homegrown.lt_of_namesake? (h : w.Homegrown) (hd : w.namesake? s e = some d) : d.index < w.documents.length := by
  unfold namesake? at hd
  split at hd
  · exact (h.name s _ d hd).housed.1
  · cases hd

/-- The program that runs on the context is found by the service there. -/
theorem recorder?_of_service {handle : Handle}
    (hservice : (w.context c).services.get? host.compilation.exposed = some (.handle handle)) :
    w.recorder? host c = w.namesake? host.main handle.executable := by
  unfold recorder?
  rw [hservice]
  rfl

theorem Homegrown.records_recordDependency (h : w.Homegrown) (hrecorder : w.recorder? host c = w.namesake? host.main e) :
    w.Records (w.recordDependency host name c) name fun d => w.namesake? host.main e = some d := by
  intro d
  rw [recordDependency_eq, hrecorder]
  cases hnamesake : w.namesake? host.main e with
  | none => exact ⟨nofun, fun _ => rfl⟩
  | some d' =>
      dsimp only
      have hlt := h.lt_of_namesake? hnamesake
      refine ⟨?_, fun hne => ?_⟩
      · rintro ⟨⟩
        rw [document_modifyDocument w _ d hlt, if_pos rfl]
      · exact (document_modifyDocument_cases w _ d' d).resolve_right fun h => hne (congrArg some h.1)

/-- What is recorded on some documents is recorded on others, unless it is on record there already. -/
theorem Records.iff {recorders others : DocumentId → Prop} (h : w.Records w' name recorders) : w.Records w' name others ↔
    ∀ d, (recorders d ↔ others d) ∨ (w.document d).addDependency name = w.document d := by
  constructor
  · intro hothers d
    by_cases hd : recorders d
    · by_cases hd' : others d
      · exact .inl (iff_of_true hd hd')
      · exact .inr (((h d).1 hd).symm.trans ((hothers d).2 hd'))
    · by_cases hd' : others d
      · exact .inr (((hothers d).1 hd').symm.trans ((h d).2 hd))
      · exact .inl (iff_of_false hd hd')
  · intro hsame d
    rcases hsame d with hiff | hold
    · rw [← hiff]
      exact h d
    · by_cases hd : recorders d
      · exact ⟨fun _ => (h d).1 hd, fun _ => ((h d).1 hd).trans hold⟩
      · exact ⟨fun _ => ((h d).2 hd).trans hold.symm, fun _ => (h d).2 hd⟩

end World

namespace Task

/-- A step of a task that does not change services of the context by itself. -/
def Steps (id : TaskId) (c : ContextId) (a b : World × Task) : Prop := a.2.control.setsService c = false ∧ Goes id a b

variable {id : TaskId} {c : ContextId} {w w₁ : World} {t t₁ : Task} {run : Run} {options : RunOptions}

theorem Tidy.steps {c₀ : Context} (h : t₁.Tidy w₁ c c₀) (hsteps : ReflTransGen (Steps id c) (w₁, t₁) (w, t)) : t.Tidy w c c₀ := by
  generalize hb : (w, t) = b at hsteps
  induction hsteps generalizing w t with
  | refl =>
      cases hb
      exact h
  | tail _ hstep ih =>
      obtain ⟨hsets, m, rest, ha, rfl⟩ := hstep
      cases hb
      exact (ih rfl).advance hsets ha

/-- Goes on for a number of steps, as long as the task does not change services of the context by itself. -/
def goOn (id : TaskId) (c : ContextId) : Nat → World × Task → Option (World × Task)
  | 0, a => some a
  | n + 1, a =>
    if a.2.control.setsService c then none
    else (a.2.advance a.1 id).bind fun (m, rest) => goOn id c n (m.world, ⟨m.push ++ rest, m.control⟩)

theorem steps_of_goOn {n : Nat} {a b : World × Task} (h : goOn id c n a = some b) : ReflTransGen (Steps id c) a b := by
  induction n generalizing a with
  | zero =>
      cases h
      exact .refl
  | succ n ih =>
      unfold goOn at h
      split at h
      · cases h
      · next hsets =>
          obtain ⟨⟨m, rest⟩, ha, h⟩ := Option.bind_eq_some_iff.1 h
          exact .head ⟨Bool.eq_false_iff.2 hsets, m, rest, ha, rfl⟩ (ih h)

/-- While the last program that a run has started on a context runs there, its service is found under its exposed name. -/
theorem get?_exposed_of_steps {above below : List Frame} {inner : Run} {site : Site} {swap : Option Swap} {control : Control}
    (hc : c.index < w₁.contexts.length) (hunclaimed : (w₁.context c).immutable = false)
    (hsteps : ReflTransGen (Steps id c) (w₁, ⟨[], .call (.execute run options)⟩)
      (w, ⟨above ++ .program inner site swap :: below, control⟩))
    (habove : ∀ run site swap, Frame.program run site swap ∈ above → run.context ≠ c) (hinner : inner.context = c) :
    (w.context c).services.get? (w.executable inner.executable).exposed = some (.handle inner.handle) := by
  have hstart : Tidy w₁ c (w₁.context c) ⟨[], .call (.execute run options)⟩ := ⟨.call _ _, ⟨rfl, rfl⟩, .nil, fun h => h, hc⟩
  exact ((hstart.steps hsteps).dressed.of_append habove).get?_exposed hinner (.inl hunclaimed)

theorem turns_of_steps (allows : World → Errand → Prop) (hsteps : ReflTransGen (Steps id c) (w₁, t₁) (w, t)) :
    ReflTransGen (Course.Turn allows fun _ _ => True) ⟨w₁, some (id, t₁)⟩ ⟨w, some (id, t)⟩ := by
  refine hsteps.lift (fun a => (⟨a.1, some (id, a.2)⟩ : Course)) ?_
  rintro ⟨w, t⟩ b ⟨-, m, rest, ha, rfl⟩
  exact .step trivial ha

/-- What is included by a program that has just got its executable, with the context and the program's run. -/
def includer? : Task → Option (String × ContextId × Run)
  | ⟨.fetched name true c :: .conversation _ _ :: .program inner _ _ :: _, .settled (.ok (.executable _))⟩ => some (name, c, inner)
  | _ => none

theorem exists_of_includer? {name : String} {inner : Run} (h : t.includer? = some (name, c, inner)) :
    ∃ s k site swap below e, t = ⟨.fetched name true c :: [.conversation s k] ++ .program inner site swap :: below,
      .settled (.ok (.executable e))⟩ := by
  unfold includer? at h
  split at h
  · cases h
    exact ⟨_, _, _, _, _, _, rfl⟩
  · cases h

end Task

namespace Course

/-- A program that includes a document has this recorded on the document that the main source keeps under the name of the
program's executable, and on no other. This should be the document that holds the executable: if documents come from no
files and one holds it, it is that one, but it need not be the case that any does. -/
theorem include_recorded_on_namesake {w₀ w₁ w w' : World} {id : TaskId} {c : ContextId} {run inner : Run} {options : RunOptions}
    {host : Host} {name : String} {e : ExecutableId} {above below : List Frame} {site : Site} {swap : Option Swap} {t : Task}
    (hdocuments : w₀.documents = []) (hempty : ∀ s, w₀.Empty s)
    (hpast : ReflTransGen (Turn World.Supplies fun _ _ => True) ⟨w₀, none⟩ ⟨w₁, none⟩)
    (hc : c.index < w₁.contexts.length) (hunclaimed : (w₁.context c).immutable = false)
    (hrun : ReflTransGen (Task.Steps id c) (w₁, ⟨[], .call (.execute run options)⟩)
      (w, ⟨.fetched name true c :: above ++ .program inner site swap :: below, .settled (.ok (.executable e))⟩))
    (habove : ∀ run site swap, Frame.program run site swap ∈ above → run.context ≠ c) (hinner : inner.context = c)
    (hhost : w.host = some host) (hexposed : (w.executable inner.executable).exposed = host.compilation.exposed)
    (hnext : Task.Goes id
      (w, ⟨.fetched name true c :: above ++ .program inner site swap :: below, .settled (.ok (.executable e))⟩) (w', t)) :
    w.Records w' name (fun d => w.namesake? host.main inner.executable = some d) ∧
      (w.Records w' name (w.IsHolder host.main inner.executable) ↔ ∀ d,
        (w.namesake? host.main inner.executable = some d ↔ w.IsHolder host.main inner.executable d) ∨
          (w.document d).addDependency name = w.document d) ∧
      (w.IsMemory host.main → ∀ d, w.IsHolder host.main inner.executable d →
        w.namesake? host.main inner.executable = some d) := by
  have hlast : ∀ run site swap, Frame.program run site swap ∈ .fetched name true c :: above → run.context ≠ c := by
    intro run site swap hmem
    rcases List.mem_cons.1 hmem with heq | hmem
    · cases heq
    · exact habove run site swap hmem
  have hservice := Task.get?_exposed_of_steps hc hunclaimed hrun hlast hinner
  rw [hexposed] at hservice
  have hturns := Task.turns_of_steps World.Supplies hrun
  have hhomegrown : w.Homegrown :=
    keeps_homegrown.holds_at (hpast.trans (.head (.call w₁ id _) hturns)) rfl (homegrown_of_empty hdocuments hempty)
  have hworld : w' = w.recordDependency host name c := by
    obtain ⟨m, rest, ha, heq⟩ := hnext
    cases ha
    cases heq
    change (Move.afterFetched w name true c e).world = _
    unfold Move.afterFetched
    rw [hhost]
    rfl
  subst hworld
  have hrecords : w.Records (w.recordDependency host name c) name fun d =>
      w.namesake? host.main inner.executable = some d :=
    hhomegrown.records_recordDependency (recorder?_of_service hservice)
  exact ⟨hrecords, hrecords.iff, fun hmemory d hd => hhomegrown.namesake?_of_isHolder hmemory hd⟩

/-- A document that includes another one. -/
def quotingNested : World :=
  (quotingWorld.serve (.set ⟨0⟩ "n" "<%'d'%>" "" none)).serve (.set ⟨0⟩ "d" "x" "" none)

def quotingGot : Course := proceed 20 ⟨quotingNested, some (⟨0⟩, ⟨[], .call (.getExecutable "n" true)⟩)⟩

/-- Another document has taken its place since its executable was got. -/
def quotingReplaced : World := quotingGot.world.serve (.set ⟨0⟩ "n" "new" "" none)

theorem quotingReplaced_eq : quotingReplaced =
    let w := (quotingGot.world.createDocument ⟨0⟩ "n" "new" "" none).1
    let w := w.modifySource ⟨0⟩ fun source => { source with byName := source.byName.insert "n" ⟨2⟩ }
    let w := w.modifyDocument ⟨0⟩ Document.invalidate
    let w := w.modifySource ⟨0⟩ fun source => { source with byFile := (source.byFile.eraseValue ⟨0⟩).1 }
    (w.emit (.evicted "n" .replaced)).invalidateDependents ⟨0⟩ "n" := by
  have hold : quotingGot.world.cached? ⟨0⟩ "n" = some ⟨0⟩ := by decide +kernel
  have hnew : (quotingGot.world.createDocument ⟨0⟩ "n" "new" "" none).2 = ⟨2⟩ := by decide +kernel
  unfold quotingReplaced World.serve World.setDocument
  simp only [hold, hnew]
  rw [dropInFlow_of_nil]
  decide +kernel

theorem turns_of_replaced :
    ReflTransGen (Turn World.Supplies fun _ _ => True) ⟨quotingWorld, none⟩ ⟨quotingReplaced, none⟩ := by
  have hgot : quotingGot.task?.isNone = true := by decide +kernel
  have hcourse := turns_proceed World.Supplies 20 ⟨quotingNested, some (⟨0⟩, ⟨[], .call (.getExecutable "n" true)⟩)⟩
  change ReflTransGen _ _ quotingGot at hcourse
  have hset (w : World) (name text : String) :
      Turn World.Supplies (fun _ _ => True) ⟨w, none⟩ ⟨w.serve (.set ⟨0⟩ name text "" none), none⟩ :=
    .serve (show w.Supplies (.set ⟨0⟩ name text "" none) from rfl)
  unfold quotingReplaced
  generalize quotingGot = got at hgot hcourse
  obtain ⟨w, _ | task⟩ := got
  · exact .head (hset _ _ _) (.head (hset _ _ _) (.head (.call _ ⟨0⟩ _) (hcourse.tail (hset w _ _))))
  · cases hgot

/-- Its executable is run nevertheless. -/
def quotingCall : Call := .execute ⟨⟨0⟩, ⟨0⟩, some .host, {}⟩ {}

/-- The document that replaced another one gets the name that the replaced one's executable includes. -/
theorem include_recorded_on_replacement :
    ∃ (w w' : World) (inner : Run) (t t' : Task) (d : DocumentId),
      ReflTransGen (Turn World.Supplies fun _ _ => True) ⟨quotingWorld, none⟩ ⟨quotingReplaced, none⟩ ∧
        ReflTransGen (Task.Steps ⟨1⟩ ⟨0⟩) (quotingReplaced, ⟨[], .call quotingCall⟩) (w, t) ∧
        t.includer? = some ("d", ⟨0⟩, inner) ∧ Task.Goes ⟨1⟩ (w, t) (w', t') ∧
        w.cached? ⟨0⟩ "n" = some d ∧ (w.document d).executable ≠ some inner.executable ∧
        (w'.document d).dependencies = ["d"] ∧ ¬ w.Records w' "d" (w.IsHolder ⟨0⟩ inner.executable) := by
  have hruns : (Task.goOn ⟨1⟩ ⟨0⟩ 12 (quotingReplaced, ⟨[], .call quotingCall⟩)).any (fun a =>
      (a.2.includer?.any fun (name, c, inner) => name = "d" && c = ⟨0⟩ && inner.context = ⟨0⟩ && inner.executable = ⟨0⟩) &&
      (a.1.host.any fun host => host.main = ⟨0⟩ && (a.1.executable ⟨0⟩).exposed = host.compilation.exposed) &&
      a.1.cached? ⟨0⟩ "n" = some ⟨2⟩ && a.1.namesake? ⟨0⟩ ⟨0⟩ = some ⟨2⟩ &&
      (a.1.document ⟨2⟩).executable = none && (a.1.document ⟨2⟩).dependencies = [] &&
      ((a.1.document ⟨2⟩).addDependency "d").dependencies = ["d"]) = true := by
    rw [quotingReplaced_eq]
    decide +kernel
  have hcontext : 0 < quotingReplaced.contexts.length ∧ (quotingReplaced.context ⟨0⟩).immutable = false := by
    rw [quotingReplaced_eq]
    decide +kernel
  obtain ⟨⟨w, t⟩, hgoes, hran⟩ := (Option.any_eq_true _ _).1 hruns
  simp only [Bool.and_eq_true, decide_eq_true_eq] at hran
  obtain ⟨⟨⟨⟨⟨⟨hincluder, hhost⟩, hkept⟩, hnamesake⟩, hnone⟩, hnil⟩, hadded⟩ := hran
  obtain ⟨⟨name, c, inner⟩, ht, hincluder⟩ := (Option.any_eq_true _ _).1 hincluder
  obtain ⟨host, hsome, hhost⟩ := (Option.any_eq_true _ _).1 hhost
  simp only [Bool.and_eq_true, decide_eq_true_eq] at hincluder hhost
  obtain ⟨⟨⟨rfl, rfl⟩, hinner⟩, he⟩ := hincluder
  obtain ⟨hmain, hexposed⟩ := hhost
  obtain ⟨s, k, site, swap, below, e, rfl⟩ := Task.exists_of_includer? ht
  have hsteps := Task.steps_of_goOn hgoes
  have hnext : Task.Goes ⟨1⟩ (w, ⟨.fetched "d" true ⟨0⟩ :: [.conversation s k] ++ .program inner site swap :: below,
      .settled (.ok (.executable e))⟩) (_, _) := ⟨_, _, rfl, rfl⟩
  obtain ⟨hrecords, hpromise, -⟩ := include_recorded_on_namesake rfl fresh_quotingWorld.empty turns_of_replaced hcontext.1
    hcontext.2 hsteps (by simp) hinner hsome (he ▸ hexposed) hnext
  rw [hmain, he] at hrecords hpromise
  have hdocument := (hrecords ⟨2⟩).1 hnamesake
  refine ⟨w, _, inner, _, _, ⟨2⟩, turns_of_replaced, hsteps, rfl, hnext, hkept, ?_, ?_, fun hholders => ?_⟩
  · rw [hnone]
    exact nofun
  · rw [hdocument, hadded]
  · rw [he] at hholders
    rcases hpromise.1 hholders ⟨2⟩ with hiff | hsame
    · cases hnone.symm.trans (hiff.1 hnamesake).2
    · rw [hsame, hnil] at hadded
      cases hadded

end Course

end ScriptedText
