import ScriptedText.Proofs.Engine.Checking
import ScriptedText.Proofs.Engine.Upkeep

/-!
What a lookup that runs alone does to its source: a few kinds of chores, one after the other. What it gives is kept under
the name then, and nothing is wrong with it.
-/

namespace ScriptedText

open Relation

namespace World

/-- The document that a file is read as. -/
def fromFile (w : World) (s : SourceId) (name text : String) (file : Files.Path) (mtime : Int) : Document :=
  { name, text, tag := Files.bareExtension (file.getLast?.getD ""), timestamp := mtime, file := some file
    source := s, lastCheck := w.clock }

def keepFile (w : World) (s : SourceId) (name text : String) (file : Files.Path) (mtime : Int) : World :=
  (((w.addDocument (w.fromFile s name text file mtime)).1.keepByFile s file ⟨w.documents.length⟩).1.keepByName s name
    ⟨w.documents.length⟩).1

/-- Puts an invalid document without a file in place again. -/
def reenter (w : World) (s : SourceId) (name : String) (d : DocumentId) : World :=
  (((w.evict s d).createDocument s name (w.document d).text (w.document d).tag none).1.keepByName s name
    ⟨w.documents.length⟩).1

def IsMemory (w : World) (s : SourceId) : Prop := ∃ identifier, (w.source s).storage = .memory identifier

def HasFiles (w : World) (s : SourceId) : Prop := ∃ naming interval, (w.source s).storage = .files naming interval

inductive Chore (s : SourceId) (w : World) : World → Prop
  | check {w' : World} (h : w.Checks w') : Chore s w w'
  | renew {name : String} {d : DocumentId} (hmemory : w.IsMemory s) (hd : w.cached? s name = some d)
      (hinvalid : (w.document d).validity = .invalid) : Chore s w (w.renew s name d).1
  | evict {d : DocumentId} (hfiles : w.HasFiles s) (hinvalid : (w.document d).validity = .invalid)
      (hfile : (w.document d).file.isSome = true ∨ ∃ file, (w.source s).byFile.get? file = some d) :
      Chore s w (w.evict s d)
  | reenter {name : String} {d : DocumentId} (hfiles : w.HasFiles s) (hd : w.cached? s name = some d)
      (hinvalid : (w.document d).validity = .invalid) (hfile : (w.document d).file = none) :
      Chore s w (w.reenter s name d)
  | keep {name : String} {file : Files.Path} {d : DocumentId} (hname : w.cached? s name = none)
      (hfiled : w.IsFiled s name file) (hd : (w.source s).byFile.get? file = some d)
      (hvalid : (w.document d).validity ≠ .invalid) : Chore s w (w.keepByName s name d).1
  | read {name text : String} {file : Files.Path} {mtime : Int} (hname : w.cached? s name = none)
      (hfiled : w.IsFiled s name file) (hfile : (w.source s).byFile.get? file = none)
      (hread : Files.Naming.read w.tree file name = .ok (text, mtime)) : Chore s w (w.keepFile s name text file mtime)

/-- What a lookup has come to. A name of a scriptlet body may be dropped from memory while it is looked up. -/
structure Lookup (s : SourceId) (name : String) (w w' : World) (o : Outcome) : Prop where
  chores : ReflTransGen (Chore s) w w'
  outcome : (∃ f, o = .error f) ∨ ∃ d, o = .ok (.document d) ∧ ¬ w'.Fails d ∧
    (w'.cached? s name = some d ∨
      w.IsMemory s ∧ ∃ w₁ old, ReflTransGen (Chore s) w w₁ ∧ w₁.cached? s name = some old ∧
        w' = (w₁.renew s name old).1 ∧ d = ⟨w₁.documents.length⟩)

variable {w w' w₁ : World} {s : SourceId} {name : String} {d : DocumentId} {id : TaskId} {o : Outcome}
  {file : Files.Path}

theorem ages_keepFile (w : World) (s : SourceId) (name text : String) (file : Files.Path) (mtime : Int) :
    w.Ages (w.keepFile s name text file mtime) :=
  ((Ages.addDocument w _).trans (ages_keepByFile _ s _ file)).trans (ages_keepByName _ s name _)

theorem Checks.ages (h : w.Checks w') : w.Ages w' where
  storage s := congrArg Source.storage (h.rechecks.source_eq s)
  documents := Nat.le_of_eq h.rechecks.length.symm
  document d _ := by
    refine ⟨?_, ?_, fun e he => ?_, h.invalid d⟩
    · rw [h.rechecks.document d]
    · exact h.rechecks.dependencies_eq d ▸ List.prefix_refl _
    · rw [h.rechecks.document d]
      exact he

theorem ages_chore (h : Chore s w w') : w.Ages w' := by
  cases h with
  | check hchecks => exact hchecks.ages
  | @renew name d _ _ _ => exact ages_renew w s name d
  | @evict d _ _ _ => exact ages_evict w s d
  | @reenter name d _ _ _ _ =>
      have hcreate := (ages_evict w s d).trans (ages_createDocument _ s name (w.document d).text (w.document d).tag none)
      exact hcreate.trans (ages_keepByName _ s name _)
  | @keep name _ d _ _ _ _ => exact ages_keepByName w s name d
  | @read name text file mtime _ _ _ _ => exact ages_keepFile w s name text file mtime

theorem Lookup.refuse (f : Failure) : Lookup s name w w (.error f) := ⟨.refl, .inl ⟨f, rfl⟩⟩

theorem Lookup.after (hfirst : Chore s w w₁) (hfiles : w₁.HasFiles s) (h : Lookup s name w₁ w' o) : Lookup s name w w' o := by
  refine ⟨.head hfirst h.chores, h.outcome.imp_right ?_⟩
  rintro ⟨d, ho, hd, hkept⟩
  refine ⟨d, ho, hd, .inl (hkept.resolve_right ?_)⟩
  rintro ⟨⟨identifier, hmemory⟩, -⟩
  obtain ⟨naming, interval, hstorage⟩ := hfiles
  cases hmemory.symm.trans hstorage

theorem status_of_read {t : Files.Tree} {text : String} {mtime : Int} (h : Files.Naming.read t file name = .ok (text, mtime)) :
    ∃ path bytes, t.status file = .file path bytes mtime ∧ text = Text.decodeUtf8 bytes := by
  unfold Files.Naming.read at h
  cases hstatus : t.status file with
  | file path bytes time =>
      rw [hstatus] at h
      cases h
      exact ⟨path, bytes, rfl, rfl⟩
  | _ =>
      rw [hstatus] at h
      cases h

section kept

variable {text : String} {mtime : Int}

theorem document_keepFile (w : World) (s : SourceId) (name text : String) (file : Files.Path) (mtime : Int) :
    (w.keepFile s name text file mtime).document ⟨w.documents.length⟩ = w.fromFile s name text file mtime :=
  document_addDocument w _

theorem keepByFile_addDocument (x : Document) (hfile : (w.source s).byFile.get? file = none) :
    ((w.addDocument x).1.keepByFile s file ⟨w.documents.length⟩).2 = ⟨w.documents.length⟩ := by
  rw [keepByFile_snd]
  exact congrArg (Option.getD · _) hfile

theorem cached?_keepFile (hs : s.index < w.sources.length) (hname : w.cached? s name = none) (other : String) :
    (w.keepFile s name text file mtime).cached? s other =
      if other = name then some ⟨w.documents.length⟩ else w.cached? s other := by
  unfold keepFile
  generalize hw₁ : ((w.addDocument (w.fromFile s name text file mtime)).1.keepByFile s file ⟨w.documents.length⟩).1 = w₁
  have hcached (other : String) : w₁.cached? s other = w.cached? s other := by
    subst hw₁
    exact cached?_keepByFile _ s file _ other
  have hs₁ : s.index < w₁.sources.length := by
    subst hw₁
    simpa [keepByFile, modifySource, addDocument] using hs
  rw [cached?_keepByName w₁ s name _ hs₁, keepByName_snd, hcached, hname, hcached]
  rfl

theorem lookup_keepFile (hname : w.cached? s name = none) (hfiled : w.IsFiled s name file)
    (hfile : (w.source s).byFile.get? file = none)
    (hread : Files.Naming.read w.tree file name = .ok (text, mtime)) :
    Lookup s name w (w.keepFile s name text file mtime) (.ok (.document ⟨w.documents.length⟩)) := by
  have hdoc := document_keepFile w s name text file mtime
  obtain ⟨path, bytes, hstatus, -⟩ := status_of_read hread
  refine ⟨.single (.read hname hfiled hfile hread), .inr ⟨_, rfl, ?_, .inl ?_⟩⟩
  · have hkept : (w.keepFile s name text file mtime).tree.status file = .file path bytes mtime := hstatus
    apply not_fails
    · rw [hdoc]
      intro hinvalid
      cases hinvalid
    · refine .inr (.inr (.inr ?_))
      unfold isUnchanged
      rw [hdoc]
      simp only [fromFile]
      rw [hkept]
      exact decide_eq_true (Int.le_refl mtime)
  · rw [cached?_keepFile hfiled.lt hname, if_pos rfl]

end kept

theorem lookup_afterReading (hname : w.cached? s name = none) (hfiled : w.IsFiled s name file)
    (hfile : (w.source s).byFile.get? file = none) (h : (Move.afterReading w s name file).Ends id w' o) :
    Lookup s name w w' o := by
  unfold Move.afterReading at h
  split at h
  · next f _ =>
      obtain ⟨rfl, rfl⟩ := Move.ends_settle.1 h
      exact .refuse f
  · next text mtime hread =>
      have hmove : (Move.keptByName ((w.addDocument (w.fromFile s name text file mtime)).1.keepByFile s file
          ⟨w.documents.length⟩).1 s name ((w.addDocument (w.fromFile s name text file mtime)).1.keepByFile s file
            ⟨w.documents.length⟩).2).Ends id w' o := h
      rw [keepByFile_addDocument _ hfile, Move.keptByName_of_none] at hmove
      · obtain ⟨rfl, rfl⟩ := Move.ends_settle.1 hmove
        exact lookup_keepFile hname hfiled hfile hread
      · exact (cached?_keepByFile _ s file _ name).trans hname

theorem HasFiles.of_eq (h : w.HasFiles s) (hstorage : (w'.source s).storage = (w.source s).storage) : w'.HasFiles s := by
  obtain ⟨naming, interval, hfiles⟩ := h
  exact ⟨naming, interval, hstorage.trans hfiles⟩

theorem IsFiled.hasFiles (h : w.IsFiled s name file) : w.HasFiles s := by
  obtain ⟨naming, interval, hstorage, -⟩ := h
  exact ⟨naming, interval, hstorage⟩

theorem fails_iff_of_eq (hsame : w'.document d = w.document d) (hclock : w'.clock = w.clock) (htree : w'.tree = w.tree)
    (hstorage : ∀ s, (w'.source s).storage = (w.source s).storage) : w'.Fails d ↔ w.Fails d := by
  have hunchanged : w'.isUnchanged d = w.isUnchanged d := isUnchanged_of_eq htree (by rw [hsame]) (by rw [hsame])
  have hinterval (s : SourceId) : (w'.source s).interval = (w.source s).interval := by
    unfold Source.interval
    rw [hstorage]
  unfold Fails
  rw [hsame, hclock, hunchanged, hinterval]

/-- A frame goes on with what a check has come to. -/
theorem exists_checks_of_ends {f : Frame} (h : (Move.call w (.isValid d []) [f]).Ends id w' o) :
    ∃ w₁ b visited, w.Checks w₁ ∧ (b = true → ¬ w₁.Fails d) ∧ (b = false → (w₁.document d).validity = .invalid) ∧
      (Move.resume w₁ id f (.ok (.validity b visited))).Ends id w' o := by
  obtain ⟨w₁, o₁, hcheck, hrest⟩ := Move.ends_call.1 h
  obtain ⟨b, visited, rfl, hvalid, hinvalid⟩ := validity_of_ends hcheck
  exact ⟨w₁, b, visited, checks_of_ends hcheck, hvalid, hinvalid, hrest⟩

/-- Looks the document up by its file. -/
theorem lookup_afterResolving (hname : w.cached? s name = none) (h : (Move.afterResolving w s name).Ends id w' o) :
    Lookup s name w w' o := by
  unfold Move.afterResolving at h
  split at h
  · obtain ⟨rfl, rfl⟩ := Move.ends_settle.1 h
    exact .refuse _
  · next naming interval hstorage =>
      split at h
      · next f _ =>
          obtain ⟨rfl, rfl⟩ := Move.ends_settle.1 h
          exact .refuse f
      · next file hfileOf =>
          have hfiled : w.IsFiled s name file := ⟨naming, interval, hstorage, hfileOf⟩
          split at h
          · next d hd =>
              obtain ⟨w₁, b, visited, hchecks, hvalid, hinvalid, hrest⟩ := exists_checks_of_ends h
              have hfiled₁ : w₁.IsFiled s name file :=
                hfiled.of_eq (by rw [hchecks.rechecks.world]) (by rw [hchecks.rechecks.source_eq])
              have hname₁ : w₁.cached? s name = none := (hchecks.rechecks.cached?_eq s name).trans hname
              have hd₁ : (w₁.source s).byFile.get? file = some d := by rwa [hchecks.rechecks.source_eq]
              cases b with
              | true =>
                  have hsound := hvalid rfl
                  have hkept : (Move.keptByName w₁ s name d).Ends id w' o := hrest
                  rw [Move.keptByName_of_none hname₁] at hkept
                  obtain ⟨rfl, rfl⟩ := Move.ends_settle.1 hkept
                  refine .after (.check hchecks) hfiled₁.hasFiles ?_
                  refine ⟨.single (.keep hname₁ hfiled₁ hd₁ fun hd => hsound (.inl hd)), .inr ⟨d, rfl, ?_, .inl ?_⟩⟩
                  · have hfails : (w₁.keepByName s name d).1.Fails d ↔ w₁.Fails d :=
                      fails_iff_of_eq rfl rfl rfl (ages_keepByName w₁ s name d).storage
                    exact mt hfails.1 hsound
                  · rw [cached?_keepByName w₁ s name d hfiled₁.lt, if_pos rfl, keepByName_snd, hname₁]
                    rfl
              | false =>
                  have hread : (Move.afterReading (w₁.evict s d) s name file).Ends id w' o := Task.ends_frame.1 hrest
                  have hfiled₂ : (w₁.evict s d).IsFiled s name file := hfiled₁.of_eq rfl ((ages_evict w₁ s d).storage s)
                  have hname₂ := cached?_evict_of_none d hname₁
                  refine .after (.check hchecks) hfiled₁.hasFiles ?_
                  refine .after (.evict hfiled₁.hasFiles (hinvalid rfl) (.inr ⟨file, hd₁⟩)) hfiled₂.hasFiles ?_
                  exact lookup_afterReading hname₂ hfiled₂ (byFile_evict hd₁) hread
          · next hfile => exact lookup_afterReading hname hfiled hfile (Task.ends_frame.1 h)

section renewed

variable (w : World) (s : SourceId) (name : String) (d : DocumentId)

/-- The document that an invalid one is renewed as. -/
def anew : Document :=
  { name, text := (w.document d).text, tag := (w.document d).tag, timestamp := w.clock, source := s
    lastCheck := w.clock }

theorem document_renew : (w.renew s name d).1.document ⟨w.documents.length⟩ = w.anew s name d := by
  have hdoc := document_addDocument ((w.emit (.evicted name .invalid)).dropInFlow s d) (w.anew s name d)
  unfold renew
  dsimp only
  split
  · exact hdoc
  · exact hdoc

theorem reenter_eq : w.reenter s name d =
    (((w.evict s d).addDocument (w.anew s name d)).1.keepByName s name ⟨w.documents.length⟩).1 := rfl

end renewed

theorem lookup_renew (hmemory : w.IsMemory s) (hd : w.cached? s name = some d)
    (hinvalid : (w.document d).validity = .invalid) :
    Lookup s name w (w.renew s name d).1 (.ok (.document (w.renew s name d).2)) := by
  have hnew := document_renew w s name d
  rw [renew_eq hd]
  refine ⟨.single (.renew hmemory hd hinvalid), .inr ⟨_, rfl, ?_, .inr ⟨hmemory, w, d, .refl, hd, rfl, rfl⟩⟩⟩
  apply not_fails
  · rw [hnew]
    exact nofun
  · rw [hnew]
    exact .inl rfl

theorem lookup_reenter (hfiles : w.HasFiles s) (hd : w.cached? s name = some d)
    (hinvalid : (w.document d).validity = .invalid) (hfile : (w.document d).file = none) :
    Lookup s name w (w.reenter s name d) (.ok (.document ⟨w.documents.length⟩)) := by
  have hnew : (w.reenter s name d).document ⟨w.documents.length⟩ = w.anew s name d := document_addDocument (w.evict s d) _
  refine ⟨.single (.reenter hfiles hd hinvalid hfile), .inr ⟨_, rfl, ?_, .inl ?_⟩⟩
  · apply not_fails
    · rw [hnew]
      exact nofun
    · rw [hnew]
      exact .inl rfl
  · have hs : s.index < (w.evict s d).sources.length := by
      simpa [evict, emit, dropInFlow, modifySource] using lt_of_cached? hd
    rw [reenter_eq, cached?_keepByName ((w.evict s d).addDocument (w.anew s name d)).1 s name _ hs, if_pos rfl,
      keepByName_snd]
    exact congrArg (fun x : Option DocumentId => some (x.getD _)) (cached?_evict_of_cached hd)

theorem lookup_afterNamed_false (hd : w.cached? s name = some d) (hinvalid : (w.document d).validity = .invalid)
    (h : (Move.afterNamed w s name d false).Ends id w' o) : Lookup s name w w' o := by
  unfold Move.afterNamed at h
  simp only [Bool.false_eq_true, if_false] at h
  split at h
  · next identifier hstorage =>
      obtain ⟨rfl, rfl⟩ := Move.ends_settle.1 h
      exact lookup_renew ⟨identifier, hstorage⟩ hd hinvalid
  · next naming interval hstorage =>
      have hfiles : w.HasFiles s := ⟨naming, interval, hstorage⟩
      have hname₁ := cached?_evict_of_cached hd
      split at h
      · next hfile =>
          have hname₂ : ((w.evict s d).addDocument (w.anew s name d)).1.cached? s name = none := hname₁
          have hkept : (Move.keptByName ((w.evict s d).addDocument (w.anew s name d)).1 s name
              ⟨w.documents.length⟩).Ends id w' o := h
          rw [Move.keptByName_of_none hname₂] at hkept
          obtain ⟨rfl, rfl⟩ := Move.ends_settle.1 hkept
          exact lookup_reenter hfiles hd hinvalid (Option.isNone_iff_eq_none.1 hfile)
      · next hfile =>
          have hsome : (w.document d).file.isSome = true := by
            rwa [Bool.not_eq_true, Option.isNone_eq_false_iff] at hfile
          refine .after (.evict hfiles hinvalid (.inl hsome)) (hfiles.of_eq ((ages_evict w s d).storage s)) ?_
          exact lookup_afterResolving hname₁ (Task.ends_frame.1 h)

/-- A lookup that runs alone is a few chores, and gives what is kept under the name after them. -/
theorem lookup_of_ends (h : Task.Ends id w ⟨[], .call (.getDocument s name)⟩ w' o) : Lookup s name w w' o := by
  have hbegin : (Move.getDocument w s name).Ends id w' o := Task.ends_call.1 h
  unfold Move.getDocument at hbegin
  split at hbegin
  · next d hd =>
      obtain ⟨w₁, b, visited, hchecks, hvalid, hinvalid, hrest⟩ := exists_checks_of_ends hbegin
      have hd₁ : w₁.cached? s name = some d := (hchecks.rechecks.cached?_eq s name).trans hd
      cases b with
      | true =>
          obtain ⟨rfl, rfl⟩ := Move.ends_settle.1 hrest
          exact ⟨.single (.check hchecks), .inr ⟨d, rfl, hvalid rfl, .inl hd₁⟩⟩
      | false =>
          have hlookup := lookup_afterNamed_false hd₁ (hinvalid rfl) hrest
          refine ⟨.head (.check hchecks) hlookup.chores, hlookup.outcome.imp_right ?_⟩
          rintro ⟨x, ho, hx, hkept⟩
          refine ⟨x, ho, hx, hkept.imp_right ?_⟩
          rintro ⟨⟨identifier, hmemory⟩, w₂, old, hchores, hrenewed⟩
          refine ⟨⟨identifier, ?_⟩, w₂, old, .head (.check hchecks) hchores, hrenewed⟩
          rwa [hchecks.rechecks.source_eq] at hmemory
  · next identifier _ _ =>
      obtain ⟨rfl, rfl⟩ := Move.ends_settle.1 hbegin
      exact .refuse _
  · next naming interval hname _ => exact lookup_afterResolving hname (Task.ends_frame.1 hbegin)

end World

end ScriptedText
