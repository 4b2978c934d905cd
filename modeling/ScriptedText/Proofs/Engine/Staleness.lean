import ScriptedText.Proofs.Engine.Validity

/-!
What a lookup gives where calls come one after the other: the document that the source keeps under the name, just if
nothing is wrong at that time with it and with those that it leads to. That something was wrong with one of these in the
meantime is not noticed once that one has been replaced.
-/

namespace ScriptedText

open Relation

namespace World

variable {w w' w₁ w₂ : World} {s : SourceId} {name other : String} {d x : DocumentId} {id : TaskId}

theorem cached?_dropInFlow (w : World) (s : SourceId) (d : DocumentId) (name : String) :
    (w.dropInFlow s d).cached? s name = none ∨ (w.dropInFlow s d).cached? s name = w.cached? s name :=
  (tidies_dropInFlow s w d).cache name

theorem cached?_evict (w : World) (s : SourceId) (d : DocumentId) (name : String) :
    (w.evict s d).cached? s name = none ∨
      ((w.evict s d).cached? s name = w.cached? s name ∧ w.cached? s name ≠ some d) := by
  by_cases hs : s.index < w.sources.length
  · have hforget : (w.modifySource s fun source => source.forget d).cached? s name =
        if w.cached? s name = some d then none else w.cached? s name := by
      unfold cached?
      rw [source_modifySource _ hs]
      exact OrderedMap.get?_eraseValue _ d name
    rcases cached?_dropInFlow (w.modifySource s fun source => source.forget d) s d name with hnone | hsame
    · exact .inl hnone
    · rw [hforget] at hsame
      split at hsame
      · exact .inl hsame
      · next hne => exact .inr ⟨hsame, hne⟩
  · refine .inl ?_
    unfold cached? source
    rw [List.getElem?_eq_none]
    · rfl
    · simpa [evict, emit, dropInFlow, modifySource] using hs

theorem cached?_evict_of_cached (hd : w.cached? s name = some d) : (w.evict s d).cached? s name = none := by
  rcases w.cached?_evict s d name with hnone | ⟨-, hne⟩
  · exact hnone
  · exact absurd hd hne

theorem cached?_evict_of_none (d : DocumentId) (hname : w.cached? s name = none) : (w.evict s d).cached? s name = none := by
  rcases w.cached?_evict s d name with hnone | ⟨hsame, -⟩
  · exact hnone
  · exact hsame.trans hname

theorem byFile_evict {file : Files.Path} (h : (w.source s).byFile.get? file = some d) :
    ((w.evict s d).source s).byFile.get? file = none := by
  have hs := lt_of_byFile h
  have hs' : s.index < (w.modifySource s fun source => source.forget d).sources.length := by
    simpa [modifySource] using hs
  have hbyFile : ((w.evict s d).source s).byFile = ((w.source s).byFile.eraseValue d).1 := by
    change (((w.modifySource s fun source => source.forget d).dropInFlow s d).source s).byFile = _
    rw [dropInFlow, source_modifySource _ hs', source_modifySource _ hs]
    rfl
  rw [hbyFile, OrderedMap.get?_eraseValue, if_pos h]

/-- An invalid document that is kept under the name is renewed. -/
theorem renew_eq (h : w.cached? s name = some d) : (w.renew s name d).2 = ⟨w.documents.length⟩ := by
  have hdrop := cached?_dropInFlow (w.emit (.evicted name .invalid)) s d name
  have hkept : ((w.emit (.evicted name .invalid)).cached? s name) = some d := h
  unfold renew
  dsimp only
  split
  · rfl
  · next hne =>
      rcases hdrop with hnone | hsame
      · have hnone' : (((w.emit (.evicted name .invalid)).dropInFlow s d).createDocument s name
            (((w.emit (.evicted name .invalid)).dropInFlow s d).document d).text
            (((w.emit (.evicted name .invalid)).dropInFlow s d).document d).tag none).1.cached? s name = none := hnone
        rw [hnone']
        rfl
      · exact absurd (hsame.trans hkept) hne

end World

namespace Move

variable {w w₁ : World} {s : SourceId} {name : String} {d x : DocumentId} {id : TaskId}

theorem keptByName_of_none (h : w.cached? s name = none) :
    keptByName w s name d = reply (w.keepByName s name d).1 (.document d) := by
  have hnone : (w.source s).byName.get? name = none := h
  simp [keptByName, World.keepByName, OrderedMap.insertIfAbsent, hnone]

/-- What is read from a file is a document of its own, unless there is one for the file or the name. -/
theorem ends_afterReading {file : Files.Path} (hname : w.cached? s name = none)
    (hfile : (w.source s).byFile.get? file = none) (id : TaskId) : ∃ w' o, (afterReading w s name file).Ends id w' o ∧
      ∀ x, o = .ok (.document x) → w.documents.length ≤ x.index := by
  unfold afterReading
  split
  · exact ⟨_, _, ends_settle.2 ⟨rfl, rfl⟩, nofun⟩
  · next text mtime _ =>
      generalize ({ name, text, tag := _, timestamp := mtime, file := _, source := s, lastCheck := _ } : Document) = x
      let w₁ := (w.addDocument x).1
      let d : DocumentId := ⟨w.documents.length⟩
      have hwinner : (w₁.keepByFile s file d).2 = d := by
        have hnone : (w₁.source s).byFile.get? file = none := hfile
        simp [World.keepByFile, OrderedMap.insertIfAbsent, hnone]
      have hname₁ : (w₁.keepByFile s file d).1.cached? s name = none := (w₁.cached?_keepByFile s file d name).trans hname
      change ∃ w' o, (keptByName (w₁.keepByFile s file d).1 s name (w₁.keepByFile s file d).2).Ends id w' o ∧ _
      rw [hwinner, keptByName_of_none hname₁]
      refine ⟨_, _, ends_settle.2 ⟨rfl, rfl⟩, fun x hx => ?_⟩
      cases hx
      exact Nat.le_refl _

/-- Looks the document up by its file. What is found there is valid. -/
theorem ends_afterResolving (hname : w.cached? s name = none) (id : TaskId) :
    ∃ w' o, (afterResolving w s name).Ends id w' o ∧
      ∀ x, o = .ok (.document x) → w.documents.length ≤ x.index ∨ ¬ w.Stale x := by
  unfold afterResolving
  split
  · exact ⟨_, _, ends_settle.2 ⟨rfl, rfl⟩, nofun⟩
  · split
    · exact ⟨_, _, ends_settle.2 ⟨rfl, rfl⟩, nofun⟩
    · next file _ =>
        split
        · next d hfile =>
            obtain ⟨w₁, b, visited, hends, hchecked, hb, hinvalid⟩ := World.ends_isValid w id d
            have hname₁ : w₁.cached? s name = none := (hchecked.cached?_eq s name).trans hname
            have hgoes (w' : World) (o : Outcome) (h : (resume w₁ id (.filed s name file d)
                (.ok (.validity b visited))).Ends id w' o) : (call w (.isValid d []) [.filed s name file d]).Ends id w' o :=
              (ends_under (m := call w (.isValid d []) [])).2 ⟨w₁, _, hends, h⟩
            cases b with
            | true =>
                have hkept : resume w₁ id (.filed s name file d) (.ok (.validity true visited)) =
                    reply (w₁.keepByName s name d).1 (.document d) := keptByName_of_none hname₁
                refine ⟨(w₁.keepByName s name d).1, .ok (.document d), hgoes _ _ ?_, fun x hx => ?_⟩
                · rw [hkept]
                  exact ends_settle.2 ⟨rfl, rfl⟩
                · cases hx
                  exact .inr (hb.1 rfl)
            | false =>
                have hname₂ := World.cached?_evict_of_none d hname₁
                have hfile₂ : ((w₁.evict s d).source s).byFile.get? file = none :=
                  World.byFile_evict ((congrArg (·.byFile.get? file) (hchecked.source_eq s)).trans hfile)
                obtain ⟨w', o, hrest, hfresh⟩ := ends_afterReading hname₂ hfile₂ id
                refine ⟨w', o, hgoes _ _ (Task.ends_frame.2 hrest), fun x hx => .inl ?_⟩
                have hlength : (w₁.evict s d).documents.length = w.documents.length := hchecked.length
                exact hlength ▸ hfresh x hx
        · next hfile =>
            obtain ⟨w', o, hrest, hfresh⟩ := ends_afterReading hname hfile id
            exact ⟨w', o, Task.ends_frame.2 hrest, fun x hx => .inl (hfresh x hx)⟩

/-- What is found invalid under its name is not what the lookup gives. -/
theorem ends_afterNamed_false (hname : w.cached? s name = some d) (id : TaskId) :
    ∃ w' o, (afterNamed w s name d false).Ends id w' o ∧
      ∀ x, o = .ok (.document x) → (w.document x).validity ≠ .invalid := by
  have hfresh (x : DocumentId) (hx : w.documents.length ≤ x.index) : (w.document x).validity ≠ .invalid :=
    fun h => Nat.not_lt_of_le hx (World.lt_of_invalid h)
  unfold afterNamed
  simp only [Bool.false_eq_true, if_false]
  split
  · next hstorage =>
      refine ⟨_, _, ends_settle.2 ⟨rfl, rfl⟩, fun x hx => hfresh x ?_⟩
      cases hx
      simp [World.renew_eq hname]
  · next hstorage =>
      have hname₂ := World.cached?_evict_of_cached hname
      split
      · have hname₃ : ((w.evict s d).createDocument s name (w.document d).text (w.document d).tag none).1.cached? s name =
            none := hname₂
        rw [keptByName_of_none hname₃]
        refine ⟨_, _, ends_settle.2 ⟨rfl, rfl⟩, fun x hx => hfresh x ?_⟩
        cases hx
        exact Nat.le_refl _
      · obtain ⟨w', o, hrest, hfound⟩ := ends_afterResolving hname₂ id
        refine ⟨w', o, Task.ends_frame.2 hrest, fun x hx hinvalid => ?_⟩
        rcases hfound x hx with hlength | hvalid
        · exact hfresh x hlength hinvalid
        · exact hvalid ⟨x, .refl, .inl hinvalid⟩

end Move

/-- A task that runs alone leaves documents invalid, except for one that it is checking. -/
theorem Task.Ends.invalid {w w' : World} {id : TaskId} {t : Task} {o : Outcome} {d : DocumentId} (h : Ends id w t w' o)
    (hd : (w.document d).validity = .invalid) (hnone : d ∉ t.checks) : (w'.document d).validity = .invalid := by
  induction h with
  | settled => exact hd
  | step ha _ ih =>
      refine ih (Classical.byContradiction fun hrevived => ?_) (not_mem_checks_of_advance hd hnone ha)
      exact hnone (mem_checks_of_passes ((revives_iff_passes hd ha).1 hrevived))

namespace World

variable {w w' w₁ : World} {s : SourceId} {name : String} {d x : DocumentId} {id : TaskId}

/-- Calls that come one after the other, and what the host does between them. -/
inductive Sequel (w : World) : World → Prop
  | refl : Sequel w w
  | call {w₁ w₂ : World} {id : TaskId} {c : Call} {o : Outcome} (h : Sequel w w₁)
      (hends : Task.Ends id w₁ ⟨[], .call c⟩ w₂ o) : Sequel w w₂
  | serve {w₁ : World} (h : Sequel w w₁) (errand : Errand) : Sequel w (w₁.serve errand)
  | release {w₁ : World} (h : Sequel w w₁) (e : ExecutableId) : Sequel w (w₁.release e)
  | tick {w₁ : World} (h : Sequel w w₁) (now : Int) (hnow : w₁.clock ≤ now) : Sequel w { w₁ with clock := now }

theorem Sequel.invalid (h : w.Sequel w') (hd : (w.document d).validity = .invalid) :
    (w'.document d).validity = .invalid := by
  induction h with
  | refl => exact hd
  | call _ hends ih => exact hends.invalid ih List.not_mem_nil
  | serve _ errand ih => exact (ages_serve _ errand).invalid ih
  | release _ e ih => exact (ages_release _ e).invalid ih
  | tick _ now hnow ih => exact ih

theorem ends_getDocument_of_none (hname : w.cached? s name = none) (id : TaskId) :
    ∃ w' o, Task.Ends id w ⟨[], .call (.getDocument s name)⟩ w' o ∧
      ∀ x, o = .ok (.document x) → w.documents.length ≤ x.index ∨ ¬ w.Stale x := by
  cases hstorage : (w.source s).storage with
  | memory identifier =>
      refine ⟨w, .error (Problem.documentMissing name).failure, Task.ends_call.2 ?_, nofun⟩
      rw [Move.begin, Move.getDocument, hname, hstorage]
      exact Move.ends_settle.2 ⟨rfl, rfl⟩
  | files naming interval =>
      obtain ⟨w', o, hends, hfound⟩ := Move.ends_afterResolving hname id
      refine ⟨w', o, Task.ends_call.2 ?_, hfound⟩
      rw [Move.begin, Move.getDocument, hname, hstorage]
      exact Task.ends_frame.2 hends

/-- What is kept under the name is checked first. -/
theorem ends_getDocument_of_cached {b : Bool} {visited : List DocumentId} {o : Outcome} (hname : w.cached? s name = some d)
    (hends : Task.Ends id w ⟨[], .call (.isValid d [])⟩ w₁ (.ok (.validity b visited)))
    (hrest : (Move.afterNamed w₁ s name d b).Ends id w' o) : Task.Ends id w ⟨[], .call (.getDocument s name)⟩ w' o := by
  rw [Task.ends_call, Move.begin, Move.getDocument, hname]
  exact (Move.ends_call_of_ends hends).2 hrest

/-- What a lookup of a document gives that nothing else interferes with. -/
theorem ends_getDocument (w : World) (s : SourceId) (name : String) (id : TaskId) :
    ∃ w' o, Task.Ends id w ⟨[], .call (.getDocument s name)⟩ w' o ∧
      (∀ x, (w.document x).validity = .invalid → o ≠ .ok (.document x)) ∧
      ∀ d, w.cached? s name = some d → (o = .ok (.document d) ↔ ¬ w.Stale d) ∧
        (w.Stale d → (w'.document d).validity = .invalid) := by
  have hstale {x : DocumentId} (hx : (w.document x).validity = .invalid) : w.Stale x := ⟨x, .refl, .inl hx⟩
  cases hname : w.cached? s name with
  | none =>
      obtain ⟨w', o, hends, hfound⟩ := ends_getDocument_of_none hname id
      refine ⟨w', o, hends, fun x hx ho => ?_, nofun⟩
      rcases hfound x ho with hlength | hvalid
      · exact Nat.not_lt_of_le hlength (lt_of_invalid hx)
      · exact hvalid (hstale hx)
  | some d =>
      obtain ⟨w₁, b, visited, hends, hchecked, hb, hinvalid⟩ := ends_isValid w id d
      cases b with
      | true =>
          have hvalid := hb.1 rfl
          have hgiven := ends_getDocument_of_cached hname hends (Move.ends_settle.2 ⟨rfl, rfl⟩)
          refine ⟨w₁, .ok (.document d), hgiven, fun x hx ho => ?_, fun d' hd' => ?_⟩
          · cases ho
            exact hvalid (hstale hx)
          · cases hd'
            exact ⟨iff_of_true rfl hvalid, fun h => absurd h hvalid⟩
      | false =>
          have hd := hinvalid rfl
          have hbad : w.Stale d := Classical.not_not.1 fun h => nomatch hb.2 h
          obtain ⟨w', o, hrest, hfound⟩ := Move.ends_afterNamed_false ((hchecked.cached?_eq s name).trans hname) id
          refine ⟨w', o, ends_getDocument_of_cached hname hends hrest, fun x hx ho => ?_, fun d' hd' => ?_⟩
          · exact hfound x ho (hends.invalid hx List.not_mem_nil)
          · cases hd'
            have hages := Move.ages_afterNamed w₁ s name d false
            refine ⟨iff_of_false (fun ho => hfound d ho hd) (not_not_intro hbad), fun _ => ?_⟩
            refine Task.Ends.invalid hrest (hages.world.invalid hd) ?_
            unfold Task.checks
            rw [hages.push]
            exact List.not_mem_nil

theorem invalid_invalidateAll {ds : List DocumentId} (hd : d ∈ ds) (hdep : name ∈ (w.document d).dependencies) :
    ((ds.foldl (fun w d => if (w.document d).dependencies.contains name then w.modifyDocument d Document.invalidate
      else w) w).document d).validity = .invalid := by
  induction ds generalizing w with
  | nil => cases hd
  | cons x ds ih =>
      rw [List.foldl_cons]
      by_cases hx : x = d
      · subst hx
        rw [if_pos (List.contains_iff_mem.2 hdep)]
        refine (ages_invalidateAll _ name ds).invalid ?_
        rw [document_modifyDocument w _ x (lt_of_dependency hdep), if_pos rfl]
        rfl
      · have hrest : d ∈ ds := (List.mem_cons.1 hd).resolve_left fun h => hx h.symm
        split
        · refine ih hrest ?_
          rcases document_modifyDocument_cases w Document.invalidate x d with heq | ⟨heq, -⟩
          · rwa [heq]
          · exact absurd heq hx
        · exact ih hrest hdep

theorem sources_invalidateDependents (w : World) (s : SourceId) (name : String) :
    (w.invalidateDependents s name).sources = w.sources := by
  unfold invalidateDependents
  generalize (w.source s).byName.values = ds
  induction ds generalizing w with
  | nil => rfl
  | cons d ds ih =>
      rw [List.foldl_cons, ih]
      split <;> rfl

/-- When a document is replaced, those that depend on it become invalid, as far as the source keeps them. -/
theorem invalid_setDocument {m text tag : String} {e : Option ExecutableId} {other : String}
    (hm : w.cached? s m ≠ none) (hdep : m ∈ (w.document x).dependencies)
    (hx : (w.setDocument s m text tag e).1.cached? s other = some x) :
    ((w.setDocument s m text tag e).1.document x).validity = .invalid := by
  rcases ages_setDocument_cases w s m text tag e with ⟨hnone, -⟩ | ⟨w₁, hages, heq⟩
  · exact absurd hnone hm
  · have hages := (ages_createDocument w s m text tag e).trans hages
    rw [heq] at hx ⊢
    unfold cached? source at hx
    rw [sources_invalidateDependents] at hx
    refine invalid_invalidateAll ?_ ((hages.document x (lt_of_dependency hdep)).dependencies.subset hdep)
    exact List.mem_map.2 ⟨_, OrderedMap.mem_entries_of_get? hx, rfl⟩

/-- A lookup gives the document that the source keeps under the name, just if at that time nothing is wrong with it and
with those that it leads to; and what was once found stale is not given any more, whatever is called then. Where a
document is replaced, those that lead to one that depends on it are stale, until that one is replaced in turn. -/
theorem given_iff_not_stale (hd : w.cached? s name = some d) :
    (∀ id, ∃ w' o, Task.Ends id w ⟨[], .call (.getDocument s name)⟩ w' o ∧ (o = .ok (.document d) ↔ ¬ w.Stale d) ∧
      (w.Stale d → ∀ w₁ w₂ id₁ s₁ name₁ o₁, w'.Sequel w₁ →
        Task.Ends id₁ w₁ ⟨[], .call (.getDocument s₁ name₁)⟩ w₂ o₁ → o₁ ≠ .ok (.document d))) ∧
    ∀ m text tag e x other, w.cached? s m ≠ none → m ∈ (w.document x).dependencies →
      (w.setDocument s m text tag e).1.cached? s other = some x →
      ReflTransGen (w.setDocument s m text tag e).1.Leads d x → (w.setDocument s m text tag e).1.Stale d := by
  constructor
  · intro id
    obtain ⟨w', o, hends, -, hgiven⟩ := ends_getDocument w s name id
    obtain ⟨hiff, hinvalid⟩ := hgiven d hd
    refine ⟨w', o, hends, hiff, fun hstale w₁ w₂ id₁ s₁ name₁ o₁ hsequel hends₁ => ?_⟩
    obtain ⟨w₃, o₃, hends₃, hnever, -⟩ := ends_getDocument w₁ s₁ name₁ id₁
    obtain ⟨-, rfl⟩ := hends₁.unique hends₃
    exact hnever d (hsequel.invalid (hinvalid hstale))
  · intro m text tag e x other hm hdep hx hreach
    exact ⟨x, hreach, .inl (invalid_setDocument hm hdep hx)⟩

end World

/-- `n` depends on `k`, and `k` on `m`. -/
def chainWorld : World :=
  let w : World := { tree := { origin := "" }, sources := [{ storage := .memory "" }] }
  let w := ((w.setDocument ⟨0⟩ "m" "" "" none).1.setDocument ⟨0⟩ "k" "" "" none).1.setDocument ⟨0⟩ "n" "" "" none
  (w.1.modifyDocument ⟨1⟩ (·.addDependency "m")).modifyDocument ⟨2⟩ (·.addDependency "k")

namespace World

/-- `m` is replaced. -/
def brokenChain : World := (chainWorld.setDocument ⟨0⟩ "m" "new" "" none).1

/-- Then `k` is looked up, which renews it. -/
def mendedChain : World := (brokenChain.renew ⟨0⟩ "k" ⟨1⟩).1

/-- Whether a call has come to the document. -/
def gives (d : DocumentId) : Outcome → Bool
  | .ok (.document x) => x = d
  | _ => false

theorem eq_of_gives {d : DocumentId} {o : Outcome} (h : gives d o = true) : o = .ok (.document d) := by
  unfold gives at h
  split at h
  · rw [of_decide_eq_true h]
  · cases h

theorem dropInFlow_of_nil {w : World} {d : DocumentId} (s : SourceId) (h : (w.document d).inFlowDependencies = []) :
    w.dropInFlow s d = w := by
  unfold dropInFlow modifySource
  rw [h]
  simp only [dropReachable]
  exact congrArg (fun sources => { w with sources }) (List.modify_id _ _)

theorem brokenChain_eq : brokenChain =
    let w := (chainWorld.createDocument ⟨0⟩ "m" "new" "" none).1
    let w := w.modifySource ⟨0⟩ fun source => { source with byName := source.byName.insert "m" ⟨3⟩ }
    let w := w.modifyDocument ⟨0⟩ Document.invalidate
    let w := w.modifySource ⟨0⟩ fun source => { source with byFile := (source.byFile.eraseValue ⟨0⟩).1 }
    (w.emit (.evicted "m" .replaced)).invalidateDependents ⟨0⟩ "m" := by
  change (World.emit (dropInFlow _ ⟨0⟩ ⟨0⟩) (.evicted "m" .replaced)).invalidateDependents ⟨0⟩ "m" = _
  rw [dropInFlow_of_nil]
  · rfl
  · decide +kernel

theorem mendedChain_eq : mendedChain =
    ((brokenChain.emit (.evicted "k" .invalid)).createDocument ⟨0⟩ "k" "" "" none).1.modifySource ⟨0⟩ fun source =>
      { source with byName := source.byName.insert "k" ⟨4⟩ } := by
  unfold mendedChain renew
  rw [dropInFlow_of_nil]
  · rw [brokenChain_eq]
    rfl
  · rw [brokenChain_eq]
    decide +kernel

/-- What is invalid in memory is registered anew. -/
theorem ends_renew {identifier : String} (hd : w.cached? s name = some d) (hinvalid : (w.document d).validity = .invalid)
    (hstorage : (w.source s).storage = .memory identifier) (id : TaskId) :
    Task.Ends id w ⟨[], .call (.getDocument s name)⟩ (w.renew s name d).1 (.ok (.document ⟨w.documents.length⟩)) := by
  have hchecked : Task.Ends id w ⟨[], .call (.isValid d [])⟩ w (.ok (.validity false [])) := by
    rw [Task.ends_call, Move.begin, Move.isValid, if_pos hinvalid]
    exact Move.ends_settle.2 ⟨rfl, rfl⟩
  apply ends_getDocument_of_cached hd hchecked
  rw [Move.afterNamed, if_neg Bool.false_ne_true, hstorage, ← renew_eq hd]
  exact Move.ends_settle.2 ⟨rfl, rfl⟩

/-- A lookup of `n` does not give the old document right after `m` was replaced, but it does when `k` was looked up in
the meantime. -/
theorem given_of_mendedChain :
    (∃ w' o, Task.Ends ⟨0⟩ brokenChain ⟨[], .call (.getDocument ⟨0⟩ "n")⟩ w' o ∧ o ≠ .ok (.document ⟨2⟩)) ∧
      Task.Ends ⟨0⟩ brokenChain ⟨[], .call (.getDocument ⟨0⟩ "k")⟩ mendedChain (.ok (.document ⟨4⟩)) ∧
      ¬ mendedChain.Stale ⟨2⟩ ∧
      ∃ w', Task.Ends ⟨0⟩ mendedChain ⟨[], .call (.getDocument ⟨0⟩ "n")⟩ w' (.ok (.document ⟨2⟩)) := by
  obtain ⟨hm, hdep, hn⟩ : chainWorld.cached? ⟨0⟩ "m" ≠ none ∧ "m" ∈ (chainWorld.document ⟨1⟩).dependencies ∧
      chainWorld.cached? ⟨0⟩ "n" = some ⟨2⟩ := by decide +kernel
  obtain ⟨hk, hn₁, hleads, hinvalid, hlength⟩ :
      brokenChain.cached? ⟨0⟩ "k" = some ⟨1⟩ ∧ brokenChain.cached? ⟨0⟩ "n" = some ⟨2⟩ ∧
      ("k" ∈ (brokenChain.document ⟨2⟩).dependencies ∧
        brokenChain.cached? (brokenChain.document ⟨2⟩).source "k" = some ⟨1⟩) ∧
      (brokenChain.document ⟨1⟩).validity = .invalid ∧ brokenChain.documents.length = 4 := by
    rw [brokenChain_eq]
    decide +kernel
  obtain ⟨hn₂, hdriven⟩ : mendedChain.cached? ⟨0⟩ "n" = some ⟨2⟩ ∧
      (Task.drive ⟨0⟩ 20 mendedChain ⟨[], .call (.getDocument ⟨0⟩ "n")⟩).any (gives ⟨2⟩ ·.2) = true := by
    rw [mendedChain_eq, brokenChain_eq]
    decide +kernel
  have hstale : brokenChain.Stale ⟨2⟩ :=
    (given_iff_not_stale hn).2 "m" "new" "" none ⟨1⟩ "k" hm hdep hk (.single ⟨"k", hleads⟩)
  have hgiven : ∃ w', Task.Ends ⟨0⟩ mendedChain ⟨[], .call (.getDocument ⟨0⟩ "n")⟩ w' (.ok (.document ⟨2⟩)) := by
    obtain ⟨⟨w', o⟩, hends, ho⟩ := (Option.any_eq_true ..).1 hdriven
    exact ⟨w', eq_of_gives ho ▸ Task.ends_of_drive hends⟩
  refine ⟨?_, ?_, ?_, hgiven⟩
  · obtain ⟨w', o, hends, hiff, -⟩ := (given_iff_not_stale hn₁).1 ⟨0⟩
    exact ⟨w', o, hends, fun ho => hiff.1 ho hstale⟩
  · have hstorage : (brokenChain.source ⟨0⟩).storage = .memory "" := by
      rw [brokenChain_eq]
      rfl
    have hrenewed := ends_renew hk hinvalid hstorage ⟨0⟩
    rwa [hlength] at hrenewed
  · obtain ⟨w', hends⟩ := hgiven
    obtain ⟨w₁, o, hends₁, hiff, -⟩ := (given_iff_not_stale hn₂).1 ⟨0⟩
    obtain ⟨-, rfl⟩ := hends.unique hends₁
    exact hiff.1 rfl

end World
end ScriptedText
