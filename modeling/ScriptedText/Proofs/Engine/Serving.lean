import ScriptedText.Proofs.Engine.Eviction

/-!
A source of files whose documents depend on nothing. What a lookup of one name gives there is told by what the source keeps
under the name and by the files, and it takes nothing from what lookups of other names give.
-/

namespace ScriptedText

open Relation

namespace World

variable {w w' w₁ w₂ : World} {s : SourceId} {naming : Files.Naming} {name other text : String} {d x : DocumentId}
  {id : TaskId} {o : Outcome} {file p : Files.Path} {mtime : Int}

/-- The document was checked, and nothing else has changed. What was wrong with it still is, and else nothing is. -/
structure Checked (d : DocumentId) (w w' : World) (b : Bool) : Prop where
  rechecks : Rechecks (· = d) w w'
  sound : b = true ↔ ¬ w.Fails d
  fails : w'.Fails d ↔ w.Fails d
  invalid : b = false → (w'.document d).validity = .invalid

theorem Checked.fails_iff {b : Bool} (h : Checked d w w' b) (x : DocumentId) : w'.Fails x ↔ w.Fails x := by
  by_cases hx : x = d
  · exact hx ▸ h.fails
  · exact h.rechecks.fails_iff hx

theorem nextDependency?_of_nil (h : (w.document d).dependencies = []) (i : Nat) : w.nextDependency? d i = none := by
  simp [nextDependency?, h]

/-- The file of the document is due to be looked at. -/
theorem ends_look (hvalid : (w.document d).validity ≠ .invalid) (hsome : (w.document d).file.isSome = true)
    (hinterval : (w.source (w.document d).source).interval ≠ -1)
    (hlate : (w.source (w.document d).source).interval < w.clock - (w.document d).lastCheck) (visited : List DocumentId)
    (id : TaskId) : ∃ w' b, (Move.pass (w.modifyDocument d fun x => { x with lastCheck := w.clock })
      [.fileTime d visited]).Ends id w' (.ok (.validity b visited)) ∧ Checked d w w' b := by
  have hlook : Rechecks (· = d) w (w.modifyDocument d fun x => { x with lastCheck := w.clock }) :=
    .modifyDocument w d fun x => rfl
  have hvalid₂ : ((w.modifyDocument d fun x => { x with lastCheck := w.clock }).document d).validity ≠ .invalid := by
    rcases document_modifyDocument_cases w (fun x => { x with lastCheck := w.clock }) d d with heq | ⟨-, heq⟩
    · rwa [heq]
    · rwa [heq]
  generalize w.modifyDocument d (fun x => { x with lastCheck := w.clock }) = w₂ at hlook hvalid₂
  have hends (b : Bool) (hb : w₂.isUnchanged d = b) : (Move.pass w₂ [.fileTime d visited]).Ends id
      (w₂.modifyDocument d fun x => { x with validity := if b then .valid else .invalid }) (.ok (.validity b visited)) := by
    subst hb
    exact Task.ends_frame.2 (Move.ends_settle.2 ⟨rfl, rfl⟩)
  have hsame := hlook.isUnchanged_eq d
  cases hunchanged : w₂.isUnchanged d with
  | true =>
      have hlast : Rechecks (· = d) w₂ (w₂.validate d) := .modifyDocument w₂ d fun x => rfl
      have hbefore : ¬ w.Fails d := not_fails hvalid (.inr (.inr (.inr (hsame ▸ hunchanged))))
      have hafter : ¬ (w₂.validate d).Fails d := by
        refine not_fails (validity_validate hvalid₂) (.inr (.inr (.inr ?_)))
        rw [hlast.isUnchanged_eq, hunchanged]
      exact ⟨_, true, hends true hunchanged, hlook.trans hlast, iff_of_true rfl hbefore, iff_of_false hafter hbefore, nofun⟩
  | false =>
      have hlast : Rechecks (· = d) w₂ (w₂.modifyDocument d Document.invalidate) := .modifyDocument w₂ d fun x => rfl
      have hlt : d.index < w₂.documents.length := hlook.length ▸ lt_of_file hsome
      have hbefore : w.Fails d := .inr ⟨hsome, hinterval, hlate, hsame ▸ hunchanged⟩
      have hinvalid : ((w₂.modifyDocument d Document.invalidate).document d).validity = .invalid :=
        congrArg Document.validity ((document_modifyDocument w₂ Document.invalidate d hlt).trans (if_pos rfl))
      exact ⟨_, false, hends false hunchanged, hlook.trans hlast, iff_of_false nofun (not_not_intro hbefore),
        iff_of_true (.inl hinvalid) hbefore, fun _ => hinvalid⟩

/-- The check of a document that depends on nothing is about that document. -/
theorem ends_isValid_of_nil (h : (w.document d).dependencies = []) (id : TaskId) :
    ∃ w' b visited, Task.Ends id w ⟨[], .call (.isValid d [])⟩ w' (.ok (.validity b visited)) ∧ Checked d w w' b := by
  by_cases hinvalid : (w.document d).validity = .invalid
  · refine ⟨w, false, [], Task.ends_call.2 ?_, .refl _ w, iff_of_false Bool.false_ne_true ?_, .rfl, fun _ => hinvalid⟩
    · rw [Move.begin, Move.isValid, if_pos hinvalid]
      exact Move.ends_settle.2 ⟨rfl, rfl⟩
    · exact not_not_intro (.inl hinvalid)
  have hfile {w' : World} {o : Outcome} (hends : (Move.checkFile w d [d]).Ends id w' o) :
      Task.Ends id w ⟨[], .call (.isValid d [])⟩ w' o := by
    refine Task.ends_call.2 ?_
    rw [Move.begin, Move.isValid, if_neg hinvalid, if_neg (by simp), List.nil_append, Move.checkFrom,
      nextDependency?_of_nil h]
    exact hends
  unfold Move.checkFile at hfile
  dsimp only at hfile
  split at hfile
  · next hnever =>
      rw [Bool.or_eq_true, decide_eq_true_iff] at hnever
      have hlast : Rechecks (· = d) w (w.validate d) := .modifyDocument w d fun x => rfl
      have hbefore : ¬ w.Fails d := not_fails hinvalid (hnever.imp_right .inl)
      have hafter : ¬ (w.validate d).Fails d := by
        refine not_fails (validity_validate hinvalid) ?_
        rw [hlast.file_eq, hlast.home_eq, hlast.source_eq]
        exact hnever.imp_right .inl
      exact ⟨_, true, _, hfile (Move.ends_settle.2 ⟨rfl, rfl⟩), hlast, iff_of_true rfl hbefore, iff_of_false hafter hbefore,
        by simp⟩
  · next hnever =>
      rw [Bool.or_eq_true, decide_eq_true_iff, not_or, Bool.not_eq_true, Option.isNone_eq_false_iff] at hnever
      split at hfile
      · next hearly =>
          have hbefore : ¬ w.Fails d := not_fails hinvalid (.inr (.inr (.inl hearly)))
          exact ⟨w, true, _, hfile (Move.ends_settle.2 ⟨rfl, rfl⟩), .refl _ w, iff_of_true rfl hbefore, .rfl, by simp⟩
      · next hlate =>
          obtain ⟨w', b, hends, hchecked⟩ := ends_look hinvalid hnever.1 hnever.2 (Int.not_le.1 hlate) [d] id
          exact ⟨w', b, _, hfile hends, hchecked⟩

/-- A source of files that keeps documents that depend on nothing, each under names that came to its file once. -/
structure Catalogued (s : SourceId) (naming : Files.Naming) (w : World) : Prop where
  storage : ∃ interval, (w.source s).storage = .files naming interval
  matched : w.Matched s
  alone : ∀ d, w.Stores s d → (w.document d).dependencies = []
  named : ∀ name d, w.cached? s name = some d →
    ∃ t file, (w.document d).file = some file ∧ naming.fileOf t name = .ok file

namespace Catalogued

theorem of_empty {interval : Int} (hstorage : (w.source s).storage = .files naming interval) (h : w.Empty s) :
    w.Catalogued s naming where
  storage := ⟨interval, hstorage⟩
  matched := .of_empty h
  alone d hd := by
    rcases hd with ⟨name, hd⟩ | ⟨file, hd⟩
    · cases (h.1 name).symm.trans hd
    · cases (h.2 file).symm.trans hd
  named name d hd := nomatch (h.1 name).symm.trans hd

theorem fileOf_of_isFiled (h : w.Catalogued s naming) (hfiled : w.IsFiled s name file) :
    naming.fileOf w.tree name = .ok file := by
  obtain ⟨interval, hstorage⟩ := h.storage
  obtain ⟨naming', interval', hstorage', hfile⟩ := hfiled
  cases hstorage.symm.trans hstorage'
  exact hfile

/-- Documents are as they were, apart from what a check writes. -/
theorem of_documents (h : w.Catalogued s naming) (hmatched : w'.Matched s)
    (hstorage : (w'.source s).storage = (w.source s).storage) (hstores : ∀ d, w'.Stores s d → w.Stores s d)
    (hdependencies : ∀ d, (w'.document d).dependencies = (w.document d).dependencies)
    (hnamed : ∀ name d, w'.cached? s name = some d →
      ∃ t file, (w'.document d).file = some file ∧ naming.fileOf t name = .ok file) : w'.Catalogued s naming := by
  obtain ⟨interval, hfiles⟩ := h.storage
  exact ⟨⟨interval, hstorage.trans hfiles⟩, hmatched, fun d hd => (hdependencies d).trans (h.alone d (hstores d hd)), hnamed⟩

/-- The document of a file is kept under one more name. -/
theorem keepByName (h : w.Catalogued s naming) (hname : w.cached? s name = none) (hfiled : w.IsFiled s name file)
    (hd : (w.source s).byFile.get? file = some d) (hmatched : (w.keepByName s name d).1.Matched s) :
    (w.keepByName s name d).1.Catalogued s naming := by
  refine h.of_documents hmatched ((ages_keepByName w s name d).storage s) (fun x hx => ?_) (fun _ => rfl) fun other x hx => ?_
  · rcases Move.stores_keepByName hx with hold | ⟨-, rfl⟩
    · exact hold
    · exact .inr ⟨file, hd⟩
  · rw [cached?_keepByName w s name d hfiled.lt, keepByName_snd, hname] at hx
    split at hx
    · next heq =>
        cases hx
        subst heq
        exact ⟨w.tree, file, h.matched.file file d hd, h.fileOf_of_isFiled hfiled⟩
    · exact h.named other x hx

/-- A file was read, and its document is kept under the name that came to the file. -/
theorem keepFile (h : w.Catalogued s naming) (hname : w.cached? s name = none) (hfiled : w.IsFiled s name file)
    (hmatched : (w.keepFile s name text file mtime).Matched s) :
    (w.keepFile s name text file mtime).Catalogued s naming := by
  obtain ⟨interval, hstorage⟩ := h.storage
  have hnew := document_keepFile w s name text file mtime
  have hold {x : DocumentId} (hx : x.index < w.documents.length) :
      (w.keepFile s name text file mtime).document x = w.document x :=
    document_of_grown (List.prefix_append _ _) hx
  refine ⟨⟨interval, ((ages_keepFile w s name text file mtime).storage s).trans hstorage⟩, hmatched, fun x hx => ?_,
    fun other x hx => ?_⟩
  · rcases Nat.lt_trichotomy x.index w.documents.length with hlt | heq | hlt
    · rw [hold hlt]
      rcases (Stows.keepFile (s := s) w s name text file mtime).stores x hx with hkept | ⟨hlow, -⟩
      · exact h.alone x hkept
      · exact absurd hlow (Nat.not_le_of_lt hlt)
    · have hx : x = ⟨w.documents.length⟩ := by rw [← heq]
      rw [hx, hnew]
      rfl
    · have hlength : (w.keepFile s name text file mtime).documents.length = w.documents.length + 1 := List.length_append
      rw [document_of_le (hlength ▸ hlt)]
      rfl
  · rw [cached?_keepFile hfiled.lt hname] at hx
    split at hx
    · next heq =>
        cases hx
        subst heq
        rw [hnew]
        exact ⟨w.tree, file, rfl, h.fileOf_of_isFiled hfiled⟩
    · rw [hold (h.matched.lt other x hx)]
      exact h.named other x hx

theorem chore (h : w.Catalogued s naming) (hchore : Chore s w w') : w'.Catalogued s naming := by
  have hmatched := h.matched.chore hchore
  cases hchore with
  | check hchecks =>
      have hsource := hchecks.rechecks.source_eq s
      refine h.of_documents hmatched (congrArg Source.storage hsource) (fun d hd => ?_) hchecks.rechecks.dependencies_eq
        fun name d hd => ?_
      · unfold Stores at hd ⊢
        rwa [hsource] at hd
      · rw [hchecks.rechecks.file_eq]
        exact h.named name d ((hchecks.rechecks.cached?_eq s name).symm.trans hd)
  | renew hmemory _ _ =>
      obtain ⟨identifier, hmemory⟩ := hmemory
      obtain ⟨interval, hstorage⟩ := h.storage
      cases hmemory.symm.trans hstorage
  | @evict d _ _ _ =>
      refine h.of_documents hmatched ((ages_evict w s d).storage s) (fun x hx => ?_) (fun _ => rfl) fun name x hx => ?_
      · rcases (Stows.evict (s := s) w s d).stores x hx with hold | ⟨hlow, hlt⟩
        · exact hold
        · exact absurd hlt (Nat.not_lt_of_le hlow)
      · rcases w.cached?_evict s d name with hnone | ⟨hsame, -⟩
        · cases hnone.symm.trans hx
        · exact h.named name x (hsame.symm.trans hx)
  | @reenter name d _ hd _ hfile =>
      obtain ⟨t, file, hsome, -⟩ := h.named name d hd
      cases hfile.symm.trans hsome
  | keep hname hfiled hd _ => exact h.keepByName hname hfiled hd hmatched
  | read hname hfiled _ _ => exact h.keepFile hname hfiled hmatched

theorem chores (h : w.Catalogued s naming) (hchores : ReflTransGen (Chore s) w w') : w'.Catalogued s naming := by
  induction hchores with
  | refl => exact h
  | tail _ hchore ih => exact ih.chore hchore

theorem lookup (h : w.Catalogued s naming) (hends : Task.Ends id w ⟨[], .call (.getDocument s name)⟩ w' o) :
    w'.Catalogued s naming := h.chores (lookup_of_ends hends).chores

end Catalogued

/-- What a lookup of one name leaves to those of others: documents are as good as they were, and a name is only dropped with
a document that fails. -/
structure SparesOthers (s : SourceId) (name : String) (w w' : World) : Prop where
  tree : w'.tree = w.tree
  documents : w.documents.length ≤ w'.documents.length
  file : ∀ d, d.index < w.documents.length → (w'.document d).file = (w.document d).file
  fails : ∀ d, d.index < w.documents.length → (w'.Fails d ↔ w.Fails d)
  cached : ∀ other, other ≠ name → w'.cached? s other = w.cached? s other ∨
    w'.cached? s other = none ∧ ∃ d, w.cached? s other = some d ∧ w.Fails d

namespace SparesOthers

theorem trans (h : SparesOthers s name w w₁) (h' : SparesOthers s name w₁ w₂) (hmatched : w.Matched s) :
    SparesOthers s name w w₂ where
  tree := h'.tree.trans h.tree
  documents := Nat.le_trans h.documents h'.documents
  file d hd := (h'.file d (Nat.lt_of_lt_of_le hd h.documents)).trans (h.file d hd)
  fails d hd := (h'.fails d (Nat.lt_of_lt_of_le hd h.documents)).trans (h.fails d hd)
  cached other hne := by
    rcases h.cached other hne with hsame | ⟨hnone, hdropped⟩
    · rw [← hsame]
      refine (h'.cached other hne).imp_right fun ⟨hnone, d, hd, hfails⟩ => ⟨hnone, d, hd, ?_⟩
      exact (h.fails d (hmatched.lt other d (hsame ▸ hd))).1 hfails
    · refine .inr ⟨?_, hdropped⟩
      rcases h'.cached other hne with hsame | ⟨hnone', -⟩
      · exact hsame.trans hnone
      · exact hnone'

theorem checked {b : Bool} (h : Checked d w w' b) : SparesOthers s name w w' where
  tree := by rw [h.rechecks.world]
  documents := Nat.le_of_eq h.rechecks.length.symm
  file x _ := h.rechecks.file_eq x
  fails x _ := h.fails_iff x
  cached other _ := .inl (h.rechecks.cached?_eq s other)

theorem evict (hd : (w.document d).dependencies = []) (hfails : w.Fails d) : SparesOthers s name w (w.evict s d) where
  tree := rfl
  documents := Nat.le_refl _
  file _ _ := rfl
  fails x _ := fails_iff_of_eq rfl rfl rfl (ages_evict w s d).storage
  cached other _ := by
    have hplain : (w.evict s d).cached? s other = (w.modifySource s fun source => source.forget d).cached? s other := by
      unfold World.evict
      dsimp only
      rw [dropInFlow_of_nil]
      · rfl
      · change (w.document d).inFlowDependencies = []
        rw [Document.inFlowDependencies, hd, List.filter_nil]
    rw [hplain]
    rcases source_modifySource_cases w s s fun source => source.forget d with hsame | ⟨-, hforget⟩
    · exact .inl (congrArg (·.byName.get? other) hsame)
    · unfold cached?
      rw [hforget]
      rcases (w.source s).byName.get?_eraseValue_cases d other with ⟨hnone, hd⟩ | hsame
      · exact .inr ⟨hnone, d, hd, hfails⟩
      · exact .inl hsame

theorem keepByName (hs : s.index < w.sources.length) : SparesOthers s name w (w.keepByName s name d).1 where
  tree := rfl
  documents := Nat.le_refl _
  file _ _ := rfl
  fails x _ := fails_iff_of_eq rfl rfl rfl (ages_keepByName w s name d).storage
  cached other hne := by
    rw [cached?_keepByName w s name d hs, if_neg hne]
    exact .inl rfl

theorem keepFile (hs : s.index < w.sources.length) (hname : w.cached? s name = none) :
    SparesOthers s name w (w.keepFile s name text file mtime) := by
  have hold {x : DocumentId} (hx : x.index < w.documents.length) :
      (w.keepFile s name text file mtime).document x = w.document x :=
    document_of_grown (List.prefix_append _ _) hx
  refine ⟨rfl, ?_, fun x hx => by rw [hold hx], fun x hx => ?_, fun other hne => ?_⟩
  · exact (List.prefix_append w.documents [w.fromFile s name text file mtime]).length_le
  · exact fails_iff_of_eq (hold hx) rfl rfl (ages_keepFile w s name text file mtime).storage
  · rw [cached?_keepFile hs hname, if_neg hne]
    exact .inl rfl

end SparesOthers

/-- The file that the source has for a name: that of the document which it keeps, while nothing is wrong with that, and else
the one that the name comes to. -/
inductive Provides (s : SourceId) (naming : Files.Naming) (w : World) (name : String) : Files.Path → Prop
  | kept {d : DocumentId} {p : Files.Path} (h : w.cached? s name = some d) (hsound : ¬ w.Fails d)
      (hfile : (w.document d).file = some p) : Provides s naming w name p
  | found {p real : Files.Path} {bytes : List UInt8} {mtime : Int} (h : ∀ d, w.cached? s name = some d → w.Fails d)
      (hfile : naming.fileOf w.tree name = .ok p) (hstatus : w.tree.status p = .file real bytes mtime) :
      Provides s naming w name p

theorem Provides.unique {p' : Files.Path} (h : w.Provides s naming name p) (h' : w.Provides s naming name p') : p = p' := by
  cases h with
  | kept hd hsound hfile =>
      cases h' with
      | kept hd' _ hfile' =>
          cases hd.symm.trans hd'
          exact Option.some.inj (hfile.symm.trans hfile')
      | found hfails _ _ => exact absurd (hfails _ hd) hsound
  | found hfails hfile _ =>
      cases h' with
      | kept hd' hsound' _ => exact absurd (hfails _ hd') hsound'
      | found _ hfile' _ => exact Except.ok.inj (hfile.symm.trans hfile')

/-- Lookups of other names have no say in it. -/
theorem Provides.of_sparesOthers (h : w.Provides s naming other p) (hspares : SparesOthers s name w w')
    (hmatched : w.Matched s) (hne : other ≠ name) : w'.Provides s naming other p := by
  cases h with
  | @kept d _ hd hsound hfile =>
      have hlt := hmatched.lt other d hd
      refine .kept (d := d) ?_ ((not_congr (hspares.fails d hlt)).2 hsound) ((hspares.file d hlt).trans hfile)
      rcases hspares.cached other hne with hsame | ⟨-, d', hd', hfails⟩
      · exact hsame.trans hd
      · cases hd.symm.trans hd'
        exact absurd hfails hsound
  | found hfails hfile hstatus =>
      refine .found (fun d hd => ?_) (hspares.tree ▸ hfile) (hspares.tree ▸ hstatus)
      rcases hspares.cached other hne with hsame | ⟨hnone, -⟩
      · have hd := hsame.symm.trans hd
        exact (hspares.fails d (hmatched.lt other d hd)).2 (hfails d hd)
      · cases hnone.symm.trans hd

/-- The lookup has come to a document of the file. -/
structure Brings (id : TaskId) (s : SourceId) (name : String) (p : Files.Path) (w : World) (m : Move) (w' : World)
    (d : DocumentId) : Prop where
  ends : m.Ends id w' (.ok (.document d))
  spares : SparesOthers s name w w'
  file : (w'.document d).file = some p

theorem brings_afterReading (hname : w.cached? s name = none) (hfiled : w.IsFiled s name p)
    (hfile : (w.source s).byFile.get? p = none) {real : Files.Path} {bytes : List UInt8}
    (hstatus : w.tree.status p = .file real bytes mtime) (id : TaskId) :
    ∃ w' d, Brings id s name p w (Move.afterReading w s name p) w' d := by
  have hread : Files.Naming.read w.tree p name = .ok (Text.decodeUtf8 bytes, mtime) := by rw [Files.Naming.read, hstatus]
  refine ⟨w.keepFile s name (Text.decodeUtf8 bytes) p mtime, ⟨w.documents.length⟩, ?_, .keepFile hfiled.lt hname, ?_⟩
  · unfold Move.afterReading
    rw [hread]
    change (Move.keptByName ((w.addDocument (w.fromFile s name (Text.decodeUtf8 bytes) p mtime)).1.keepByFile s p
      ⟨w.documents.length⟩).1 s name ((w.addDocument (w.fromFile s name (Text.decodeUtf8 bytes) p mtime)).1.keepByFile s p
        ⟨w.documents.length⟩).2).Ends id _ _
    rw [keepByFile_addDocument _ hfile, Move.keptByName_of_none]
    · exact Move.ends_settle.2 ⟨rfl, rfl⟩
    · exact (cached?_keepByFile _ s p _ name).trans hname
  · rw [document_keepFile]
    rfl

/-- What is found by its file is given if nothing is wrong with it, and else read again. -/
theorem brings_afterResolving (h : w.Catalogued s naming) (hname : w.cached? s name = none)
    (hfile : naming.fileOf w.tree name = .ok p) {real : Files.Path} {bytes : List UInt8}
    (hstatus : w.tree.status p = .file real bytes mtime) (id : TaskId) :
    ∃ w' d, Brings id s name p w (Move.afterResolving w s name) w' d := by
  obtain ⟨interval, hstorage⟩ := h.storage
  have hfiled : w.IsFiled s name p := ⟨naming, interval, hstorage, hfile⟩
  unfold Move.afterResolving
  rw [hstorage]
  dsimp only
  rw [hfile]
  dsimp only
  cases hd : (w.source s).byFile.get? p with
  | none =>
      obtain ⟨w', d, hbrings⟩ := brings_afterReading hname hfiled hd hstatus id
      exact ⟨w', d, Task.ends_frame.2 hbrings.ends, hbrings.spares, hbrings.file⟩
  | some d =>
      have halone := h.alone d (.inr ⟨p, hd⟩)
      obtain ⟨w₁, b, visited, hends, hchecked⟩ := ends_isValid_of_nil halone id
      have hspares : SparesOthers s name w w₁ := .checked hchecked
      have hname₁ : w₁.cached? s name = none := (hchecked.rechecks.cached?_eq s name).trans hname
      have hfiled₁ : w₁.IsFiled s name p := hfiled.of_eq hspares.tree (by rw [hchecked.rechecks.source_eq])
      have hd₁ : (w₁.source s).byFile.get? p = some d := by rwa [hchecked.rechecks.source_eq]
      cases b with
      | true =>
          refine ⟨(w₁.keepByName s name d).1, d, (Move.ends_call_of_ends hends).2 ?_,
            hspares.trans (.keepByName hfiled₁.lt) h.matched, ?_⟩
          · change (Move.keptByName w₁ s name d).Ends id _ _
            rw [Move.keptByName_of_none hname₁]
            exact Move.ends_settle.2 ⟨rfl, rfl⟩
          · exact (hchecked.rechecks.file_eq d).trans (h.matched.file p d hd)
      | false =>
          have hfails : w₁.Fails d := .inl (hchecked.invalid rfl)
          have hevict : SparesOthers s name w₁ (w₁.evict s d) :=
            .evict ((hchecked.rechecks.dependencies_eq d).trans halone) hfails
          have hname₂ := cached?_evict_of_none d hname₁
          have hfiled₂ : (w₁.evict s d).IsFiled s name p := hfiled₁.of_eq rfl ((ages_evict w₁ s d).storage s)
          have hstatus₂ : (w₁.evict s d).tree.status p = .file real bytes mtime := hspares.tree ▸ hstatus
          obtain ⟨w', d', hbrings⟩ := brings_afterReading hname₂ hfiled₂ (byFile_evict hd₁) hstatus₂ id
          refine ⟨w', d', (Move.ends_call_of_ends hends).2 (Task.ends_frame.2 hbrings.ends), ?_, hbrings.file⟩
          exact (hspares.trans hevict h.matched).trans hbrings.spares h.matched

/-- A lookup gives a document of the file that the source has for the name. -/
theorem brings_getDocument (h : w.Catalogued s naming) (hprovides : w.Provides s naming name p) (id : TaskId) :
    ∃ w' d, Brings id s name p w (Move.getDocument w s name) w' d := by
  obtain ⟨interval, hstorage⟩ := h.storage
  unfold Move.getDocument
  cases hname : w.cached? s name with
  | none =>
      cases hprovides with
      | kept hd _ _ => cases hname.symm.trans hd
      | found _ hfile hstatus =>
          rw [hstorage]
          obtain ⟨w', d, hbrings⟩ := brings_afterResolving h hname hfile hstatus id
          exact ⟨w', d, Task.ends_frame.2 hbrings.ends, hbrings.spares, hbrings.file⟩
  | some d =>
      have halone := h.alone d (.inl ⟨name, hname⟩)
      obtain ⟨w₁, b, visited, hends, hchecked⟩ := ends_isValid_of_nil halone id
      have hspares : SparesOthers s name w w₁ := .checked hchecked
      cases hprovides with
      | kept hd hsound hfile =>
          cases hname.symm.trans hd
          cases hchecked.sound.2 hsound
          refine ⟨w₁, d, (Move.ends_call_of_ends hends).2 (Move.ends_settle.2 ⟨rfl, rfl⟩), hspares, ?_⟩
          exact (hchecked.rechecks.file_eq d).trans hfile
      | @found _ real bytes mtime hfails hfile hstatus =>
          obtain rfl : b = false := Bool.eq_false_iff.2 fun hb => hchecked.sound.1 hb (hfails d hname)
          have hinvalid := hchecked.invalid rfl
          have hsome : (w₁.document d).file.isSome = true := by
            obtain ⟨t, file, hfile, -⟩ := h.named name d hname
            rw [hchecked.rechecks.file_eq, hfile]
            rfl
          have hfiles : w₁.HasFiles s := ⟨naming, interval, by rw [hchecked.rechecks.source_eq, hstorage]⟩
          have hcatalogued : (w₁.evict s d).Catalogued s naming :=
            (h.chore (.check (checks_of_ends hends))).chore (.evict hfiles hinvalid (.inl hsome))
          have hevict : SparesOthers s name w₁ (w₁.evict s d) :=
            .evict ((hchecked.rechecks.dependencies_eq d).trans halone) (.inl hinvalid)
          have hboth := hspares.trans hevict h.matched
          obtain ⟨w', d', hbrings⟩ := brings_afterResolving hcatalogued
            (cached?_evict_of_cached ((hchecked.rechecks.cached?_eq s name).trans hname)) (hboth.tree ▸ hfile)
            (hboth.tree ▸ hstatus) id
          refine ⟨w', d', (Move.ends_call_of_ends hends).2 ?_, hboth.trans hbrings.spares h.matched, hbrings.file⟩
          have hnone : ¬ (w₁.document d).file.isNone = true := by simp [Option.isSome_iff_ne_none.1 hsome]
          obtain ⟨naming', interval', hstorage₁⟩ := hfiles
          change (Move.afterNamed w₁ s name d false).Ends id w' _
          unfold Move.afterNamed
          simp only [Bool.false_eq_true, if_false, hstorage₁, if_neg hnone]
          exact Task.ends_frame.2 hbrings.ends

end World

end ScriptedText
