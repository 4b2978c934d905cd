import ScriptedText.Proofs.Engine.Stowing

/-!
What a lookup has evicted is never kept again. The lookup that is under way is the only one, so no other has the document in
hand meanwhile.
-/

namespace ScriptedText

open Relation

/-- The document that was found in a source and is being checked before it is given. -/
def Frame.kept? : Frame → Option (SourceId × DocumentId)
  | .named s _ d | .filed s _ _ d => some (s, d)
  | _ => none

/-- How high on a stack the frame stands: a check above a lookup, and that above everything else. -/
def Frame.level : Frame → Nat
  | .dependency _ _ | .fileTime _ _ => 2
  | .named _ _ _ | .resolving _ _ | .filed _ _ _ _ | .reading _ _ _ => 1
  | _ => 0

theorem Frame.kept?_of_isAside {f : Frame} (h : f.isAside = true) : f.kept? = none := by
  cases f <;> first | rfl | cases h

theorem Frame.level_of_isAside {f : Frame} (h : f.isAside = true) : f.level = 0 := by
  cases f <;> first | rfl | cases h

theorem Frame.level_le (f : Frame) : f.level ≤ 2 := by
  cases f <;> simp [Frame.level]

/-- Whether the control is one that checks and lookups come to. -/
def Control.checks : Control → Bool
  | .call (.isValid _ _) | .settled _ => true
  | _ => false

namespace Move

open World

/-- What a step comes to keep, where it goes on with a frame that waited for the check of `kept`. -/
structure Yields (w : World) (kept : Option (SourceId × DocumentId)) (m : Move) : Prop where
  documents : w.documents.length ≤ m.world.documents.length
  stores : ∀ s d, m.world.Stores s d →
    w.Stores s d ∨ (w.documents.length ≤ d.index ∧ d.index < m.world.documents.length) ∨ kept = some (s, d)
  push : ∀ f ∈ m.push, ∀ s d, f.kept? = some (s, d) → m.world.Stores s d

/-- A step of a lookup or of a check, which puts at most one frame in place of its own. -/
structure Climbs (w : World) (level : Nat) (kept : Option (SourceId × DocumentId)) (m : Move) : Prop
    extends Yields w kept m where
  level : m.push = [] ∨ ∃ f, m.push = [f] ∧ f.level = level
  control : m.control.checks = true

variable {w : World} {kept : Option (SourceId × DocumentId)} {m : Move} {s : SourceId} {name : String} {d : DocumentId}
  {id : TaskId} {level : Nat} {f : Frame}

theorem Yields.of_stows (h : ∀ s, w.Stows s m.world) (hpush : ∀ f ∈ m.push, ∀ s d, f.kept? = some (s, d) → m.world.Stores s d) :
    Yields w kept m :=
  ⟨(h ⟨0⟩).documents, fun s d hd => ((h s).stores d hd).imp_right .inl, hpush⟩

theorem Yields.of_nil (h : ∀ s, w.Stows s m.world) (hpush : m.push = []) : Yields w kept m := by
  refine .of_stows h fun f hf => ?_
  rw [hpush] at hf
  exact absurd hf List.not_mem_nil

theorem Climbs.of_nil (h : ∀ s, w.Stows s m.world) (hpush : m.push = []) (hcontrol : m.control.checks = true) :
    Climbs w level kept m :=
  ⟨.of_nil h hpush, .inl hpush, hcontrol⟩

theorem Climbs.of_frame (h : ∀ s, w.Stows s m.world) (hpush : m.push = [f]) (hlevel : f.level = level)
    (hkept : ∀ s d, f.kept? = some (s, d) → m.world.Stores s d) (hcontrol : m.control.checks = true) :
    Climbs w level kept m := by
  refine ⟨.of_stows h fun g hg => ?_, .inr ⟨f, hpush, hlevel⟩, hcontrol⟩
  rw [hpush] at hg
  exact List.mem_singleton.1 hg ▸ hkept

theorem Aside.yields (h : Aside w m) : Yields w kept m := by
  refine .of_stows (fun s => .of_stock h.stock) fun f hf s d hkept => ?_
  cases (Frame.kept?_of_isAside (List.all_eq_true.1 h.push f hf)).symm.trans hkept

theorem Aside.level_eq (h : Aside w m) : ∀ f ∈ m.push, f.level = 0 :=
  fun f hf => Frame.level_of_isAside (List.all_eq_true.1 h.push f hf)

theorem climbs_settle (w : World) (o : Outcome) : Climbs w level kept (settle w o) := .of_nil (fun s => .refl s w) rfl rfl

theorem climbs_checkFrom (visited : List DocumentId) (i : Nat) : Climbs w 2 kept (checkFrom w d visited i) := by
  have hwritten (f : Document → Document) : ∀ s', w.Stows s' (w.modifyDocument d f) :=
    fun _ => .of_sources rfl (Nat.le_of_eq (List.length_modify ..).symm)
  unfold checkFrom
  split
  · exact .of_frame (fun s => .refl s w) rfl rfl (fun _ _ hkept => nomatch hkept) rfl
  · unfold checkFile
    dsimp only
    split
    · exact .of_nil (hwritten _) rfl rfl
    · split
      · exact climbs_settle w _
      · exact .of_frame (hwritten _) rfl rfl (fun _ _ hkept => nomatch hkept) rfl

theorem climbs_isValid (visited : List DocumentId) : Climbs w 2 kept (isValid w d visited) := by
  unfold isValid
  split
  · exact climbs_settle w _
  · split
    · exact climbs_settle w _
    · exact climbs_checkFrom _ 0

theorem climbs_afterDependency (i : Nat) (o : Outcome) :
    Climbs w 2 kept (resume w id (.dependency d i) o) := by
  cases o with
  | error f => exact climbs_settle w _
  | ok r =>
      cases r with
      | validity valid visited =>
          cases valid with
          | true => exact climbs_checkFrom visited _
          | false =>
              exact .of_nil (fun s => .of_sources rfl (Nat.le_of_eq (List.length_modify ..).symm)) rfl rfl
      | _ => exact climbs_settle w _

theorem climbs_afterFileTime (visited : List DocumentId) (r : Reply) :
    Climbs w 2 kept (resume w id (.fileTime d visited) (.ok r)) :=
  .of_nil (fun _ => .of_sources rfl (Nat.le_of_eq (List.length_modify ..).symm)) rfl rfl

theorem climbs_getDocument : Climbs w 1 kept (getDocument w s name) := by
  unfold getDocument
  split
  · next d hd =>
      refine .of_frame (fun s => .refl s w) rfl rfl (fun s' d' hkept => ?_) rfl
      cases hkept
      exact .inl ⟨name, hd⟩
  · exact climbs_settle w _
  · exact .of_frame (fun s => .refl s w) rfl rfl (fun _ _ hkept => nomatch hkept) rfl

theorem climbs_afterNamed (valid : Bool) : Climbs w 1 kept (afterNamed w s name d valid) := by
  have hstows (s') := stows_afterNamed (s := s') w s name d valid
  revert hstows
  unfold afterNamed
  split
  · exact fun _ => climbs_settle w _
  · split
    · exact fun hstows => .of_nil hstows rfl rfl
    · dsimp only
      split
      · exact fun hstows => .of_nil hstows rfl rfl
      · exact fun hstows => .of_frame hstows rfl rfl (fun _ _ hkept => nomatch hkept) rfl

theorem climbs_afterResolving : Climbs w 1 kept (afterResolving w s name) := by
  unfold afterResolving
  split
  · exact climbs_settle w _
  · split
    · exact climbs_settle w _
    · next file _ =>
        split
        · next d hd =>
            refine .of_frame (fun s => .refl s w) rfl rfl (fun s' d' hkept => ?_) rfl
            cases hkept
            exact .inr ⟨file, hd⟩
        · exact .of_frame (fun s => .refl s w) rfl rfl (fun _ _ hkept => nomatch hkept) rfl

/-- What was found by its file is kept under the name too. -/
theorem stores_keepByName {s' : SourceId} {x : DocumentId} (h : (w.keepByName s name d).1.Stores s' x) :
    w.Stores s' x ∨ s = s' ∧ d = x := by
  unfold Stores World.keepByName at h
  rcases source_modifySource_cases w s s'
    (fun source => { source with byName := ((w.source s).byName.insertIfAbsent name d).1 }) with heq | ⟨rfl, heq⟩
  · rw [heq] at h
    exact .inl h
  · rw [heq] at h
    exact (h.of_added (x := w.source s) (fun _ => OrderedMap.get?_insertIfAbsent_cases _ name d _)
      fun _ => .inl rfl).imp_right fun heq => ⟨rfl, heq.symm⟩

theorem climbs_afterFiled (file : Files.Path) (valid : Bool) :
    Climbs w 1 (some (s, d)) (afterFiled w s name file d valid) := by
  unfold afterFiled
  split
  · refine ⟨⟨Nat.le_refl _, fun s' x hx => ?_, fun f hf => absurd hf List.not_mem_nil⟩, .inl rfl, rfl⟩
    refine (stores_keepByName hx).imp_right ?_
    rintro ⟨rfl, rfl⟩
    exact .inr rfl
  · exact .of_frame (fun s' => .evict w s d) rfl rfl (fun _ _ hkept => nomatch hkept) rfl

theorem climbs_afterReading (file : Files.Path) : Climbs w 1 kept (afterReading w s name file) := by
  refine .of_nil (fun _ => stows_afterReading w s name file) ?_ ?_
  · unfold afterReading
    split <;> rfl
  · unfold afterReading
    split <;> rfl

/-- A step that puts nothing but frames of the lowest level on the stack. -/
structure Low (w : World) (m : Move) : Prop extends Yields w none m where
  level : ∀ f ∈ m.push, f.level = 0

theorem Aside.low (h : Aside w m) : Low w m := ⟨h.yields, h.level_eq⟩

theorem low_begin {c : Call} (hcheck : ∀ d visited, c ≠ .isValid d visited) (hlookup : ∀ s name, c ≠ .getDocument s name) :
    Low w (begin w id c) := by
  cases c with
  | isValid d visited => exact absurd rfl (hcheck d visited)
  | getDocument s name => exact absurd rfl (hlookup s name)
  | createOnce s name isText compilation =>
      refine ⟨.of_stows (fun s => .refl s w) fun f hf s d hkept => ?_, fun f hf => ?_⟩
      · cases List.mem_singleton.1 hf
        cases hkept
      · cases List.mem_singleton.1 hf
        rfl
  | _ => exact (aside_begin w id rfl).low

theorem low_afterCreating (isText : Bool) (compilation : Compilation) :
    Low w (afterCreating w s name d isText compilation) := by
  have hpush := Task.aside_afterCreating w s name d isText compilation
  refine ⟨.of_nil (fun s' => stows_afterCreating w s name d isText compilation) hpush, fun f hf => ?_⟩
  rw [hpush] at hf
  exact absurd hf List.not_mem_nil

theorem low_resume {f : Frame} (hf : f.level = 0) (o : Outcome) : Low w (resume w id f o) := by
  cases haside : f.isAside with
  | true =>
      rcases aside_resume w id haside o with h | ⟨name, c, e, host, -, -, -, h⟩
      · exact h.low
      · have hages := ages_recordDependency w name host c
        have hrecord (s : SourceId) : w.Stows s (resume w id f o).world := by
          refine .of_sources ((congrArg Stock.sources h.stock).trans (sources_recordDependency w host name c)) ?_
          rw [show (resume w id f o).world.documents = _ from congrArg Stock.documents h.stock]
          exact hages.documents
        refine ⟨.of_stows hrecord fun f hf s d hkept => ?_, h.level_eq⟩
        cases (Frame.kept?_of_isAside (List.all_eq_true.1 h.push f hf)).symm.trans hkept
  | false =>
      cases f with
      | creating s name isText compilation =>
          cases o with
          | error f => exact (aside_settle w _).low
          | ok r =>
              cases r with
              | document d => exact low_afterCreating isText compilation
              | _ => exact (aside_settle w _).low
      | dependency | fileTime | named | resolving | filed | reading => cases hf
      | _ => cases haside

theorem climbs_resume {f : Frame} (hf : f.level ≠ 0) (o : Outcome) : Climbs w f.level f.kept? (resume w id f o) := by
  cases f with
  | dependency d i => exact climbs_afterDependency i o
  | fileTime d visited =>
      cases o with
      | error f => exact climbs_settle w _
      | ok r => exact climbs_afterFileTime visited r
  | named s name d =>
      cases o with
      | error f => exact climbs_settle w _
      | ok r =>
          cases r with
          | validity valid visited => exact climbs_afterNamed valid
          | _ => exact climbs_settle w _
  | resolving s name =>
      cases o with
      | error f => exact climbs_settle w _
      | ok r => exact climbs_afterResolving
  | filed s name file d =>
      cases o with
      | error f => exact climbs_settle w _
      | ok r =>
          cases r with
          | validity valid visited => exact climbs_afterFiled file valid
          | _ => exact climbs_settle w _
  | reading s name file =>
      cases o with
      | error f => exact climbs_settle w _
      | ok r => exact climbs_afterReading file
  | _ => exact absurd rfl hf

end Move

/-- The stack of a task that runs alone: checks above at most one lookup, and that above everything else. -/
structure Task.Layered (t : Task) : Prop where
  stack : t.stack.Pairwise fun f below => below.level ≤ f.level ∧ (f.level = 1 → below.level = 0)
  control : t.control.checks = true ∨ ∀ f ∈ t.stack, f.level = 0

/-- The document that the task goes on with, when it has been checked. -/
def Task.kept? (t : Task) : Option (SourceId × DocumentId) :=
  match t.control, t.stack with
  | .settled _, f :: _ => f.kept?
  | _, _ => none

/-- Whether a check has just found its document invalid. -/
def Control.fails : Control → Bool
  | .settled (.ok (.validity false _)) => true
  | _ => false

namespace Task

open World

/-- The next step of the task evicts the document: a lookup has found it, and a check has found it invalid. -/
def Evicts (s : SourceId) (d : DocumentId) (t : Task) : Prop := t.control.fails = true ∧ t.kept? = some (s, d)

instance (s : SourceId) (d : DocumentId) (t : Task) : Decidable (t.Evicts s d) := inferInstanceAs (Decidable (_ ∧ _))

variable {id : TaskId} {w : World} {t : Task} {m : Move} {rest : List Frame}

theorem Evicts.form {s : SourceId} {d : DocumentId} (h : t.Evicts s d) :
    ∃ f rest visited, t = ⟨f :: rest, .settled (.ok (.validity false visited))⟩ ∧
      ((∃ name, f = .named s name d) ∨ ∃ name file, f = .filed s name file d) := by
  obtain ⟨stack, control⟩ := t
  obtain ⟨hfails, hkept⟩ := h
  unfold Control.fails at hfails
  split at hfails
  · next visited heq =>
      cases heq
      cases stack with
      | nil => cases hkept
      | cons f rest =>
          refine ⟨f, rest, visited, rfl, ?_⟩
          cases f with
          | named =>
              cases hkept
              exact .inl ⟨_, rfl⟩
          | filed =>
              cases hkept
              exact .inr ⟨_, _, rfl⟩
          | _ => cases hkept
  · cases hfails

theorem exists_frame_of_kept? {s : SourceId} {d : DocumentId} (h : t.kept? = some (s, d)) :
    ∃ f ∈ t.stack, f.kept? = some (s, d) := by
  obtain ⟨stack, control⟩ := t
  cases control with
  | settled o =>
      cases stack with
      | nil => cases h
      | cons f rest => exact ⟨f, List.mem_cons_self .., h⟩
  | _ => cases h

theorem mem_of_advance (ha : t.advance w id = some (m, rest)) {f : Frame} (hf : f ∈ rest) : f ∈ t.stack := by
  obtain ⟨stack, control⟩ := t
  cases control <;> cases stack <;> cases ha <;> first | exact hf | exact List.mem_cons_of_mem _ hf

/-- Nothing under a lookup waits for a document. -/
theorem Layered.kept?_below {s : SourceId} {d : DocumentId} (h : t.Layered) (hevicts : t.Evicts s d)
    (ha : t.advance w id = some (m, rest)) {f : Frame} (hf : f ∈ rest) : f.kept? = none := by
  have hlow : f.level = 0 := by
    obtain ⟨top, below, visited, rfl, htop⟩ := hevicts.form
    cases ha
    refine ((List.pairwise_cons.1 h.stack).1 f hf).2 ?_
    rcases htop with ⟨name, rfl⟩ | ⟨name, file, rfl⟩ <;> rfl
  cases f with
  | named => cases hlow
  | filed => cases hlow
  | _ => rfl

theorem Layered.of_low {c : Control} (h : ∀ f ∈ rest, f.level = 0) : Layered ⟨rest, c⟩ := by
  refine ⟨List.pairwise_of_forall_mem_list fun f hf below hbelow => ?_, .inr h⟩
  simp [h f hf, h below hbelow]

/-- What stood under a frame still does so under one that has come in its place. -/
theorem Layered.climb {level : Nat} {kept : Option (SourceId × DocumentId)} (hm : m.Climbs w level kept)
    (hlow : ∀ f ∈ rest, f.level ≤ level ∧ (level = 1 → f.level = 0))
    (hrest : rest.Pairwise fun f below => below.level ≤ f.level ∧ (f.level = 1 → below.level = 0)) :
    Layered ⟨m.push ++ rest, m.control⟩ := by
  refine ⟨?_, .inl hm.control⟩
  rcases hm.level with hpush | ⟨f, hpush, hlevel⟩
  · rwa [hpush]
  · rw [hpush]
    exact List.pairwise_cons.2 ⟨fun below hbelow => by rw [hlevel]; exact hlow below hbelow, hrest⟩

theorem Layered.lower (hm : m.Low w) (hlow : ∀ f ∈ rest, f.level = 0) : Layered ⟨m.push ++ rest, m.control⟩ :=
  .of_low fun f hf => (List.mem_append.1 hf).elim (hm.level f) (hlow f)

theorem Layered.begin {stack : List Frame} {c : Call} (h : Layered ⟨stack, .call c⟩) :
    Layered ⟨(Move.begin w id c).push ++ stack, (Move.begin w id c).control⟩ ∧ (Move.begin w id c).Yields w none := by
  by_cases hcheck : ∃ d visited, c = .isValid d visited
  · obtain ⟨d, visited, rfl⟩ := hcheck
    have hm : Move.Climbs w 2 none (Move.begin w id (.isValid d visited)) := Move.climbs_isValid visited
    exact ⟨.climb hm (fun f _ => ⟨f.level_le, nofun⟩) h.stack, hm.toYields⟩
  · have hlow : ∀ f ∈ stack, f.level = 0 := by
      refine h.control.resolve_left fun hchecks => ?_
      cases c <;> first | exact hcheck ⟨_, _, rfl⟩ | cases hchecks
    by_cases hlookup : ∃ s name, c = .getDocument s name
    · obtain ⟨s, name, rfl⟩ := hlookup
      have hm : Move.Climbs w 1 none (Move.begin w id (.getDocument s name)) := Move.climbs_getDocument
      exact ⟨.climb hm (fun f hf => by simp [hlow f hf]) h.stack, hm.toYields⟩
    · have hm : Move.Low w (Move.begin w id c) :=
        Move.low_begin (fun d visited heq => hcheck ⟨d, visited, heq⟩) fun s name heq => hlookup ⟨s, name, heq⟩
      exact ⟨.lower hm hlow, hm.toYields⟩

theorem Layered.resume {f : Frame} {o : Outcome} (h : Layered ⟨f :: rest, .settled o⟩) :
    Layered ⟨(Move.resume w id f o).push ++ rest, (Move.resume w id f o).control⟩ ∧
      (Move.resume w id f o).Yields w f.kept? := by
  obtain ⟨hbelow, hrest⟩ := List.pairwise_cons.1 h.stack
  by_cases hf : f.level = 0
  · have hm : Move.Low w (Move.resume w id f o) := Move.low_resume hf o
    refine ⟨.lower hm fun below hmem => ?_, ⟨hm.documents, fun s d hd => ?_, hm.push⟩⟩
    · have hle := (hbelow below hmem).1
      omega
    · exact (hm.stores s d hd).imp_right (Or.imp_right nofun)
  · have hm : Move.Climbs w f.level f.kept? (Move.resume w id f o) := Move.climbs_resume hf o
    exact ⟨.climb hm hbelow hrest, hm.toYields⟩

/-- By cases on what the task does: it begins a call, or a conversation goes on, or the frame on top does. -/
theorem Layered.step (h : t.Layered) (ha : t.advance w id = some (m, rest)) :
    Layered ⟨m.push ++ rest, m.control⟩ ∧ m.Yields w t.kept? := by
  obtain ⟨stack, control⟩ := t
  cases control with
  | call c =>
      cases ha
      exact h.begin
  | talking s d =>
      cases ha
      have hm := Move.aside_converse w id s d
      exact ⟨.lower hm.low (h.control.resolve_left nofun), hm.yields⟩
  | settled o =>
      cases stack with
      | nil => cases ha
      | cons f below =>
          cases ha
          exact h.resume
  | waiting => cases ha

end Task

namespace World

variable {w : World} {s : SourceId} {name : String} {d : DocumentId} {id : TaskId} {t : Task} {m : Move}
  {rest : List Frame}

/-- What takes the place of an evicted document is another one. -/
theorem not_stores_afterNamed (hfiles : w.HasFiles s) (hd : d.index < w.documents.length) :
    ¬ (Move.afterNamed w s name d false).world.Stores s d := by
  obtain ⟨naming, interval, hstorage⟩ := hfiles
  have hgone : ¬ (w.evict s d).Stores s d := not_stores_evict (HasFiles.lt ⟨naming, interval, hstorage⟩)
  unfold Move.afterNamed
  rw [if_neg Bool.false_ne_true, hstorage]
  dsimp only
  split
  · intro hstores
    rcases Move.stores_keepByName hstores with hold | ⟨-, heq⟩
    · exact hgone hold
    · exact Nat.ne_of_gt hd (congrArg DocumentId.index heq)
  · exact hgone

theorem not_stores_of_evicts (h : t.Evicts s d) (hfiles : w.HasFiles s) (hd : d.index < w.documents.length)
    (ha : t.advance w id = some (m, rest)) : ¬ m.world.Stores s d := by
  obtain ⟨top, below, visited, rfl, ⟨name, rfl⟩ | ⟨name, file, rfl⟩⟩ := h.form
  · cases ha
    exact not_stores_afterNamed hfiles hd
  · cases ha
    exact not_stores_evict hfiles.lt

end World

namespace Course

open World

/-- What the source keeps, and what a lookup goes on with, is of a kind that all new documents are of. -/
structure Within (s : SourceId) (S : DocumentId → Prop) (a : Course) : Prop where
  fresh : ∀ d, a.world.documents.length ≤ d.index → S d
  stores : ∀ d, a.world.Stores s d → S d ∧ d.index < a.world.documents.length
  stack : ∀ id t, a.task? = some (id, t) → t.Layered ∧
    ∀ f ∈ t.stack, ∀ d, f.kept? = some (s, d) → S d ∧ d.index < a.world.documents.length

variable {allows : World → Errand → Prop} {proper : World → Task → Prop} {s : SourceId} {S : DocumentId → Prop}
  {w w' : World} {a b : Course} {id : TaskId} {t : Task} {d : DocumentId}

theorem Within.of_stows (h : Within s S ⟨w, none⟩) (hstows : w.Stows s w') : Within s S ⟨w', none⟩ where
  fresh d hd := h.fresh d (Nat.le_trans hstows.documents hd)
  stores d hd := by
    rcases hstows.stores d hd with hold | ⟨hlow, hlt⟩
    · exact ⟨(h.stores d hold).1, Nat.lt_of_lt_of_le (h.stores d hold).2 hstows.documents⟩
    · exact ⟨h.fresh d hlow, hlt⟩
  stack _ _ h := nomatch h

/-- What a step puts on the stack, the source keeps, and of that at most the document that was checked is not new. -/
theorem Within.step {m : Move} {rest : List Frame} (h : Within s S ⟨w, some (id, t)⟩)
    (ha : t.advance w id = some (m, rest)) : Within s S ⟨m.world, some (id, ⟨m.push ++ rest, m.control⟩)⟩ := by
  obtain ⟨hlayered, hstack⟩ := h.stack id t rfl
  obtain ⟨hnext, hyields⟩ := hlayered.step ha
  have hmono {d : DocumentId} (hd : S d ∧ d.index < w.documents.length) : S d ∧ d.index < m.world.documents.length :=
    ⟨hd.1, Nat.lt_of_lt_of_le hd.2 hyields.documents⟩
  have hstores (d : DocumentId) (hd : m.world.Stores s d) : S d ∧ d.index < m.world.documents.length := by
    rcases hyields.stores s d hd with hold | ⟨hlow, hlt⟩ | hkept
    · exact hmono (h.stores d hold)
    · exact ⟨h.fresh d hlow, hlt⟩
    · obtain ⟨f, hf, hfd⟩ := Task.exists_frame_of_kept? hkept
      exact hmono (hstack f hf d hfd)
  refine ⟨fun d hd => h.fresh d (Nat.le_trans hyields.documents hd), hstores, ?_⟩
  rintro _ _ ⟨⟩
  refine ⟨hnext, fun f hf d hd => ?_⟩
  rcases List.mem_append.1 hf with hpush | hrest
  · exact hstores d (hyields.push f hpush s d hd)
  · exact hmono (hstack f (Task.mem_of_advance ha hrest) d hd)

theorem Turn.within (h : Turn allows proper a b) (ha : Within s S a) : Within s S b := by
  cases h with
  | call w id c =>
      refine ⟨ha.fresh, ha.stores, ?_⟩
      rintro _ _ ⟨⟩
      exact ⟨.of_low fun f hf => absurd hf List.not_mem_nil, fun f hf => absurd hf List.not_mem_nil⟩
  | step _ hadvance => exact ha.step hadvance
  | done w id o => exact ⟨ha.fresh, ha.stores, fun _ _ h => nomatch h⟩
  | serve _ => exact ha.of_stows (.serve _ _)
  | release w e => exact ha.of_stows (.of_stock (w.stock_release e))
  | clock w now => exact ha.of_stows (.of_sources rfl (Nat.le_refl _))

theorem within_of_turns (h : ReflTransGen (Turn allows proper) a b) (ha : Within s S a) : Within s S b := by
  induction h with
  | refl => exact ha
  | tail _ hturn ih => exact hturn.within ih

theorem Within.of_empty (h : w.Empty s) : Within s (fun _ => True) ⟨w, none⟩ where
  fresh _ _ := trivial
  stores d hd := by
    rcases hd with ⟨name, hd⟩ | ⟨file, hd⟩
    · cases (h.1 name).symm.trans hd
    · cases (h.2 file).symm.trans hd
  stack _ _ h := nomatch h

/-- Evicted documents are no longer kept, and a lookup does not go on with them either: it has the checks of at most one
document on its stack. -/
theorem Within.evict {w : World} {t : Task} {m : Move} {rest : List Frame} (h : Within s S ⟨w, some (id, t)⟩)
    (hevicts : t.Evicts s d) (hfiles : w.HasFiles s) (ha : t.advance w id = some (m, rest)) :
    Within s (· ≠ d) ⟨m.world, some (id, ⟨m.push ++ rest, m.control⟩)⟩ := by
  obtain ⟨hlayered, hstack⟩ := h.stack id t rfl
  have hlt : d.index < w.documents.length := by
    obtain ⟨f, hf, hkept⟩ := Task.exists_frame_of_kept? hevicts.2
    exact (hstack f hf d hkept).2
  have hgone := not_stores_of_evicts hevicts hfiles hlt ha
  have hyields := (hlayered.step ha).2
  have hnext := h.step ha
  obtain ⟨hnextLayered, hnextStack⟩ := hnext.stack id _ rfl
  refine ⟨?_, fun x hx => ⟨?_, (hnext.stores x hx).2⟩, ?_⟩
  · rintro x hx rfl
    exact absurd (Nat.lt_of_lt_of_le hlt hyields.documents) (Nat.not_lt_of_le hx)
  · rintro rfl
    exact hgone hx
  · rintro _ _ ⟨⟩
    refine ⟨hnextLayered, fun f hf x hx => ⟨?_, (hnextStack f hf x hx).2⟩⟩
    rintro rfl
    rcases List.mem_append.1 hf with hpush | hrest
    · exact hgone (hyields.push f hpush s x hx)
    · cases (hlayered.kept?_below hevicts ha hrest).symm.trans hx

/-- The next turn evicts the document from its source, which has files. -/
def Evicts (s : SourceId) (d : DocumentId) (a : Course) : Prop :=
  a.world.HasFiles s ∧ ∃ id t, a.task? = some (id, t) ∧ t.Evicts s d

theorem Turn.evicts (h : Turn allows proper a b) (ha : Within s S a) (hevicts : a.Evicts s d) : Within s (· ≠ d) b := by
  obtain ⟨hfiles, id, t, htask, hevicts⟩ := hevicts
  cases h with
  | step _ hadvance =>
      cases htask
      exact ha.evict hevicts hfiles hadvance
  | done w id o =>
      cases htask
      cases hevicts.2
  | _ => cases htask

/-- Names and files agree, whatever calls, errands and changes to files have come one after the other; and what a lookup
has evicted is kept no more. -/
theorem file_maps_agree {w₀ w : World} (hempty : w₀.Empty s)
    (hcourse : ReflTransGen (Turn (fun _ _ => True) fun _ _ => True) ⟨w₀, none⟩ ⟨w, none⟩) :
    (∀ file d, (w.source s).byFile.get? file = some d → (w.document d).file = some file) ∧
    (∀ name file d, w.cached? s name = some d → (w.document d).file = some file → (w.document d).validity ≠ .invalid →
      (w.source s).byFile.get? file = some d) ∧
    (∀ name name' file d d', w.cached? s name = some d → w.cached? s name' = some d' →
      (w.document d).file = some file → (w.document d').file = some file →
      (w.document d).validity ≠ .invalid → (w.document d').validity ≠ .invalid → d = d') ∧
    ∀ a b d, ReflTransGen (Turn (fun _ _ => True) fun _ _ => True) ⟨w₀, none⟩ a → a.Evicts s d →
      Turn (fun _ _ => True) (fun _ _ => True) a b →
      ReflTransGen (Turn (fun _ _ => True) fun _ _ => True) b ⟨w, none⟩ →
      (∀ name, w.cached? s name ≠ some d) ∧ ∀ file, (w.source s).byFile.get? file ≠ some d := by
  have hmatched : w.Matched s := (keeps_matched s).holds hcourse (.of_empty hempty)
  refine ⟨hmatched.file, fun name file d => hmatched.name name d file, ?_, ?_⟩
  · intro name name' file d d' hd hd' hfile hfile' hvalid hvalid'
    have hkept := hmatched.name name d file hd hfile hvalid
    exact Option.some.inj (hkept.symm.trans (hmatched.name name' d' file hd' hfile' hvalid'))
  · intro a b d hbefore hevicts hturn hafter
    have hwithin : Within s (· ≠ d) ⟨w, none⟩ :=
      within_of_turns hafter (hturn.evicts (within_of_turns hbefore (.of_empty hempty)) hevicts)
    exact ⟨fun name hd => (hwithin.stores d (.inl ⟨name, hd⟩)).1 rfl,
      fun file hd => (hwithin.stores d (.inr ⟨file, hd⟩)).1 rfl⟩

/-- A file, and a source that looks at it once per interval. -/
def fileWorld (interval : Int) : World :=
  { tree := ({ origin := "" } : Files.Tree).write ["a"] [120] 1
    sources := [{ storage := .files { base := [] } interval }] }

/-- The document is looked up. -/
def lookUp (n : Nat) (w : World) : Course := proceed n ⟨w, some (⟨0⟩, ⟨[], .call (.getDocument ⟨0⟩ "a")⟩)⟩

/-- The document has been read, and later the file is written again. -/
def overwritten : World :=
  World.serve { (lookUp 10 (fileWorld 0)).world with clock := 1 } (.files ((fileWorld 0).tree.write ["a"] [121] 2))

/-- The document was asked for once more, and has been found invalid. -/
def overdue : Course := lookUp 3 overwritten

theorem turns_lookUp (n : Nat) (w : World) : ReflTransGen (Turn (fun _ _ => True) fun _ _ => True) ⟨w, none⟩ (lookUp n w) :=
  .head (.call w ⟨0⟩ _) (turns_proceed _ n _)

theorem eq_idle (h : a.task?.isNone = true) : a = ⟨a.world, none⟩ := by
  obtain ⟨w, _ | task⟩ := a
  · rfl
  · cases h

theorem task_overdue : overdue.task? = some (⟨0⟩, ⟨[.named ⟨0⟩ "a" ⟨0⟩], .settled (.ok (.validity false [⟨0⟩]))⟩) := by
  rfl

/-- It has been evicted, and its file is looked for. -/
def evicting : Course where
  world := (overdue.world.modifySource ⟨0⟩ (·.forget ⟨0⟩)).emit (.evicted (overdue.world.document ⟨0⟩).name .invalid)
  task? := some (⟨0⟩, ⟨[.resolving ⟨0⟩ "a"], .settled (.ok .nothing)⟩)

theorem next_overdue : overdue.next = evicting := by
  have hevict : overdue.world.evict ⟨0⟩ ⟨0⟩ = evicting.world := by
    unfold World.evict
    dsimp only
    rw [dropInFlow_of_nil]
    · rfl
    · decide +kernel
  have hevicted : Move.afterNamed overdue.world ⟨0⟩ "a" ⟨0⟩ false = Move.pass evicting.world [.resolving ⟨0⟩ "a"] := by
    rw [← hevict]
    exact if_neg Bool.false_ne_true
  have hadvance : Task.advance overdue.world ⟨0⟩ ⟨[.named ⟨0⟩ "a" ⟨0⟩], .settled (.ok (.validity false [⟨0⟩]))⟩ =
      some (Move.afterNamed overdue.world ⟨0⟩ "a" ⟨0⟩ false, []) := rfl
  unfold next
  rw [task_overdue]
  dsimp only
  rw [hadvance, hevicted]
  rfl

/-- It is evicted, and the file is kept as another one. -/
theorem file_maps_agree_of_overwritten :
    (fileWorld 0).Empty ⟨0⟩ ∧ ∃ b w, ReflTransGen (Turn (fun _ _ => True) fun _ _ => True) ⟨fileWorld 0, none⟩ overdue ∧
      overdue.Evicts ⟨0⟩ ⟨0⟩ ∧ Turn (fun _ _ => True) (fun _ _ => True) overdue b ∧
      ReflTransGen (Turn (fun _ _ => True) fun _ _ => True) b ⟨w, none⟩ ∧ w.cached? ⟨0⟩ "a" = some ⟨1⟩ ∧
      (w.source ⟨0⟩).byFile.get? ["a"] = some ⟨1⟩ ∧ ∀ name, w.cached? ⟨0⟩ name ≠ some ⟨0⟩ := by
  have hempty : (fileWorld 0).Empty ⟨0⟩ := ⟨fun _ => rfl, fun _ => rfl⟩
  have hread : (lookUp 10 (fileWorld 0)).task?.isNone = true := by decide +kernel
  obtain ⟨hdone, hcached, hfile, hvalid⟩ : (proceed 3 evicting).task?.isNone = true ∧
      (proceed 3 evicting).world.cached? ⟨0⟩ "a" = some ⟨1⟩ ∧
      ((proceed 3 evicting).world.document ⟨1⟩).file = some ["a"] ∧
      ((proceed 3 evicting).world.document ⟨1⟩).validity = .unknown := by
    decide +kernel
  have hbefore : ReflTransGen (Turn (fun _ _ => True) fun _ _ => True) ⟨fileWorld 0, none⟩ overdue := by
    have hfirst := turns_lookUp 10 (fileWorld 0)
    rw [eq_idle hread] at hfirst
    exact ((hfirst.tail (.clock _ 1)).tail (.serve trivial)).trans (turns_lookUp 3 overwritten)
  have hevicts : overdue.Evicts ⟨0⟩ ⟨0⟩ := ⟨⟨_, _, rfl⟩, _, _, task_overdue, by decide⟩
  have hturn : Turn (fun _ _ => True) (fun _ _ => True) overdue evicting :=
    next_overdue ▸ turn_next (fun _ _ => True) task_overdue rfl
  have hafter := turns_proceed (fun _ _ => True) 3 evicting
  rw [eq_idle hdone] at hafter
  obtain ⟨-, hname, -, hevicted⟩ := file_maps_agree hempty ((hbefore.tail hturn).trans hafter)
  have hgone := hevicted overdue evicting ⟨0⟩ hbefore hevicts hturn hafter
  exact ⟨hempty, evicting, _, hbefore, hevicts, hturn, hafter, hcached, hname "a" ["a"] ⟨1⟩ hcached hfile (by simp [hvalid]),
    hgone.1⟩

end Course

end ScriptedText
