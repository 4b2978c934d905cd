import ScriptedText.Proofs.Engine.Compilation
import ScriptedText.Proofs.Engine.Course
import ScriptedText.Proofs.Engine.Meaning

/-!
What a document runs as is decided by the first call that asks for it: the executable that it got then serves all later
calls, whether they ask for text with scriptlets or for the source of a program.
-/

namespace ScriptedText

open Relation

namespace World

/-- Executables are only added. -/
def Makes (w w' : World) : Prop := w.executables.map Executable.asMade <+: w'.executables.map Executable.asMade

/-- The document has the executable, which is as it was made. -/
structure Bears (d : DocumentId) (e : ExecutableId) (x : Executable) (w : World) : Prop where
  document : (w.document d).executable = some e
  made : (w.executables[e.index]?).map Executable.asMade = some x.asMade

variable {w w' w₁ w₂ : World} {s : SourceId} {name : String} {d : DocumentId} {e : ExecutableId} {x : Executable}
  {id : TaskId} {o : Outcome}

theorem makes_of_stock (h : w'.stock = w.stock) : w.Makes w' :=
  ⟨[], (List.append_nil _).trans (congrArg Stock.executables h).symm⟩

theorem makes_of_eq (h : w'.executables = w.executables) : w.Makes w' :=
  ⟨[], (List.append_nil _).trans (congrArg (List.map Executable.asMade) h.symm)⟩

theorem Makes.trans (h : w.Makes w₁) (h' : w₁.Makes w₂) : w.Makes w₂ := List.IsPrefix.trans h h'

theorem Makes.executable_eq (h : w.Makes w') (he : e.index < w.executables.length) :
    (w'.executable e).asMade = (w.executable e).asMade := by
  have hget := List.IsPrefix.getElem h (i := e.index) (by simpa using he)
  have he' : e.index < w'.executables.length := by
    have hle := h.length_le
    simp only [List.length_map] at hle
    exact Nat.lt_of_lt_of_le he hle
  simp only [List.getElem_map] at hget
  simp only [executable, List.getElem?_eq_getElem he, List.getElem?_eq_getElem he', Option.getD_some, hget]

theorem executables_attachExecutable (w : World) (d : DocumentId) (e : ExecutableId) :
    (w.attachExecutable d e).1.executables = w.executables := by
  unfold attachExecutable
  split <;> rfl

theorem executables_createDocument (w : World) (s : SourceId) (name text tag : String) (e : Option ExecutableId) :
    (w.createDocument s name text tag e).1.executables = w.executables := by
  cases e with
  | none => rfl
  | some e => exact executables_attachExecutable _ _ e

theorem executables_invalidateDependents (w : World) (s : SourceId) (name : String) :
    (w.invalidateDependents s name).executables = w.executables := by
  unfold invalidateDependents
  refine List.foldlRecOn _ _ (motive := fun w' : World => w'.executables = w.executables) rfl fun w' h d _ => ?_
  split
  · exact h
  · exact h

theorem executables_setDocument (w : World) (s : SourceId) (name text tag : String) (e : Option ExecutableId) :
    (w.setDocument s name text tag e).1.executables = w.executables := by
  have hcreate := executables_createDocument w s name text tag e
  unfold setDocument
  cases w.cached? s name with
  | none => exact hcreate
  | some old => exact (executables_invalidateDependents _ s name).trans hcreate

theorem executables_renew (w : World) (s : SourceId) (name : String) (d : DocumentId) :
    (w.renew s name d).1.executables = w.executables := by
  unfold renew
  dsimp only
  split <;> rfl

theorem executables_recordDependency (w : World) (host : Host) (name : String) (c : ContextId) :
    (w.recordDependency host name c).executables = w.executables := by
  unfold recordDependency
  split
  · rfl
  · dsimp only
    split
    · split <;> rfl
    · rfl

theorem executables_chore (h : Chore s w w') : w'.executables = w.executables := by
  cases h with
  | check hchecks => rw [hchecks.rechecks.world]
  | renew _ _ _ => exact executables_renew w s _ _
  | _ => rfl

theorem makes_addExecutable (w : World) (x : Executable) : w.Makes (w.addExecutable x).1 := by
  unfold Makes addExecutable
  rw [List.map_append]
  exact List.prefix_append _ _

theorem makes_compile (w : World) (o : Draft) : w.Makes (w.compile o).1 := by
  refine Act.relates_compile (R := Makes) (fun _ => List.prefix_refl _) (fun _ _ _ => .trans) ?_ ?_ ?_ ?_ w
  · exact fun _ _ _ => makes_of_eq rfl
  · exact fun _ => makes_of_eq rfl
  · exact fun w s name text e _ => makes_of_eq (executables_setDocument w s name text "" (some e))
  · exact fun w x _ => makes_addExecutable w x

theorem makes_serve (w : World) (errand : Errand) : w.Makes (w.serve errand) := by
  cases errand with
  | invalidate d => exact makes_of_eq rfl
  | depend d name => exact makes_of_eq rfl
  | attach d e => exact makes_of_eq (executables_attachExecutable w d e)
  | set s name text tag e => exact makes_of_eq (executables_setDocument w s name text tag e)
  | setIfAbsent s name text tag e => exact makes_of_eq (executables_createDocument w s name text tag e)
  | compile o => exact makes_compile w o
  | files tree => exact makes_of_eq rfl

namespace Bears

theorem lt (h : w.Bears d e x) : d.index < w.documents.length := lt_of_executable h.document

theorem of_makes (h : w.Bears d e x) (hmakes : w.Makes w')
    (hdocument : (w'.document d).executable = (w.document d).executable) : w'.Bears d e x := by
  refine ⟨hdocument.trans h.document, ?_⟩
  have hmade := h.made
  rw [← List.getElem?_map] at hmade ⊢
  obtain ⟨hlt, -⟩ := List.getElem?_eq_some_iff.1 hmade
  obtain ⟨added, hadded⟩ := hmakes
  rwa [← hadded, List.getElem?_append_left hlt]

theorem of_ages (h : w.Bears d e x) (hages : w.Ages w') (hmakes : w.Makes w') : w'.Bears d e x :=
  h.of_makes hmakes (((hages.document d h.lt).executable e h.document).trans h.document.symm)

theorem of_same (h : w.Bears d e x) (hdocuments : w'.documents = w.documents) (hmakes : w.Makes w') : w'.Bears d e x := by
  refine h.of_makes hmakes ?_
  unfold World.document
  rw [hdocuments]

theorem chore (h : w.Bears d e x) (hchore : Chore s w w') : w'.Bears d e x :=
  h.of_ages (ages_chore hchore) (makes_of_eq (executables_chore hchore))

theorem chores (h : w.Bears d e x) (hchores : ReflTransGen (Chore s) w w') : w'.Bears d e x := by
  induction hchores with
  | refl => exact h
  | tail _ hchore ih => exact ih.chore hchore

theorem afterCreating (h : w.Bears d e x) (s : SourceId) (name : String) (d' : DocumentId) (isText : Bool)
    (compilation : Compilation) : (Move.afterCreating w s name d' isText compilation).world.Bears d e x := by
  have hcompile : (w.compile (Move.draftOf w s name d' isText compilation)).1.Bears d e x :=
    h.of_ages (ages_compile w _) (makes_compile w _)
  unfold Move.afterCreating
  split
  · exact h
  · split
    · next hc =>
        rw [hc] at hcompile
        exact hcompile
    · next hc =>
        rw [hc] at hcompile
        exact hcompile.of_ages (ages_attachExecutable _ d' _) (makes_of_eq (executables_attachExecutable _ d' _))

theorem stride {P : World → Task → Prop} (h : w.Bears d e x) (hstride : Stride id P w w') : w'.Bears d e x := by
  cases hstride with
  | aside hstock => exact h.of_same (congrArg Stock.documents hstock) (makes_of_stock hstock)
  | check hends => exact h.chore (s := ⟨0⟩) (.check (checks_of_ends hends))
  | lookup hends => exact h.chores (lookup_of_ends hends).chores
  | create hends _ => exact (h.chores (lookup_of_ends hends).chores).afterCreating _ _ _ _ _
  | record _ _ => exact h.of_ages (ages_recordDependency _ _ _ _) (makes_of_eq (executables_recordDependency _ _ _ _))

theorem serve (h : w.Bears d e x) (errand : Errand) : (w.serve errand).Bears d e x :=
  h.of_ages (ages_serve w errand) (makes_serve w errand)

end Bears

theorem keeps_bears (d : DocumentId) (e : ExecutableId) (x : Executable) :
    Course.Keeps (fun _ _ => True) (fun _ _ => True) (Bears d e x) where
  stride hstride h := h.stride hstride
  serve _ h := h.serve _
  clock h := h.of_same rfl (makes_of_eq rfl)

/-- A service that searches the sources one after the other comes to the document in one of them. -/
inductive Finds (id : TaskId) (name : String) (d : DocumentId) : World → List SourceId → SourceId → World → Prop
  | here {w w' : World} {s : SourceId} {rest : List SourceId}
      (h : Task.Ends id w ⟨[], .call (.getDocument s name)⟩ w' (.ok (.document d))) : Finds id name d w (s :: rest) s w'
  | next {w w₁ w' : World} {s s' : SourceId} {rest : List SourceId} {f : Fault} {missing : String}
      (h : Task.Ends id w ⟨[], .call (.getDocument s name)⟩ w₁ (.error (.fault f)))
      (hmissing : f.kind = .documentMissing missing) (hrest : Finds id name d w₁ rest s' w') :
      Finds id name d w (s :: rest) s' w'

end World

/-- The document that a call of the document service asks for, and whether as text with scriptlets. -/
def Call.request? : Call → Option (String × Bool)
  | .getExecutable name isText => some (name, isText)
  | .include name _ => some (name, true)
  | .runSource name _ => some (name, false)
  | _ => none

/-- How such a call goes on when it has the executable. -/
def Call.goesOn (w : World) (e : ExecutableId) : Call → Move
  | .include name c => Move.afterFetched w name true c e
  | .runSource name c => Move.afterFetched w name false c e
  | _ => Move.reply w (.executable e)

namespace World

/-- A compilation leaves alone what documents have that are there already. -/
structure Retains (w w' : World) : Prop where
  documents : w.documents.length ≤ w'.documents.length
  executable : ∀ d, d.index < w.documents.length → (w'.document d).executable = (w.document d).executable

variable {w w' w₁ w₂ : World} {s : SourceId} {name : String} {d : DocumentId} {e : ExecutableId} {x y : Executable}
  {id : TaskId} {o : Outcome}

namespace Retains

theorem of_eq (h : w'.documents = w.documents) : w.Retains w' := by
  refine ⟨Nat.le_of_eq (congrArg List.length h.symm), fun d _ => ?_⟩
  unfold document
  rw [h]

theorem trans (h : w.Retains w₁) (h' : w₁.Retains w₂) : w.Retains w₂ :=
  ⟨Nat.le_trans h.documents h'.documents, fun d hd =>
    (h'.executable d (Nat.lt_of_lt_of_le hd h.documents)).trans (h.executable d hd)⟩

theorem invalidate (w : World) (d : DocumentId) : w.Retains (w.modifyDocument d Document.invalidate) := by
  refine ⟨Nat.le_of_eq (List.length_modify ..).symm, fun x _ => ?_⟩
  refine field_modifyDocument Document.executable ?_ d x
  intro y
  rfl

theorem invalidateDependents (w : World) (s : SourceId) (name : String) : w.Retains (w.invalidateDependents s name) := by
  unfold World.invalidateDependents
  refine List.foldlRecOn _ _ (motive := fun w' : World => w.Retains w') (of_eq rfl) fun w' h d _ => ?_
  split
  · exact h.trans (invalidate w' d)
  · exact h

theorem addDocument (w : World) (x : Document) : w.Retains (w.addDocument x).1 :=
  ⟨(List.prefix_append _ _).length_le, fun _ hd => congrArg Document.executable (document_of_grown (List.prefix_append _ _) hd)⟩

theorem setDocument (w : World) (s : SourceId) (name text tag : String) (e : Option ExecutableId) :
    w.Retains (w.setDocument s name text tag e).1 := by
  obtain ⟨x, hx, -⟩ := exists_createDocument w s name text tag e
  unfold World.setDocument
  rw [hx]
  cases w.cached? s name with
  | none => exact (addDocument w x).trans (of_eq rfl)
  | some old =>
      have hinsert : w.Retains ((w.addDocument x).1.modifySource s fun source =>
          { source with byName := source.byName.insert name (w.addDocument x).2 }) := (addDocument w x).trans (of_eq rfl)
      refine Retains.trans ?_ (invalidateDependents _ s name)
      exact (hinsert.trans (invalidate _ old)).trans (of_eq rfl)

theorem compile (w : World) (o : Draft) : w.Retains (w.compile o).1 :=
  Act.relates_compile (fun _ => of_eq rfl) (fun _ _ _ => trans) (fun _ _ _ => of_eq rfl) (fun _ => of_eq rfl)
    (fun w s _ _ _ _ => setDocument w s _ _ _ _) (fun _ _ _ => of_eq rfl) w

end Retains

/-- The first executable of a document is the one that was compiled for it. -/
theorem afterCreating_of_compile {isText : Bool} {compilation : Compilation} (hd : d.index < w.documents.length)
    (hnone : (w.document d).executable = none)
    (hcompile : w.compile (Move.draftOf w s name d isText compilation) = (w₁, .ok e)) :
    ∃ w₂, Move.afterCreating w s name d isText compilation = Move.reply w₂ (.executable e) ∧
      w₂.Bears d e (w₁.executable e) := by
  have hnone₁ : (w₁.document d).executable = none := by
    have hretains := Retains.compile w (Move.draftOf w s name d isText compilation)
    rw [hcompile] at hretains
    exact (hretains.executable d hd).trans hnone
  have hd₁ : d.index < w₁.documents.length := by
    have hretains := Retains.compile w (Move.draftOf w s name d isText compilation)
    rw [hcompile] at hretains
    exact Nat.lt_of_lt_of_le hd hretains.documents
  have hattach : w₁.attachExecutable d e = (w₁.modifyDocument d fun doc =>
      { doc.addDependencies (w₁.executable e).dependencies with executable := some e }, e) := by
    unfold attachExecutable
    rw [hnone₁]
  refine ⟨(w₁.attachExecutable d e).1, ?_, ?_, ?_⟩
  · unfold Move.afterCreating
    rw [hnone, hcompile]
    dsimp only
    rw [hattach]
  · rw [hattach]
    dsimp only
    rw [document_modifyDocument w₁ _ d hd₁, if_pos rfl]
  · have hlt := (isCompiled_of_compile hcompile).1
    rw [executables_attachExecutable]
    unfold executable
    rw [List.getElem?_eq_getElem hlt]
    rfl

theorem afterCreating_of_bears (h : w.Bears d e x) (s : SourceId) (name : String) (isText : Bool) (compilation : Compilation) :
    Move.afterCreating w s name d isText compilation = Move.reply w (.executable e) := by
  unfold Move.afterCreating
  rw [h.document]

theorem Finds.exists_cons {sources : List SourceId} (h : Finds id name d w sources s w') :
    ∃ first rest, sources = first :: rest := by
  cases h with
  | here _ => exact ⟨_, _, rfl⟩
  | next _ _ _ => exact ⟨_, _, rfl⟩

/-- The service goes on with the executable that the document gets in the source where it is found. -/
theorem ends_searchIn {sources : List SourceId} {first : SourceId} {rest : List SourceId} {isText : Bool}
    {compilation : Compilation} (h : Finds id name d w sources s w₁) (hsources : sources = first :: rest)
    (hcreate : Move.afterCreating w₁ s name d isText compilation = Move.reply w₂ (.executable e)) :
    (Move.searchIn w first rest name isText compilation).Ends id w₂ (.ok (.executable e)) := by
  induction h generalizing first rest with
  | @here w w₁ s tail hlookup =>
      cases hsources
      have hcreated : Task.Ends id w ⟨[], .call (.createOnce s name isText compilation)⟩ w₂ (.ok (.executable e)) := by
        rw [Task.ends_call]
        refine (Move.ends_call_of_ends hlookup).2 ?_
        change (Move.afterCreating w₁ s name d isText compilation).Ends id w₂ (.ok (.executable e))
        rw [hcreate]
        exact Move.ends_settle.2 ⟨rfl, rfl⟩
      exact (Move.ends_call_of_ends hcreated).2 (Move.ends_settle.2 ⟨rfl, rfl⟩)
  | @next w w' w₁ s s' tail f missing hlookup hmissing hrest ih =>
      cases hsources
      have hcreated : Task.Ends id w ⟨[], .call (.createOnce s name isText compilation)⟩ w' (.error (.fault f)) := by
        rw [Task.ends_call]
        exact (Move.ends_call_of_ends hlookup).2 (Move.ends_settle.2 ⟨rfl, rfl⟩)
      refine (Move.ends_call_of_ends hcreated).2 ?_
      obtain ⟨second, tail, rfl⟩ := hrest.exists_cons
      change (Move.afterSearching w' (second :: tail) name isText compilation (.error (.fault f))).Ends id w₂ _
      unfold Move.afterSearching
      dsimp only
      rw [hmissing]
      exact ih rfl hcreate

section requests

variable {c : Call} {host : Host} {isText : Bool} {d' : DocumentId} {e' : ExecutableId} {sources : List SourceId}

theorem ends_request (hhost : w.host = some host) (hc : c.request? = some (name, isText))
    (hfinds : Finds id name d w (host.main :: host.libraries) s w₁)
    (hcreate : Move.afterCreating w₁ s name d isText host.compilation = Move.reply w₂ (.executable e)) :
    Task.Ends id w ⟨[], .call c⟩ w' o ↔ (c.goesOn w₂ e).Ends id w' o := by
  have hsearch := ends_searchIn hfinds rfl hcreate
  have hget : Task.Ends id w ⟨[], .call (.getExecutable name isText)⟩ w₂ (.ok (.executable e)) := by
    rw [Task.ends_call]
    change (Move.getExecutable w name isText).Ends id w₂ (.ok (.executable e))
    unfold Move.getExecutable
    rw [hhost]
    exact hsearch
  cases c with
  | getExecutable _ _ =>
      cases hc
      constructor
      · intro h
        obtain ⟨rfl, rfl⟩ := h.unique hget
        exact Move.ends_settle.2 ⟨rfl, rfl⟩
      · intro h
        obtain ⟨rfl, rfl⟩ := Move.ends_settle.1 h
        exact hget
  | «include» _ _ =>
      cases hc
      exact Task.ends_call.trans (Move.ends_call_of_ends hget)
  | runSource _ _ =>
      cases hc
      exact Task.ends_call.trans (Move.ends_call_of_ends hget)
  | _ => cases hc

theorem Bears.finds (h : w.Bears d e x) (hfinds : Finds id name d' w sources s w') : w'.Bears d e x := by
  induction hfinds with
  | here hlookup => exact h.chores (lookup_of_ends hlookup).chores
  | next hlookup _ _ ih => exact ih (h.chores (lookup_of_ends hlookup).chores)

theorem Bears.ends {t : Task} (h : w.Bears d e x) (hends : Task.Ends id w t w' o) (ht : t.stack.all Frame.isAside = true) :
    w'.Bears d e x :=
  (keeps_bears d e x).strides (hends.strides_of_amid (.aside ht) fun _ _ _ => trivial) h

theorem Bears.goesOn (h : w.Bears d e x) (hends : (c.goesOn w e').Ends id w' o) : w'.Bears d e x := by
  have hfetched (name : String) (isText : Bool) (c : ContextId)
      (hends : (Move.afterFetched w name isText c e').Ends id w' o) : w'.Bears d e x := by
    refine Bears.ends ?_ hends rfl
    unfold Move.afterFetched
    cases w.host with
    | none => exact h
    | some host =>
        cases isText with
        | false => exact h
        | true => exact h.of_ages (ages_recordDependency _ _ _ _) (makes_of_eq (executables_recordDependency _ _ _ _))
  cases c with
  | «include» name c => exact hfetched name true c hends
  | runSource name c => exact hfetched name false c hends
  | _ => exact h.ends hends rfl

theorem isCompiled_of_asMade {registry : Registry} {draft : Draft} {raw : List RawSegment} (h : y.asMade = x.asMade)
    (hx : x.IsCompiled registry draft raw) : y.IsCompiled registry draft raw := by
  have hexposed : y.asMade.exposed = x.asMade.exposed := congrArg Executable.exposed h
  have hsegments : y.asMade.segments = x.asMade.segments := congrArg Executable.segments h
  have hdependencies : y.asMade.dependencies = x.asMade.dependencies := congrArg Executable.dependencies h
  exact ⟨hexposed.trans hx.exposed, hdependencies ▸ hx.written, hsegments ▸ hx.segments,
    hsegments ▸ hx.ready⟩

theorem Bears.asMade_eq (h : w.Bears d e x) : (w.executable e).asMade = x.asMade := by
  have hmade := h.made
  unfold executable
  cases hfound : w.executables[e.index]? with
  | none =>
      rw [hfound] at hmade
      cases hmade
  | some y =>
      rw [hfound] at hmade
      exact Option.some.inj hmade

end requests

/-- The modes of a document come to the same segments. -/
def SameModes (registry : Registry) (names : List String) (o o' : Draft) : Prop :=
  ∃ raw raw', o.rawSegments names = .ok raw ∧ o'.rawSegments names = .ok raw' ∧
    collapsed (registry.forms o.exposed) o.tag raw = collapsed (registry.forms o'.exposed) o'.tag raw'

/-- What was compiled of a document in one mode is what is compiled in another one where both come to the same. -/
theorem isCompiled_iff {registry : Registry} {o o' : Draft} (hx : ∃ raw, x.IsCompiled registry o raw)
    (hexposed : o'.exposed = o.exposed) :
    (∃ raw, x.IsCompiled registry o' raw) ↔ SameModes registry x.dependencies o o' := by
  obtain ⟨raw, hx⟩ := hx
  constructor
  · rintro ⟨raw', hx'⟩
    exact ⟨raw, raw', hx.written, hx'.written, hx.segments.symm.trans hx'.segments⟩
  · rintro ⟨raw₁, raw', hraw, hraw', hsame⟩
    cases Except.ok.inj (hx.written.symm.trans hraw)
    exact ⟨raw', hexposed ▸ hx.exposed, hraw', hx.segments.trans hsame, hx.ready⟩

/-- The first call for a document decides what it runs as. Every later call goes on with the executable that was compiled
for that one, and so it runs the document in a mode of its own only as far as that comes to the same. -/
theorem runs_in_first_mode {w w₀ w₁ w₂ w₃ w₄ wc : World} {id₀ id : TaskId} {host host' : Host} {c₀ c : Call}
    {name₀ name : String} {isText₀ isText : Bool} {s₀ s : SourceId} {d : DocumentId} {e : ExecutableId} {o₀ o : Outcome}
    (hhost : w.host = some host) (hfirst : c₀.request? = some (name₀, isText₀))
    (hfinds₀ : Finds id₀ name₀ d w (host.main :: host.libraries) s₀ w₀)
    (hd : d.index < w₀.documents.length) (hnone : (w₀.document d).executable = none)
    (hcompile : w₀.compile (Move.draftOf w₀ s₀ name₀ d isText₀ host.compilation) = (wc, .ok e))
    (hends₀ : Task.Ends id₀ w ⟨[], .call c₀⟩ w₁ o₀)
    (hcourse : ReflTransGen (Course.Turn (fun _ _ => True) fun _ _ => True) ⟨w₁, none⟩ ⟨w₂, none⟩)
    (hhost' : w₂.host = some host') (hcall : c.request? = some (name, isText))
    (hfinds : Finds id name d w₂ (host'.main :: host'.libraries) s w₃) :
    (Task.Ends id w₂ ⟨[], .call c⟩ w₄ o ↔ (c.goesOn w₃ e).Ends id w₄ o) ∧
    (∃ raw, (w₃.executable e).IsCompiled w₀.registry (Move.draftOf w₀ s₀ name₀ d isText₀ host.compilation) raw) ∧
    ((∃ raw, (w₃.executable e).IsCompiled w₀.registry (Move.draftOf w₀ s₀ name₀ d isText host.compilation) raw) ↔
      SameModes w₀.registry (w₃.executable e).dependencies (Move.draftOf w₀ s₀ name₀ d isText₀ host.compilation)
        (Move.draftOf w₀ s₀ name₀ d isText host.compilation)) := by
  obtain ⟨wb, hcreate, hbears⟩ := afterCreating_of_compile hd hnone hcompile
  have hends := (ends_request hhost hfirst hfinds₀ hcreate).1 hends₀
  have hkept : w₃.Bears d e (wc.executable e) :=
    ((keeps_bears d e _).holds hcourse (hbears.goesOn hends)).finds hfinds
  have hcompiled : ∃ raw, (w₃.executable e).IsCompiled w₀.registry
      (Move.draftOf w₀ s₀ name₀ d isText₀ host.compilation) raw := by
    obtain ⟨-, raw, hraw⟩ := isCompiled_of_compile hcompile
    exact ⟨raw, isCompiled_of_asMade hkept.asMade_eq hraw⟩
  exact ⟨ends_request hhost' hcall hfinds (afterCreating_of_bears hkept s name isText host'.compilation), hcompiled,
    isCompiled_iff hcompiled rfl⟩

end World

/-- A document that is a program as well, which writes a letter. -/
def twoModes : World :=
  ({ digramWorld failingCommand with
      sources := [{ storage := .memory "" }]
      host := some ⟨⟨0⟩, [], { tag := "a" }⟩ }.setDocument ⟨0⟩ "n" "=y" "" none).1

/-- The document is included. Then it is looked up, and run as source. -/
def includedThenRun : Option (World × World × World) :=
  (Task.drive ⟨0⟩ 60 twoModes ⟨[], .call (.include "n" ⟨0⟩)⟩).bind fun x =>
    (Task.drive ⟨0⟩ 60 x.1 ⟨[], .call (.getDocument ⟨0⟩ "n")⟩).bind fun y =>
      (Task.drive ⟨0⟩ 60 x.1 ⟨[], .call (.runSource "n" ⟨0⟩)⟩).bind fun z =>
        if World.gives ⟨0⟩ y.2 then some (x.1, y.1, z.1) else none

namespace World

theorem exists_of_includedThenRun {w₁ w₃ w₄ : World} (h : includedThenRun = some (w₁, w₃, w₄)) :
    ∃ o₁ o₄, Task.Ends ⟨0⟩ twoModes ⟨[], .call (.include "n" ⟨0⟩)⟩ w₁ o₁ ∧
      Task.Ends ⟨0⟩ w₁ ⟨[], .call (.getDocument ⟨0⟩ "n")⟩ w₃ (.ok (.document ⟨0⟩)) ∧
      Task.Ends ⟨0⟩ w₁ ⟨[], .call (.runSource "n" ⟨0⟩)⟩ w₄ o₄ := by
  obtain ⟨⟨x, o₁⟩, hincluded, h⟩ := Option.bind_eq_some_iff.1 h
  obtain ⟨⟨y, o⟩, hfound, h⟩ := Option.bind_eq_some_iff.1 h
  obtain ⟨⟨z, o₄⟩, hrun, h⟩ := Option.bind_eq_some_iff.1 h
  split at h
  · next hgives =>
      cases h
      cases eq_of_gives hgives
      exact ⟨o₁, o₄, Task.ends_of_drive hincluded, Task.ends_of_drive hfound, Task.ends_of_drive hrun⟩
  · cases h

/-- What is run as source writes its text, since it was included before. -/
theorem runs_in_first_mode_of_included :
    ∃ w₁ w₃ w₄ o₁ o₄, Task.Ends ⟨0⟩ twoModes ⟨[], .call (.include "n" ⟨0⟩)⟩ w₁ o₁ ∧
      Finds ⟨0⟩ "n" ⟨0⟩ w₁ [⟨0⟩] ⟨0⟩ w₃ ∧ Task.Ends ⟨0⟩ w₁ ⟨[], .call (.runSource "n" ⟨0⟩)⟩ w₄ o₄ ∧
      (w₄.context ⟨0⟩).out = "=y=y" ∧ ((Call.runSource "n" ⟨0⟩).goesOn w₃ ⟨0⟩).Ends ⟨0⟩ w₄ o₄ ∧
      ¬ ∃ raw, (w₃.executable ⟨0⟩).IsCompiled twoModes.registry
        (Move.draftOf (twoModes.validate ⟨0⟩) ⟨0⟩ "n" ⟨0⟩ false { tag := "a" }) raw := by
  have hran : includedThenRun.any (fun (w₁, w₃, w₄) => (w₁.host.map fun h => (h.main, h.libraries)) = some (⟨0⟩, []) &&
      (w₃.executable ⟨0⟩).dependencies = [] && (w₄.context ⟨0⟩).out = "=y=y") = true := by
    decide +kernel
  obtain ⟨⟨w₁, w₃, w₄⟩, hends, hran⟩ := (Option.any_eq_true _ _).1 hran
  simp only [Bool.and_eq_true, decide_eq_true_eq] at hran
  obtain ⟨⟨hhost, hdependencies⟩, hout⟩ := hran
  obtain ⟨o₁, o₄, hincluded, hfound, hrun⟩ := exists_of_includedThenRun hends
  obtain ⟨⟨main, libraries, compilation⟩, hhost, heq⟩ := Option.map_eq_some_iff.1 hhost
  cases heq
  have hlookup : Task.Ends ⟨0⟩ twoModes ⟨[], .call (.getDocument ⟨0⟩ "n")⟩ (twoModes.validate ⟨0⟩) (.ok (.document ⟨0⟩)) :=
    Task.ends_of_drive (n := 10) (by rfl)
  have hcompile : ((twoModes.validate ⟨0⟩).compile
      (Move.draftOf (twoModes.validate ⟨0⟩) ⟨0⟩ "n" ⟨0⟩ true { tag := "a" })).2.toOption = some ⟨0⟩ := by
    decide +kernel
  obtain ⟨hgoes, -, hmodes⟩ : (Task.Ends ⟨0⟩ w₁ ⟨[], .call (.runSource "n" ⟨0⟩)⟩ w₄ o₄ ↔
      ((Call.runSource "n" ⟨0⟩).goesOn w₃ ⟨0⟩).Ends ⟨0⟩ w₄ o₄) ∧ _ ∧ _ :=
    runs_in_first_mode rfl rfl (.here hlookup) (by decide) rfl (Prod.ext rfl (eq_ok_of_toOption hcompile))
      hincluded .refl hhost rfl (.here hfound)
  refine ⟨w₁, w₃, w₄, o₁, o₄, hincluded, .here hfound, hrun, hout, hgoes.1 hrun, fun hsource => ?_⟩
  obtain ⟨raw, raw', hraw, hraw', hsame⟩ := hmodes.1 hsource
  rw [hdependencies] at hraw hraw'
  have hsource : ((Move.draftOf (twoModes.validate ⟨0⟩) ⟨0⟩ "n" ⟨0⟩ false { tag := "a" }).rawSegments []).toOption =
      some [⟨.plain, "a", 1, 1, "=y"⟩] := by
    decide +kernel
  have htext : ((Move.draftOf (twoModes.validate ⟨0⟩) ⟨0⟩ "n" ⟨0⟩ true { tag := "a" }).rawSegments []).toOption =
      some [⟨.literal, "a", 1, 1, "=y"⟩] := by
    decide +kernel
  rw [hraw] at htext
  rw [hraw'] at hsource
  cases htext
  cases hsource
  exact absurd hsame (by decide +kernel)

end World

end ScriptedText
