import ScriptedText.Engine.Machine
import ScriptedText.Proofs.Engine.Act

/-!
What the steps of a task do to a world, locks and claims apart: it evolves by a few kinds of updates.
-/

namespace ScriptedText

section reading

variable {α β : Type} {l : List α} {i : Nat} {f : α → α} {g : α → β}

theorem map_modify {h : β → β} (hcomm : ∀ x, g (f x) = h (g x)) : (l.modify i f).map g = (l.map g).modify i h := by
  apply List.ext_getElem?
  intro j
  simp only [List.getElem?_map, List.getElem?_modify]
  cases l[j]? with
  | none => rfl
  | some x => by_cases hi : i = j <;> simp [hi, hcomm]

theorem map_modify_of_eq (hsame : ∀ x, l[i]? = some x → g (f x) = g x) : (l.modify i f).map g = l.map g := by
  apply List.ext_getElem?
  intro j
  simp only [List.getElem?_map, List.getElem?_modify]
  by_cases hi : i = j
  · subst hi
    cases hx : l[i]? with
    | none => rfl
    | some x => simp [hsame x hx]
  · simp [hi]

theorem read_modify (hsame : ∀ x, g (f x) = g x) (j : Nat) (d : α) :
    g ((l.modify i f)[j]?.getD d) = g (l[j]?.getD d) := by
  have hread (l : List α) : g (l[j]?.getD d) = (l.map g)[j]?.getD (g d) := by
    rw [List.getElem?_map]
    cases l[j]? <;> rfl
  rw [hread, hread, map_modify_of_eq fun x _ => hsame x]

end reading

namespace World

/-- A world that comes from another one by looking documents up, reading and compiling them. Contexts, locks and those
who wait are as they were, executables are only added, and the events are none of a run. -/
inductive Looks : World → World → Prop
  | refl (w : World) : Looks w w
  | modifySource {w w₁ : World} (h : Looks w w₁) (s : SourceId) (f : Source → Source) : Looks w (w₁.modifySource s f)
  | modifyDocument {w w₁ : World} (h : Looks w w₁) (d : DocumentId) (f : Document → Document) :
      Looks w (w₁.modifyDocument d f)
  | addDocument {w w₁ : World} (h : Looks w w₁) (x : Document) : Looks w (w₁.addDocument x).1
  | addExecutable {w w₁ : World} (h : Looks w w₁) (x : Executable) (hx : x.IsNew) : Looks w (w₁.addExecutable x).1
  | emit {w w₁ : World} (h : Looks w w₁) (e : Event) (he : e.isAside = true) : Looks w (w₁.emit e)
  | countInFlow {w w₁ : World} (h : Looks w w₁) (n : Nat) : Looks w { w₁ with inFlowCount := n }

/-- A world that comes from another one by looking documents up, by events, and by changes to contexts that claim none. -/
inductive Evolves : World → World → Prop
  | looks {w w' : World} (h : Looks w w') : Evolves w w'
  | modifyContext {w w₁ : World} (h : Evolves w w₁) (c : ContextId) (f : Context → Context)
      (hf : (f (w₁.context c)).immutable = (w₁.context c).immutable) : Evolves w (w₁.modifyContext c f)
  | emit {w w₁ : World} (h : Evolves w w₁) (e : Event) : Evolves w (w₁.emit e)
  | behind {w w₁ w₂ : World} (h : Evolves w w₁) (hlooks : Looks w₁ w₂) : Evolves w w₂

variable {w w' w₁ w₂ : World}

theorem Looks.trans (h : Looks w w₁) (h' : Looks w₁ w₂) : Looks w w₂ := by
  induction h' with
  | refl => exact h
  | modifySource _ s f ih => exact ih.modifySource s f
  | modifyDocument _ d f ih => exact ih.modifyDocument d f
  | addDocument _ x ih => exact ih.addDocument x
  | addExecutable _ x hx ih => exact ih.addExecutable x hx
  | emit _ e he ih => exact ih.emit e he
  | countInFlow _ n ih => exact ih.countInFlow n

theorem Evolves.refl (w : World) : Evolves w w := .looks (.refl w)

theorem Evolves.trans (h : Evolves w w₁) (h' : Evolves w₁ w₂) : Evolves w w₂ := by
  induction h' with
  | looks hlooks => exact h.behind hlooks
  | modifyContext _ c f hf ih => exact ih.modifyContext c f hf
  | emit _ e ih => exact ih.emit e
  | behind _ hlooks ih => exact ih.behind hlooks

/-! What a source does with its documents. -/

section cache

variable (w : World) (s : SourceId) (name text tag : String) (d : DocumentId) (e : Option ExecutableId)

theorem looks_attachExecutable (x : ExecutableId) : Looks w (w.attachExecutable d x).1 := by
  unfold attachExecutable
  split
  · exact .refl w
  · exact (Looks.refl w).modifyDocument d _

theorem looks_createDocument : Looks w (w.createDocument s name text tag e).1 := by
  cases e with
  | none => exact (Looks.refl w).addDocument _
  | some x => exact ((Looks.refl w).addDocument _).trans (looks_attachExecutable _ _ x)

theorem looks_dropInFlow : Looks w (w.dropInFlow s d) := (Looks.refl w).modifySource s _

theorem looks_invalidateDependents : Looks w (w.invalidateDependents s name) := by
  unfold invalidateDependents
  generalize (w.source s).byName.values = ds
  induction ds generalizing w with
  | nil => exact .refl w
  | cons d ds ih =>
      refine Looks.trans ?_ (ih _)
      dsimp only
      split
      · exact (Looks.refl w).modifyDocument d _
      · exact .refl w

theorem looks_setDocument : Looks w (w.setDocument s name text tag e).1 := by
  have hcreate := looks_createDocument w s name text tag e
  unfold setDocument
  generalize w.createDocument s name text tag e = created at hcreate
  obtain ⟨w₁, d⟩ := created
  have hinsert := hcreate.modifySource s fun source => { source with byName := source.byName.insert name d }
  cases w.cached? s name with
  | none => exact hinsert
  | some old =>
      have hold := (hinsert.modifyDocument old Document.invalidate).modifySource s fun source =>
        { source with byFile := (source.byFile.eraseValue old).1 }
      exact ((hold.trans (looks_dropInFlow _ s old)).emit _ rfl).trans (looks_invalidateDependents _ s name)

theorem looks_keepByName : Looks w (w.keepByName s name d).1 := (Looks.refl w).modifySource s _

theorem looks_keepByFile (file : Files.Path) : Looks w (w.keepByFile s file d).1 :=
  (Looks.refl w).modifySource s _

theorem looks_evict : Looks w (w.evict s d) :=
  (((Looks.refl w).modifySource s _).trans (looks_dropInFlow _ s d)).emit _ rfl

theorem looks_renew : Looks w (w.renew s name d).1 := by
  have hdrop := ((Looks.refl w).emit (.evicted name .invalid) rfl).trans (looks_dropInFlow _ s d)
  have hcreate := hdrop.trans (looks_createDocument _ s name
    (((w.emit (.evicted name .invalid)).dropInFlow s d).document d).text
    (((w.emit (.evicted name .invalid)).dropInFlow s d).document d).tag none)
  unfold renew
  dsimp only
  split
  · exact hcreate.modifySource s _
  · exact hcreate

end cache

/-- What no step changes: the registry, whether a context is claimed, and how an executable is exposed. -/
structure Keeps (w w' : World) : Prop where
  registry : w'.registry = w.registry
  contexts : w'.contexts.length = w.contexts.length
  immutable : ∀ c, (w'.context c).immutable = (w.context c).immutable
  executables : w.executables.length ≤ w'.executables.length
  exposed : ∀ e, e.index < w.executables.length → (w'.executable e).exposed = (w.executable e).exposed

namespace Keeps

theorem of_eq (hr : w₁.registry = w.registry) (hc : w₁.contexts = w.contexts) (he : w₁.executables = w.executables) :
    Keeps w w₁ where
  registry := hr
  contexts := by rw [hc]
  immutable c := by unfold context; rw [hc]
  executables := Nat.le_of_eq (by rw [he])
  exposed e _ := by unfold executable; rw [he]

theorem refl (w : World) : Keeps w w := of_eq rfl rfl rfl

theorem trans (h : Keeps w w₁) (h' : Keeps w₁ w₂) : Keeps w w₂ where
  registry := h'.registry.trans h.registry
  contexts := h'.contexts.trans h.contexts
  immutable c := (h'.immutable c).trans (h.immutable c)
  executables := Nat.le_trans h.executables h'.executables
  exposed e he := (h'.exposed e (Nat.lt_of_lt_of_le he h.executables)).trans (h.exposed e he)

theorem modifyContext (c : ContextId) {f : Context → Context}
    (hf : (f (w.context c)).immutable = (w.context c).immutable) : Keeps w (w.modifyContext c f) where
  registry := rfl
  contexts := List.length_modify ..
  immutable c' := by
    unfold World.modifyContext context at *
    simp only [List.getElem?_modify]
    by_cases hc : c.index = c'.index
    · rw [hc] at hf
      cases hx : w.contexts[c'.index]? with
      | none => rfl
      | some x =>
          rw [hx] at hf
          simpa [hc] using hf
    · simp [hc]
  executables := Nat.le_refl _
  exposed _ _ := rfl

theorem ran (w : World) (e : ExecutableId) (now : Int) : Keeps w (w.modifyExecutable e (·.ran now)) where
  registry := rfl
  contexts := rfl
  immutable _ := rfl
  executables := Nat.le_of_eq (List.length_modify ..).symm
  exposed e' _ := read_modify (f := fun x : Executable => x.ran now) (g := Executable.exposed) (fun _ => rfl) e'.index _

end Keeps

theorem executable_of_grown {e : ExecutableId} (h : w.executables <+: w'.executables)
    (he : e.index < w.executables.length) : w'.executable e = w.executable e := by
  unfold executable
  rw [List.getElem?_eq_getElem he, List.getElem?_eq_getElem (Nat.lt_of_lt_of_le he h.length_le), h.getElem he]

namespace Looks

theorem registry_eq (h : Looks w w') : w'.registry = w.registry := by
  induction h with
  | refl => rfl
  | _ => assumption

theorem contexts_eq (h : Looks w w') : w'.contexts = w.contexts := by
  induction h with
  | refl => rfl
  | _ => assumption

theorem locks_eq (h : Looks w w') : w'.locks = w.locks := by
  induction h with
  | refl => rfl
  | _ => assumption

theorem waiters_eq (h : Looks w w') : w'.waiters = w.waiters := by
  induction h with
  | refl => rfl
  | _ => assumption

theorem clock_eq (h : Looks w w') : w'.clock = w.clock := by
  induction h with
  | refl => rfl
  | _ => assumption

theorem executables_grow (h : Looks w w') : w.executables <+: w'.executables := by
  induction h with
  | refl => exact List.prefix_refl _
  | addExecutable _ x hx ih => exact ih.trans (List.prefix_append _ _)
  | _ => assumption

theorem keeps (h : Looks w w') : Keeps w w' where
  registry := h.registry_eq
  contexts := congrArg List.length h.contexts_eq
  immutable c := by
    unfold context
    rw [h.contexts_eq]
  executables := h.executables_grow.length_le
  exposed _ he := congrArg Executable.exposed (executable_of_grown h.executables_grow he)

end Looks

namespace Evolves

theorem locks_eq (h : Evolves w w') : w'.locks = w.locks := by
  induction h with
  | looks hlooks => exact hlooks.locks_eq
  | modifyContext => assumption
  | emit => assumption
  | behind _ hlooks ih => exact hlooks.locks_eq.trans ih

theorem waiters_eq (h : Evolves w w') : w'.waiters = w.waiters := by
  induction h with
  | looks hlooks => exact hlooks.waiters_eq
  | modifyContext => assumption
  | emit => assumption
  | behind _ hlooks ih => exact hlooks.waiters_eq.trans ih

theorem clock_eq (h : Evolves w w') : w'.clock = w.clock := by
  induction h with
  | looks hlooks => exact hlooks.clock_eq
  | modifyContext => assumption
  | emit => assumption
  | behind _ hlooks ih => exact hlooks.clock_eq.trans ih

theorem executables_grow (h : Evolves w w') : w.executables <+: w'.executables := by
  induction h with
  | looks hlooks => exact hlooks.executables_grow
  | modifyContext => assumption
  | emit => assumption
  | behind _ hlooks ih => exact ih.trans hlooks.executables_grow

theorem keeps (h : Evolves w w') : Keeps w w' := by
  induction h with
  | looks hlooks => exact hlooks.keeps
  | modifyContext _ c f hf ih => exact ih.trans (.modifyContext c hf)
  | emit _ e ih => exact ih.trans (.of_eq rfl rfl rfl)
  | behind _ hlooks ih => exact ih.trans hlooks.keeps

end Evolves

/-- A release gives the claim up; what follows changes no claim. -/
theorem release_cases (w : World) (e : ExecutableId) :
    ((w.executable e).claimed = none ∧ w.release e = w) ∨
      ∃ c, (w.executable e).claimed = some c ∧
        Evolves ((w.modifyExecutable e Executable.unclaim).modifyContext c fun x => { x with immutable := false })
          (w.release e) := by
  cases hclaimed : (w.executable e).claimed with
  | none =>
      refine .inl ⟨rfl, ?_⟩
      unfold release
      rw [hclaimed]
  | some c =>
      refine .inr ⟨c, rfl, ?_⟩
      unfold release
      rw [hclaimed]
      dsimp only
      split
      · exact .refl _
      · split
        · split
          · exact ((Evolves.refl _).modifyContext c _ rfl).emit _
          · exact (Evolves.refl _).modifyContext c _ rfl
        · exact .refl _

theorem locks_release (w : World) (e : ExecutableId) : (w.release e).locks = w.locks := by
  rcases w.release_cases e with ⟨-, heq⟩ | ⟨c, -, h⟩
  · rw [heq]
  · exact h.locks_eq

theorem waiters_release (w : World) (e : ExecutableId) : (w.release e).waiters = w.waiters := by
  rcases w.release_cases e with ⟨-, heq⟩ | ⟨c, -, h⟩
  · rw [heq]
  · exact h.waiters_eq

theorem registry_release (w : World) (e : ExecutableId) : (w.release e).registry = w.registry := by
  rcases w.release_cases e with ⟨-, heq⟩ | ⟨c, -, h⟩
  · rw [heq]
  · exact h.keeps.registry

end World

open World Act

/-! Compilation. -/

section compilation

theorem looks_trans (w₁ w₂ w₃ : World) (h : Looks w₁ w₂) (h' : Looks w₂ w₃) : Looks w₁ w₃ := h.trans h'

theorem looks_emit (w : World) (e : Event) (he : e.isAside = true) : Looks w (w.emit e) := (Looks.refl w).emit e he

theorem looks_compile (w : World) (o : Draft) : Looks w (w.compile o).1 := by
  refine relates_compile Looks.refl looks_trans looks_emit ?_ ?_ ?_ w
  · exact fun w => (Looks.refl w).countInFlow (w.inFlowCount + 1)
  · exact fun w s name text e _ => looks_setDocument w s name text "" (some e)
  · exact fun w x hx => (Looks.refl w).addExecutable x hx

end compilation

/-! The steps of a task. -/

/-- Neither a frame of a lock nor one of a claim. -/
def Frame.isPlain : Frame → Bool
  | .granted _ _ | .holding _ | .claiming _ => false
  | _ => true

/-- Whether the frame waits for what comes of looking a document up. -/
def Frame.looksUp : Frame → Bool
  | .dependency _ _ | .fileTime _ _ | .named _ _ _ | .resolving _ _ | .filed _ _ _ _ | .reading _ _ _ | .listing _
  | .collecting _ _ _ | .creating _ _ _ _ | .searching _ _ _ _ => true
  | _ => false

/-- Neither a claim nor a call of an entry point. -/
def Call.isPlain : Call → Bool
  | .makeEnterable _ | .enter _ _ _ => false
  | _ => true

def Call.looksUp : Call → Bool
  | .isValid _ _ | .getDocument _ _ | .getDocuments _ | .createOnce _ _ _ _ | .getExecutable _ _ => true
  | _ => false

def Control.isPlain : Control → Bool
  | .call c => c.isPlain
  | .waiting => false
  | _ => true

def Control.looksUp : Control → Bool
  | .call c => c.looksUp
  | .settled _ => true
  | _ => false

theorem Frame.isPlain_of_looksUp {f : Frame} (h : f.looksUp) : f.isPlain := by
  cases f <;> first | rfl | cases h

theorem Control.isPlain_of_looksUp {c : Control} (h : c.looksUp) : c.isPlain := by
  cases c with
  | call c => cases c <;> first | rfl | cases h
  | settled o => rfl
  | _ => cases h

namespace Move

/-- A move of a lookup. -/
structure Searches (w : World) (m : Move) : Prop where
  looks : Looks w m.world
  push : m.push.all Frame.looksUp
  control : m.control.looksUp
  wake : m.wake = []

/-- A move after which the world has evolved, and which begins nothing that concerns locks or claims. -/
structure Quiet (w : World) (m : Move) : Prop where
  evolves : Evolves w m.world
  push : m.push.all Frame.isPlain
  control : m.control.isPlain
  wake : m.wake = []

variable {w w₁ : World} {m : Move}

theorem Searches.behind (hm : Searches w₁ m) (h : Looks w w₁) : Searches w m :=
  ⟨h.trans hm.looks, hm.push, hm.control, hm.wake⟩

theorem Searches.quiet (h : Searches w m) : Quiet w m where
  evolves := .looks h.looks
  push := List.all_eq_true.2 fun f hf => f.isPlain_of_looksUp (List.all_eq_true.1 h.push f hf)
  control := Control.isPlain_of_looksUp h.control
  wake := h.wake

theorem Quiet.behind (hm : Quiet w₁ m) (h : Evolves w w₁) : Quiet w m :=
  ⟨h.trans hm.evolves, hm.push, hm.control, hm.wake⟩

variable (w : World) (t : TaskId)

theorem searches_settle (o : Outcome) : Searches w (settle w o) := ⟨.refl w, rfl, rfl, rfl⟩

theorem quiet_settle (o : Outcome) {push : List Frame} (hpush : push.all Frame.isPlain) : Quiet w (settle w o push) :=
  ⟨.refl w, hpush, rfl, rfl⟩

section validity

variable (d : DocumentId) (visited : List DocumentId)

theorem searches_checkFile : Searches w (checkFile w d visited) := by
  unfold checkFile
  dsimp only
  split
  · exact ⟨(Looks.refl w).modifyDocument d _, rfl, rfl, rfl⟩
  · split
    · exact ⟨.refl w, rfl, rfl, rfl⟩
    · exact ⟨(Looks.refl w).modifyDocument d _, rfl, rfl, rfl⟩

theorem searches_checkFrom (i : Nat) : Searches w (checkFrom w d visited i) := by
  unfold checkFrom
  split
  · exact ⟨.refl w, rfl, rfl, rfl⟩
  · exact searches_checkFile w d visited

theorem searches_isValid : Searches w (isValid w d visited) := by
  unfold isValid
  split
  · exact ⟨.refl w, rfl, rfl, rfl⟩
  · split
    · exact ⟨.refl w, rfl, rfl, rfl⟩
    · exact searches_checkFrom w d _ 0

theorem searches_afterDependency (i : Nat) (valid : Bool) : Searches w (afterDependency w d i valid visited) := by
  unfold afterDependency
  split
  · exact searches_checkFrom w d visited (i + 1)
  · exact ⟨(Looks.refl w).modifyDocument d _, rfl, rfl, rfl⟩

theorem searches_afterFileTime : Searches w (afterFileTime w d visited) :=
  ⟨(Looks.refl w).modifyDocument d _, rfl, rfl, rfl⟩

end validity

section retrieval

variable (s : SourceId) (name : String) (d : DocumentId) (isText : Bool) (compilation : Compilation)

theorem searches_keptByName : Searches w (keptByName w s name d) := ⟨looks_keepByName w s name d, rfl, rfl, rfl⟩

theorem searches_getDocument : Searches w (getDocument w s name) := by
  unfold getDocument
  split <;> exact ⟨.refl w, rfl, rfl, rfl⟩

theorem searches_afterNamed (valid : Bool) : Searches w (afterNamed w s name d valid) := by
  unfold afterNamed
  split
  · exact ⟨.refl w, rfl, rfl, rfl⟩
  · split
    · exact ⟨looks_renew w s name d, rfl, rfl, rfl⟩
    · have hevict := looks_evict w s d
      dsimp only
      split
      · exact (searches_keptByName _ s name _).behind (hevict.trans (looks_createDocument _ s name _ _ none))
      · exact ⟨hevict, rfl, rfl, rfl⟩

theorem searches_afterResolving : Searches w (afterResolving w s name) := by
  unfold afterResolving
  split
  · exact ⟨.refl w, rfl, rfl, rfl⟩
  · split
    · exact ⟨.refl w, rfl, rfl, rfl⟩
    · split <;> exact ⟨.refl w, rfl, rfl, rfl⟩

theorem searches_afterFiled (file : Files.Path) (valid : Bool) : Searches w (afterFiled w s name file d valid) := by
  unfold afterFiled
  split
  · exact searches_keptByName w s name d
  · exact ⟨looks_evict w s d, rfl, rfl, rfl⟩

theorem searches_afterReading (file : Files.Path) : Searches w (afterReading w s name file) := by
  unfold afterReading
  split
  · exact ⟨.refl w, rfl, rfl, rfl⟩
  · exact (searches_keptByName _ s name _).behind (((Looks.refl w).addDocument _).trans (looks_keepByFile _ s _ file))

theorem searches_getDocuments : Searches w (getDocuments w s) := by
  unfold getDocuments
  split <;> exact ⟨.refl w, rfl, rfl, rfl⟩

theorem searches_collect (names : List String) (found : List DocumentId) : Searches w (collect w s names found) := by
  unfold collect
  split <;> exact ⟨.refl w, rfl, rfl, rfl⟩

theorem searches_afterListing : Searches w (afterListing w s) := by
  unfold afterListing
  split
  · exact ⟨.refl w, rfl, rfl, rfl⟩
  · split
    · exact ⟨.refl w, rfl, rfl, rfl⟩
    · exact searches_collect w s _ []

theorem searches_afterCreating : Searches w (afterCreating w s name d isText compilation) := by
  unfold afterCreating
  split
  · exact ⟨.refl w, rfl, rfl, rfl⟩
  · have hcompile := looks_compile w (draftOf w s name d isText compilation)
    split
    · next h =>
        rw [h] at hcompile
        exact ⟨hcompile, rfl, rfl, rfl⟩
    · next h =>
        rw [h] at hcompile
        exact ⟨hcompile.trans (looks_attachExecutable _ d _), rfl, rfl, rfl⟩

end retrieval

section hosting

variable (name : String) (isText : Bool) (c : ContextId)

theorem looks_recordDependency (host : Host) : Looks w (w.recordDependency host name c) := by
  unfold recordDependency
  split
  · exact .refl w
  · dsimp only
    split
    · split
      · exact (Looks.refl w).modifyDocument _ _
      · exact .refl w
    · exact .refl w

theorem searches_getExecutable : Searches w (getExecutable w name isText) := by
  unfold getExecutable
  split <;> exact ⟨.refl w, rfl, rfl, rfl⟩

theorem searches_afterSearching (libraries : List SourceId) (compilation : Compilation) (o : Outcome) :
    Searches w (afterSearching w libraries name isText compilation o) := by
  unfold afterSearching
  split
  · split <;> exact ⟨.refl w, rfl, rfl, rfl⟩
  · exact ⟨.refl w, rfl, rfl, rfl⟩

theorem quiet_afterFetched (e : ExecutableId) : Quiet w (afterFetched w name isText c e) := by
  unfold afterFetched
  dsimp only
  split
  · split
    · exact ⟨.looks (looks_recordDependency w name c _), rfl, rfl, rfl⟩
    · exact ⟨.refl w, rfl, rfl, rfl⟩
  · exact ⟨.refl w, rfl, rfl, rfl⟩

theorem immutable_markExecuted (x : Context) : (x.markExecuted name).1.immutable = x.immutable := by
  unfold Context.markExecuted
  dsimp only
  split <;> rfl

theorem evolves_markExecuted : Evolves w (markExecuted w name c).1 :=
  (Evolves.refl w).modifyContext c _ (immutable_markExecuted name (w.context c))

theorem quiet_runOnce : Quiet w (runOnce w name c) := by
  have hmark := evolves_markExecuted w name c
  unfold runOnce
  split
  · next h =>
      rw [h] at hmark
      exact ⟨hmark, rfl, rfl, rfl⟩
  · next h =>
      rw [h] at hmark
      exact ⟨hmark, rfl, rfl, rfl⟩

end hosting

section execution

variable (run : Run)

theorem quiet_runHook (hook : Hook) (event : Event) {push : List Frame} (hpush : push.all Frame.isPlain) :
    Quiet w (runHook w hook event push) := by
  unfold runHook
  split
  · exact ⟨.refl w, hpush, rfl, rfl⟩
  · exact ⟨(Evolves.refl w).emit event, hpush, rfl, rfl⟩

theorem quiet_execute (options : RunOptions) : Quiet w (execute w run options) := by
  unfold execute
  dsimp only
  split
  · exact ⟨.refl w, rfl, rfl, rfl⟩
  · exact (quiet_runHook _ _ _ rfl).behind ((Evolves.refl w).emit _)

theorem looks_reportFailure (name : String) (f : Failure) : Looks w (w.reportFailure name f) :=
  relates_reportFailure Looks.refl looks_emit name f w

theorem quiet_close_error (f : Failure) : Quiet w (close w run (.error f)) :=
  ⟨.looks (looks_reportFailure w _ f), rfl, rfl, rfl⟩

theorem quiet_finish (outcome : Except Failure Unit) : Quiet w (finish w run outcome) := quiet_runHook w _ _ rfl

theorem immutable_setService (x : Context) (name : String) (s : Option Service) :
    (x.setService name s).immutable = x.immutable := by
  cases s <;> rfl

theorem quiet_startProgram (s : PlacedSegment) (a : AdapterId) : Quiet w (startProgram w run s a) := by
  unfold startProgram
  dsimp only
  split
  · have hservice : Evolves w (if (w.context run.context).immutable then w else
        w.modifyContext run.context (·.setService (w.executable run.executable).exposed
          (some (Service.handle ⟨run.executable, run.context, run.container⟩)))) := by
      split
      · exact .refl w
      · exact (Evolves.refl w).modifyContext _ _ (immutable_setService _ _ _)
    split
    · exact ⟨hservice.emit _, rfl, rfl, rfl⟩
    · exact ⟨hservice, rfl, rfl, rfl⟩
  · exact ⟨.refl w, rfl, rfl, rfl⟩

theorem quiet_afterProgram (site : Site) (swap : Option Swap) (o : Outcome) :
    Quiet w (afterProgram w run site swap o) := by
  unfold afterProgram
  dsimp only
  cases swap with
  | none => cases o <;> exact ⟨.refl w, rfl, rfl, rfl⟩
  | some swap =>
      have hservice : Evolves w (w.modifyContext run.context (·.setService swap.name swap.previous)) :=
        (Evolves.refl w).modifyContext _ _ (immutable_setService _ _ _)
      cases o <;> exact ⟨hservice, rfl, rfl, rfl⟩

theorem quiet_startEntry (e : Entry) : Quiet w (startEntry w e) := by
  unfold startEntry
  split <;> exact ⟨.refl w, rfl, rfl, rfl⟩

theorem quiet_goInside (inside : Inside) : Quiet w (goInside w inside) := by
  cases inside with
  | program run s a => exact quiet_startProgram w run s a
  | entry e => exact quiet_startEntry w e

theorem quiet_afterEntering (name : String) (o : Outcome) : Quiet w (afterEntering w name o) := by
  unfold afterEntering
  split <;> exact ⟨.refl w, rfl, rfl, rfl⟩

end execution

section conversation

variable (s : Speaker)

theorem quiet_callOther (h : Handle) (mode : CallMode) (name : String) {push : List Frame}
    (hpush : push.all Frame.isPlain) : Quiet w (callOther w h mode name push) := by
  unfold callOther
  split
  · exact ⟨.refl w, hpush, rfl, rfl⟩
  · exact ⟨.refl w, hpush, rfl, rfl⟩
  · exact ⟨(Evolves.refl w).modifyContext _ _ rfl, hpush, rfl, rfl⟩
  · exact ⟨.refl w, hpush, rfl, rfl⟩

/-- What a program asks is quiet, unless it waits for a gate. -/
theorem quiet_answer {q : Ask} (hq : ∀ gate, q ≠ .gate gate) (k : q.Answer → Dialogue Reply) :
    Quiet w (answer w t s q k) := by
  cases q with
  | write stream text =>
      refine ⟨(Evolves.refl w).modifyContext _ _ ?_, rfl, rfl, rfl⟩
      cases stream <;> rfl
  | setVariable name v => exact ⟨(Evolves.refl w).modifyContext _ _ rfl, rfl, rfl, rfl⟩
  | setAttribute name text => exact ⟨(Evolves.refl w).modifyContext _ _ rfl, rfl, rfl, rfl⟩
  | setService name v => exact ⟨(Evolves.refl w).modifyContext _ _ rfl, rfl, rfl, rfl⟩
  | putNote key n => exact ⟨(Evolves.refl w).modifyContext _ _ rfl, rfl, rfl, rfl⟩
  | call h mode name => exact quiet_callOther w h mode name rfl
  | callOnce h name =>
      unfold answer callOnce
      dsimp only
      split <;> exact ⟨.refl w, rfl, rfl, rfl⟩
  | gate name => exact absurd rfl (hq name)
  | _ => exact ⟨.refl w, rfl, rfl, rfl⟩

end conversation

section lookup

/-- Whatever a lookup gets as a reply, it goes on looking things up or is done. -/
theorem searches_resume {f : Frame} (hf : f.looksUp) (o : Outcome) : Searches w (resume w t f o) := by
  cases f with
  | searching libraries name isText compilation => exact searches_afterSearching w name isText libraries compilation o
  | dependency d i =>
      cases o with
      | error e => exact searches_settle w _
      | ok reply =>
          cases reply with
          | validity valid visited => exact searches_afterDependency w d visited i valid
          | _ => exact searches_settle w _
  | fileTime d visited =>
      cases o with
      | error e => exact searches_settle w _
      | ok _ => exact searches_afterFileTime w d visited
  | named s name d =>
      cases o with
      | error e => exact searches_settle w _
      | ok reply =>
          cases reply with
          | validity valid _ => exact searches_afterNamed w s name d valid
          | _ => exact searches_settle w _
  | resolving s name =>
      cases o with
      | error e => exact searches_settle w _
      | ok _ => exact searches_afterResolving w s name
  | filed s name file d =>
      cases o with
      | error e => exact searches_settle w _
      | ok reply =>
          cases reply with
          | validity valid _ => exact searches_afterFiled w s name d file valid
          | _ => exact searches_settle w _
  | reading s name file =>
      cases o with
      | error e => exact searches_settle w _
      | ok _ => exact searches_afterReading w s name file
  | listing s =>
      cases o with
      | error e => exact searches_settle w _
      | ok _ => exact searches_afterListing w s
  | collecting s names found =>
      cases o with
      | error e => exact searches_settle w _
      | ok reply =>
          cases reply with
          | document d => exact searches_collect w s names _
          | _ => exact searches_settle w _
  | creating s name isText compilation =>
      cases o with
      | error e => exact searches_settle w _
      | ok reply =>
          cases reply with
          | document d => exact searches_afterCreating w s name d isText compilation
          | _ => exact searches_settle w _
  | _ => cases hf

theorem searches_begin {c : Call} (hc : c.looksUp) : Searches w (begin w t c) := by
  cases c with
  | isValid d visited => exact searches_isValid w d visited
  | getDocument s name => exact searches_getDocument w s name
  | getDocuments s => exact searches_getDocuments w s
  | createOnce s name isText compilation => exact ⟨.refl w, rfl, rfl, rfl⟩
  | getExecutable name isText => exact searches_getExecutable w name isText
  | _ => cases hc

end lookup

end Move

namespace Task

/-- Whether all that is left of the task is a lookup. -/
def looksUp (t : Task) : Bool := t.stack.all Frame.looksUp && t.control.looksUp

theorem looksUp_of_advance {w : World} {id : TaskId} {t : Task} {m : Move} {rest : List Frame} (h : t.looksUp)
    (ha : t.advance w id = some (m, rest)) : m.wake = [] ∧ looksUp ⟨m.push ++ rest, m.control⟩ := by
  obtain ⟨stack, control⟩ := t
  obtain ⟨hstack, hcontrol⟩ := Bool.and_eq_true_iff.1 h
  have hmove (hm : Move.Searches w m) (hrest : rest.all Frame.looksUp) :
      m.wake = [] ∧ looksUp ⟨m.push ++ rest, m.control⟩ := by
    refine ⟨hm.wake, Bool.and_eq_true_iff.2 ⟨?_, hm.control⟩⟩
    rw [List.all_append, hm.push, hrest]
    rfl
  cases control with
  | call c =>
      cases ha
      exact hmove (Move.searches_begin w id hcontrol) hstack
  | settled o =>
      cases stack with
      | nil => cases ha
      | cons f stack =>
          cases ha
          obtain ⟨hf, hrest⟩ := Bool.and_eq_true_iff.1 hstack
          exact hmove (Move.searches_resume w id hf o) hrest
  | _ => cases hcontrol

end Task

end ScriptedText
