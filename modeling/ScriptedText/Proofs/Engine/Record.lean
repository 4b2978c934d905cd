import ScriptedText.Proofs.Engine.Locking

/-!
What is only on record: which adapter a context saw last, and the events of programs that were started. No step of
a task depends on it, calls of entry points apart.
-/

namespace ScriptedText

def Context.bare (c : Context) : Context := { c with adapter := none }

def Event.isStart : Event → Bool
  | .ran _ _ _ _ => true
  | _ => false

namespace World

/-- A world without the adapters on record and the events of programs that were started. -/
def bare (w : World) : World :=
  { w with contexts := w.contexts.map Context.bare, events := w.events.filter fun e => !e.isStart }

variable (w : World)

@[simp]
theorem bare_bare : w.bare.bare = w.bare := by
  unfold bare
  simp [Function.comp_def, Context.bare]

@[simp]
theorem source_bare (s : SourceId) : w.bare.source s = w.source s := rfl

@[simp]
theorem document_bare (d : DocumentId) : w.bare.document d = w.document d := rfl

@[simp]
theorem executable_bare (e : ExecutableId) : w.bare.executable e = w.executable e := rfl

@[simp]
theorem lock_bare (r : RegistrationId) : w.bare.lock r = w.lock r := rfl

@[simp]
theorem cached?_bare (s : SourceId) (name : String) : w.bare.cached? s name = w.cached? s name := rfl

@[simp]
theorem adapter?_bare (a : AdapterId) : w.bare.adapter? a = w.adapter? a := rfl

@[simp]
theorem identifier_bare (s : SourceId) : w.bare.identifier s = w.identifier s := rfl

@[simp]
theorem context_bare (c : ContextId) : w.bare.context c = (w.context c).bare := by
  unfold bare context
  simp only [List.getElem?_map]
  cases w.contexts[c.index]? <;> rfl

@[simp]
theorem bare_emit (e : Event) (he : e.isStart = false) : (w.emit e).bare = w.bare.emit e := by
  simp [bare, emit, he]

theorem bare_emit_start {e : Event} (he : e.isStart) : (w.emit e).bare = w.bare := by
  simp [bare, emit, he]

theorem bare_modifyContext (c : ContextId) {f g : Context → Context} (hf : ∀ x, (f x).bare = g x.bare) :
    (w.modifyContext c f).bare = w.bare.modifyContext c g := by
  unfold bare modifyContext
  congr 1
  rw [← map_modify hf]

theorem bare_write (c : ContextId) (stream : Stream) (text : String) :
    (w.modifyContext c (·.write stream text)).bare = w.bare.modifyContext c (·.write stream text) := by
  refine bare_modifyContext w c fun x => ?_
  cases stream <;> rfl

/-! What a source does with its documents. -/

section cache

variable (s : SourceId) (name text tag : String) (d : DocumentId) (e : Option ExecutableId)

theorem attachExecutable_bare (x : ExecutableId) :
    w.bare.attachExecutable d x = ((w.attachExecutable d x).1.bare, (w.attachExecutable d x).2) := by
  unfold attachExecutable
  rw [document_bare]
  cases (w.document d).executable <;> rfl

theorem createDocument_bare :
    w.bare.createDocument s name text tag e =
      ((w.createDocument s name text tag e).1.bare, (w.createDocument s name text tag e).2) := by
  cases e with
  | none => rfl
  | some x =>
      let doc : Document := { name, text, tag, timestamp := w.clock, source := s, lastCheck := w.clock }
      have h := congrArg Prod.fst (attachExecutable_bare (w.addDocument doc).1 ⟨w.documents.length⟩ x)
      exact Prod.ext h rfl

theorem invalidateDependents_bare : w.bare.invalidateDependents s name = (w.invalidateDependents s name).bare := by
  unfold invalidateDependents
  rw [source_bare]
  generalize (w.source s).byName.values = ds
  induction ds generalizing w with
  | nil => rfl
  | cons d ds ih =>
      have hstep : (if (w.bare.document d).dependencies.contains name then w.bare.modifyDocument d Document.invalidate
          else w.bare) = (if (w.document d).dependencies.contains name then w.modifyDocument d Document.invalidate
          else w).bare := by
        rw [document_bare]
        split <;> rfl
      exact (congrArg (List.foldl _ · ds) hstep).trans (ih _)

theorem setDocument_bare :
    w.bare.setDocument s name text tag e =
      ((w.setDocument s name text tag e).1.bare, (w.setDocument s name text tag e).2) := by
  unfold setDocument
  rw [createDocument_bare, cached?_bare]
  generalize w.createDocument s name text tag e = created
  obtain ⟨w₁, d⟩ := created
  cases w.cached? s name with
  | none => rfl
  | some old =>
      refine Prod.ext ?_ rfl
      dsimp only
      rw [← invalidateDependents_bare, bare_emit _ _ rfl]
      rfl

theorem evict_bare : w.bare.evict s d = (w.evict s d).bare := by
  unfold evict
  rw [bare_emit _ _ rfl]
  rfl

theorem renew_bare : w.bare.renew s name d = ((w.renew s name d).1.bare, (w.renew s name d).2) := by
  have hdrop : (w.bare.emit (.evicted name .invalid)).dropInFlow s d =
      ((w.emit (.evicted name .invalid)).dropInFlow s d).bare := by
    rw [← bare_emit _ _ rfl]
    rfl
  unfold renew
  rw [hdrop]
  generalize (w.emit (.evicted name .invalid)).dropInFlow s d = w₁
  dsimp only
  rw [document_bare, createDocument_bare]
  generalize w₁.createDocument s name (w₁.document d).text (w₁.document d).tag none = created
  obtain ⟨w₂, fresh⟩ := created
  dsimp only
  rw [cached?_bare]
  by_cases hd : w₂.cached? s name = some d
  · rw [if_pos hd, if_pos hd]
    rfl
  · rw [if_neg hd, if_neg hd]

end cache

theorem reportFailure_bare (document : String) (f : Failure) :
    w.bare.reportFailure document f = (w.reportFailure document f).bare := by
  unfold reportFailure
  split
  · rfl
  · rfl
  · exact (bare_emit _ _ rfl).symm

end World

open World

/-! Compilation. -/

namespace Act

variable {α β : Type}

/-- An act that neither reads nor writes what is on record. -/
def IgnoresRecord (x : Act α) : Prop := ∀ w, x.perform w.bare = ((x.perform w).1, (x.perform w).2.bare)

theorem ignoresRecord_pure (a : α) : IgnoresRecord (pure a : Act α) := fun _ => rfl

theorem ignoresRecord_throw (f : Failure) : IgnoresRecord (throw f : Act α) := fun _ => rfl

theorem ignoresRecord_modify {f : World → World} (h : ∀ w, f w.bare = (f w).bare) :
    IgnoresRecord (modify f : Act PUnit) := by
  intro w
  rw [perform_modify, perform_modify, h]

theorem ignoresRecord_bind {x : Act α} {f : α → Act β} (hx : IgnoresRecord x) (hf : ∀ a, IgnoresRecord (f a)) :
    IgnoresRecord (x >>= f) := by
  intro w
  rw [perform_bind, perform_bind, hx w]
  cases (x.perform w).1 with
  | ok a => exact hf a _
  | error e => rfl

/-- What an act does with the world that it finds is the same without the record. -/
theorem ignoresRecord_get_bind {f : World → Act β} (hf : ∀ w, IgnoresRecord (f w)) (hbare : ∀ w, f w.bare = f w) :
    IgnoresRecord ((get : Act World) >>= f) := by
  intro w
  rw [perform_bind, perform_bind]
  simp only [perform_get]
  rw [hbare]
  exact hf w w

theorem ignoresRecord_tryCatch {x : Act α} {handler : Failure → Act α} (hx : IgnoresRecord x)
    (hh : ∀ f, IgnoresRecord (handler f)) : IgnoresRecord (tryCatch x handler) := by
  intro w
  rw [perform_tryCatch, perform_tryCatch, hx w]
  cases (x.perform w).1 with
  | ok a => rfl
  | error f => exact hh f _

theorem ignoresRecord_mapM {γ : Type} {f : γ → Act α} {l : List γ} (hf : ∀ c, IgnoresRecord (f c)) :
    IgnoresRecord (l.mapM f) := by
  induction l with
  | nil => exact ignoresRecord_pure []
  | cons c l ih =>
      rw [List.mapM_cons]
      exact ignoresRecord_bind (hf c) fun a => ignoresRecord_bind ih fun as => ignoresRecord_pure (a :: as)

end Act

open Act

theorem ignoresRecord_checkProgram (a : Adapter) (prepare : Bool) (source : String) :
    IgnoresRecord (checkProgram a prepare source) := by
  have hlift (x : Except Failure Unit) : IgnoresRecord (checkProgram.liftExcept x) := by
    cases x with
    | ok _ => exact ignoresRecord_pure ()
    | error f => exact ignoresRecord_throw f
  unfold checkProgram
  refine ignoresRecord_bind (hlift _) fun _ => ?_
  split
  · split
    · exact ignoresRecord_bind (ignoresRecord_modify fun w => (bare_emit w _ rfl).symm) fun _ => hlift _
    · exact hlift _
  · exact ignoresRecord_pure ()

theorem ignoresRecord_resolveSegment (o : Draft) (x : PlacedSegment) : IgnoresRecord (resolveSegment o x) := by
  unfold resolveSegment
  split
  · exact ignoresRecord_pure x
  · refine ignoresRecord_get_bind (fun w => ?_) fun w => rfl
    split
    · exact ignoresRecord_throw _
    · refine ignoresRecord_bind (ignoresRecord_tryCatch (ignoresRecord_checkProgram _ _ _) fun f => ?_) fun _ => ?_
      · exact ignoresRecord_throw _
      · exact ignoresRecord_pure _

theorem ignoresRecord_placeRequest {inner : Draft → Act ExecutableId} (hinner : ∀ o, IgnoresRecord (inner o)) (o : Draft)
    (r : Request) : IgnoresRecord (placeRequest inner o r) := by
  have hname : IgnoresRecord nextInFlowName := fun w => rfl
  unfold placeRequest
  refine ignoresRecord_bind hname fun name => ?_
  refine ignoresRecord_bind (ignoresRecord_tryCatch (hinner _) fun f => ignoresRecord_throw _) fun e => ?_
  split
  · refine ignoresRecord_bind (ignoresRecord_modify fun w => ?_) fun _ => ignoresRecord_pure _
    rw [setDocument_bare]
  · exact ignoresRecord_pure _

theorem ignoresRecord_parseText {inner : Draft → Act ExecutableId} (hinner : ∀ o, IgnoresRecord (inner o)) (o : Draft) :
    IgnoresRecord (parseText inner o) := by
  have hpart (p : Part) : IgnoresRecord (placePart inner o p) := by
    cases p with
    | segment x => exact ignoresRecord_pure (x, none)
    | request r => exact ignoresRecord_placeRequest hinner o r
  unfold parseText
  dsimp only
  split
  · exact ignoresRecord_throw _
  · refine ignoresRecord_bind (ignoresRecord_mapM hpart) fun placed => ?_
    split
    · exact ignoresRecord_throw _
    · exact ignoresRecord_pure _

theorem ignoresRecord_construct {inner : Draft → Act ExecutableId} (hinner : ∀ o, IgnoresRecord (inner o)) (o : Draft) :
    IgnoresRecord (construct inner o) := by
  have hrest (parsed : Parsed) (segments : List PlacedSegment) (x : List PlacedSegment → Executable) :
      IgnoresRecord (segments.mapM (resolveSegment o) >>= fun resolved => pure (x resolved)) :=
    ignoresRecord_bind (ignoresRecord_mapM (ignoresRecord_resolveSegment o)) fun _ => ignoresRecord_pure _
  unfold construct
  refine ignoresRecord_get_bind (fun w => ?_) fun w => rfl
  split
  · exact ignoresRecord_bind (ignoresRecord_parseText hinner o) fun parsed => hrest parsed _ _
  · exact ignoresRecord_bind (ignoresRecord_pure _) fun parsed => hrest parsed _ _

theorem ignoresRecord_compileWithin (depth : Nat) (o : Draft) : IgnoresRecord (compileWithin depth o) := by
  induction depth generalizing o with
  | zero => exact ignoresRecord_throw _
  | succ depth ih =>
      unfold compileWithin compileWith
      refine ignoresRecord_bind (ignoresRecord_tryCatch (ignoresRecord_construct ih o) fun f => ?_) fun x w => ?_
      · exact ignoresRecord_bind (ignoresRecord_modify fun w => reportFailure_bare w o.document f)
          fun _ => ignoresRecord_throw _
      · refine Prod.ext rfl ?_
        exact (bare_emit (w.addExecutable x).1 _ rfl).symm

theorem compile_bare (w : World) (o : Draft) : w.bare.compile o = ((w.compile o).1.bare, (w.compile o).2) := by
  rw [compile_eq_perform, compile_eq_perform, ignoresRecord_compileWithin]

/-! The steps of a task. -/

namespace Move

def bare (m : Move) : Move := { m with world := m.world.bare }

variable (w : World) (t : TaskId)

section validity

variable (d : DocumentId) (visited : List DocumentId)

theorem checkFile_bare : checkFile w.bare d visited = (checkFile w d visited).bare := by
  unfold checkFile
  dsimp only
  rw [document_bare, source_bare]
  split
  · rfl
  · change (if w.clock - (w.document d).lastCheck ≤ _ then _ else _) = _
    split <;> rfl

theorem checkFrom_bare (i : Nat) : checkFrom w.bare d visited i = (checkFrom w d visited i).bare := by
  have hnext : w.bare.nextDependency? d i = w.nextDependency? d i := rfl
  unfold checkFrom
  rw [hnext]
  cases w.nextDependency? d i with
  | none => exact checkFile_bare w d visited
  | some next => rfl

theorem isValid_bare : isValid w.bare d visited = (isValid w d visited).bare := by
  unfold isValid
  rw [document_bare]
  split
  · rfl
  · split
    · rfl
    · exact checkFrom_bare w d _ 0

theorem afterDependency_bare (i : Nat) (valid : Bool) :
    afterDependency w.bare d i valid visited = (afterDependency w d i valid visited).bare := by
  unfold afterDependency
  split
  · exact checkFrom_bare w d visited (i + 1)
  · rfl

theorem afterFileTime_bare : afterFileTime w.bare d visited = (afterFileTime w d visited).bare := rfl

end validity

section retrieval

variable (s : SourceId) (name : String) (d : DocumentId) (isText : Bool) (compilation : Compilation)

theorem keptByName_bare : keptByName w.bare s name d = (keptByName w s name d).bare := rfl

theorem getDocument_bare : getDocument w.bare s name = (getDocument w s name).bare := by
  unfold getDocument
  rw [cached?_bare, source_bare]
  split <;> rfl

theorem afterNamed_bare (valid : Bool) : afterNamed w.bare s name d valid = (afterNamed w s name d valid).bare := by
  unfold afterNamed
  rw [source_bare]
  split
  · rfl
  · split
    · rw [renew_bare]
      rfl
    · dsimp only
      rw [document_bare, evict_bare]
      split
      · rw [createDocument_bare]
        exact keptByName_bare _ s name _
      · rfl

theorem afterResolving_bare : afterResolving w.bare s name = (afterResolving w s name).bare := by
  have htree : w.bare.tree = w.tree := rfl
  unfold afterResolving
  rw [source_bare, htree]
  split
  · rfl
  · split
    · rfl
    · split <;> rfl

theorem afterFiled_bare (file : Files.Path) (valid : Bool) :
    afterFiled w.bare s name file d valid = (afterFiled w s name file d valid).bare := by
  unfold afterFiled
  rw [evict_bare]
  split <;> rfl

theorem afterReading_bare (file : Files.Path) :
    afterReading w.bare s name file = (afterReading w s name file).bare := by
  have htree : w.bare.tree = w.tree := rfl
  unfold afterReading
  rw [htree]
  split <;> rfl

theorem getDocuments_bare : getDocuments w.bare s = (getDocuments w s).bare := by
  unfold getDocuments
  rw [source_bare]
  split <;> rfl

theorem collect_bare (names : List String) (found : List DocumentId) :
    collect w.bare s names found = (collect w s names found).bare := by
  cases names <;> rfl

theorem afterListing_bare : afterListing w.bare s = (afterListing w s).bare := by
  have htree : w.bare.tree = w.tree := rfl
  unfold afterListing
  rw [source_bare, htree]
  split
  · rfl
  · split
    · rfl
    · exact collect_bare w s _ []

theorem afterCreating_bare :
    afterCreating w.bare s name d isText compilation = (afterCreating w s name d isText compilation).bare := by
  have hdraft : draftOf w.bare s name d isText compilation = draftOf w s name d isText compilation := rfl
  unfold afterCreating
  rw [document_bare, hdraft, compile_bare]
  split
  · rfl
  · cases w.compile (draftOf w s name d isText compilation) with
    | mk w₁ r =>
        cases r with
        | error f => rfl
        | ok e =>
            dsimp only
            rw [attachExecutable_bare]
            rfl

end retrieval

section hosting

variable (name : String) (isText : Bool) (c : ContextId)

theorem recordDependency_bare (host : Host) :
    w.bare.recordDependency host name c = (w.recordDependency host name c).bare := by
  have hservices : (w.bare.context c).services = (w.context c).services := by
    rw [context_bare]
    rfl
  unfold recordDependency
  rw [hservices]
  split
  · rfl
  · dsimp only
    rw [executable_bare, identifier_bare, cached?_bare]
    split
    · split <;> rfl
    · rfl

theorem getExecutable_bare : getExecutable w.bare name isText = (getExecutable w name isText).bare := by
  have hhost : w.bare.host = w.host := rfl
  unfold getExecutable
  rw [hhost]
  split <;> rfl

theorem afterSearching_bare (libraries : List SourceId) (compilation : Compilation) (o : Outcome) :
    afterSearching w.bare libraries name isText compilation o =
      (afterSearching w libraries name isText compilation o).bare := by
  unfold afterSearching
  split
  · split <;> rfl
  · rfl

theorem afterFetched_bare (e : ExecutableId) :
    afterFetched w.bare name isText c e = (afterFetched w name isText c e).bare := by
  have hhost : w.bare.host = w.host := rfl
  unfold afterFetched
  dsimp only
  rw [hhost]
  cases w.host with
  | none => rfl
  | some host =>
      cases isText with
      | false => rfl
      | true =>
          dsimp only
          rw [recordDependency_bare]
          rfl

theorem markExecuted_bare (x : Context) :
    x.bare.markExecuted name = ((x.markExecuted name).1.bare, (x.markExecuted name).2) := by
  have hlist : x.bare.executed? = x.executed? := rfl
  unfold Context.markExecuted
  rw [hlist]
  dsimp only
  split <;> rfl

theorem runOnce_bare : runOnce w.bare name c = (runOnce w name c).bare := by
  have hmark : markExecuted w.bare name c = ((markExecuted w name c).1.bare, (markExecuted w name c).2) := by
    have hmodify (x : Context) : (w.modifyContext c fun _ => x).bare = w.bare.modifyContext c fun _ => x.bare :=
      bare_modifyContext w c fun _ => rfl
    unfold markExecuted
    rw [context_bare, markExecuted_bare]
    exact Prod.ext (hmodify _).symm rfl
  unfold runOnce
  rw [hmark]
  obtain ⟨w₁, fresh⟩ := markExecuted w name c
  cases fresh <;> rfl

end hosting

section execution

variable (run : Run)

theorem runHook_bare (hook : Hook) (event : Event) (he : event.isStart = false) (push : List Frame) :
    runHook w.bare hook event push = (runHook w hook event push).bare := by
  cases hook with
  | none => rfl
  | some r => exact congrArg (settle · (r.map fun _ => .nothing) push) (bare_emit w event he).symm

theorem execute_bare (options : RunOptions) : execute w.bare run options = (execute w run options).bare := by
  have hclock : w.bare.clock = w.clock := rfl
  have himmutable : (w.bare.context run.context).immutable = (w.context run.context).immutable := by
    rw [context_bare]
    rfl
  unfold execute
  dsimp only
  rw [executable_bare, hclock, himmutable, ← bare_emit w _ rfl]
  split
  · rfl
  · exact runHook_bare _ _ _ rfl _

theorem close_bare (outcome : Except Failure Unit) : close w.bare run outcome = (close w run outcome).bare := by
  cases outcome with
  | error f => exact congrArg (refuse · f) (reportFailure_bare w _ f)
  | ok _ =>
      have hran : w.bare.modifyExecutable run.executable (·.ran w.bare.clock) =
          (w.modifyExecutable run.executable (·.ran w.clock)).bare := rfl
      unfold close
      dsimp only
      rw [hran, executable_bare, ← bare_emit _ _ rfl]
      rfl

theorem finish_bare (outcome : Except Failure Unit) : finish w.bare run outcome = (finish w run outcome).bare :=
  runHook_bare w _ _ rfl _

theorem afterFinalized_bare (outcome : Except Failure Unit) (o : Outcome) :
    afterFinalized w.bare run outcome o = (afterFinalized w run outcome o).bare := by
  cases o with
  | error f => exact close_bare w run (.error f)
  | ok _ => exact close_bare w run outcome

theorem bare_setService (x : Context) (name : String) (s : Option Service) :
    (x.setService name s).bare = x.bare.setService name s := by
  cases s <;> rfl

theorem startProgram_bare (s : PlacedSegment) (a : AdapterId) :
    (startProgram w.bare run s a).bare = (startProgram w run s a).bare := by
  have hservice (name : String) (service : Option Service) :
      (if (w.context run.context).immutable then w.bare
        else w.bare.modifyContext run.context (·.setService name service)) =
      (if (w.context run.context).immutable then w
        else w.modifyContext run.context (·.setService name service)).bare := by
    split
    · rfl
    · exact (bare_modifyContext w _ fun x => bare_setService x name service).symm
  have himmutable : (w.context run.context).bare.immutable = (w.context run.context).immutable := rfl
  have hservices : (w.context run.context).bare.services = (w.context run.context).services := rfl
  unfold startProgram
  dsimp only
  rw [executable_bare, adapter?_bare, context_bare, himmutable, hservices]
  split
  · next adapter source ha hs =>
      simp only [hservice]
      generalize (if (w.context run.context).immutable then w
        else w.modifyContext run.context (·.setService _ _)) = v
      cases adapter.observed with
      | false => exact congrArg (say · _ _ _) (bare_bare v)
      | true =>
          refine congrArg (say · _ _ _) ?_
          exact (bare_emit_start v.bare rfl).trans ((bare_bare v).trans (bare_emit_start v rfl).symm)
  · exact congrArg (refuse · _) (bare_bare w)

theorem afterProgram_bare (site : Site) (swap : Option Swap) (o : Outcome) :
    afterProgram w.bare run site swap o = (afterProgram w run site swap o).bare := by
  cases swap with
  | none => cases o <;> rfl
  | some swap =>
      have hservice : w.bare.modifyContext run.context (·.setService swap.name swap.previous) =
          (w.modifyContext run.context (·.setService swap.name swap.previous)).bare :=
        (bare_modifyContext w _ fun x => bare_setService x _ _).symm
      unfold afterProgram
      dsimp only
      rw [hservice]
      cases o <;> rfl

theorem startEntry_bare (e : Entry) : startEntry w.bare e = (startEntry w e).bare := by
  unfold startEntry
  rw [adapter?_bare]
  split <;> rfl

/-- Two worlds that differ in the record only are as good as each other for a move that ignores it. -/
theorem bare_eq_of_ignores (F : World → Move) (hF : ∀ w, (F w.bare).bare = (F w).bare) {v w : World}
    (h : v.bare = w.bare) : (F v).bare = (F w).bare := by
  rw [← hF v, ← hF w, h]

theorem bare_of_eq {m m' : Move} (h : m = m'.bare) : m.bare = m'.bare := by
  rw [h]
  exact congrArg (fun w => { m' with world := w }) (bare_bare m'.world)

theorem goInside_bare (inside : Inside) : (goInside w.bare inside).bare = (goInside w inside).bare := by
  cases inside with
  | program run s a => exact startProgram_bare w run s a
  | entry e => exact bare_of_eq (startEntry_bare w e)

theorem lockAndGo_bare (r : RegistrationId) (inside : Inside) :
    (lockAndGo w.bare t r inside).bare = (lockAndGo w t r inside).bare := by
  unfold lockAndGo
  rw [lock_bare]
  split
  · exact goInside_bare w inside
  · generalize (w.lock r).request t = requested
    obtain ⟨l, granted⟩ := requested
    refine bare_of_eq ?_
    rfl

theorem afterGranted_bare (r : RegistrationId) (inside : Inside) :
    (afterGranted w.bare r inside).bare = (afterGranted w r inside).bare :=
  congrArg (under · [.holding r]) (goInside_bare (w.setLock r ((w.lock r).claim inside.context)) inside)

theorem afterHolding_bare (r : RegistrationId) (o : Outcome) :
    afterHolding w.bare r o = (afterHolding w r o).bare := rfl

theorem bare_record (c : ContextId) (a : AdapterId) :
    (w.modifyContext c fun x => { x with adapter := some a }).bare = w.bare := by
  have hmodify : (w.modifyContext c fun x => { x with adapter := some a }).bare = w.bare.modifyContext c fun x => x :=
    bare_modifyContext w c fun _ => rfl
  have hid : w.bare.contexts.modify c.index (fun x => x) = w.bare.contexts := List.modify_id _ _
  rw [hmodify]
  unfold modifyContext
  rw [hid]

theorem runSegment_bare (s : PlacedSegment) : (runSegment w.bare t run s).bare = (runSegment w t run s).bare := by
  have hregistry : w.bare.registry = w.registry := rfl
  unfold runSegment
  rw [hregistry, executable_bare]
  split
  · split
    · next r a hr ha =>
        have hrecord : (w.bare.modifyContext run.context fun x => { x with adapter := some a }).bare =
            (w.modifyContext run.context fun x => { x with adapter := some a }).bare := by
          rw [bare_record, bare_record, bare_bare]
        change (if ((w.adapter? a).map (·.threadSafe)).getD true then _ else _ : Move).bare =
          (if ((w.adapter? a).map (·.threadSafe)).getD true then _ else _ : Move).bare
        split
        · exact bare_eq_of_ignores (startProgram · run s a) (fun w => startProgram_bare w run s a) hrecord
        · exact bare_eq_of_ignores (lockAndGo · t r _) (fun w => lockAndGo_bare w t r _) hrecord
    · exact congrArg (refuse · _) (bare_bare w)
  · rw [← bare_write]
    exact congrArg (reply · _) (bare_bare _)

theorem runSegments_bare (segments : List PlacedSegment) :
    (runSegments w.bare t run segments).bare = (runSegments w t run segments).bare := by
  cases segments with
  | nil => exact bare_of_eq (finish_bare w run (.ok ()))
  | cons s rest => exact congrArg (under · [.segment run rest]) (runSegment_bare w t run s)

end execution

section conversation

variable (s : Speaker)

theorem callOther_bare (h : Handle) (mode : CallMode) (name : String) (push : List Frame) :
    callOther w.bare h mode name push = (callOther w h mode name push).bare := by
  unfold callOther
  split
  · rfl
  · rfl
  · rw [← bare_write]
    rfl
  · rfl

theorem callOnce_bare (h : Handle) (name : String) (push : List Frame) :
    callOnce w.bare h name push = (callOnce w h name push).bare := by
  unfold callOnce
  split <;> rfl

theorem waitForGate_bare (gate : String) (push : List Frame) :
    waitForGate w.bare t gate push = (waitForGate w t gate push).bare := by
  have hgates : w.bare.openGates = w.openGates := rfl
  unfold waitForGate
  rw [hgates]
  split <;> rfl

theorem answer_bare (q : Ask) (k : q.Answer → Dialogue Reply) :
    answer w.bare t s q k = (answer w t s q k).bare := by
  have hmodify {f : Context → Context} (hf : ∀ x, (f x).bare = f x.bare) (d : Dialogue Reply) :
      say (w.bare.modifyContext s.context f) s d [] = (say (w.modifyContext s.context f) s d []).bare :=
    congrArg (say · s d []) (bare_modifyContext w s.context hf).symm
  have hread {α : Type} {g : Context → α} (hg : ∀ x, g x.bare = g x) (k : α → Dialogue Reply) :
      say w.bare s (k (g (w.bare.context s.context))) [] = (say w s (k (g (w.context s.context))) []).bare := by
    rw [context_bare, hg]
    rfl
  cases q with
  | write stream text => exact hmodify (by intro; cases stream <;> rfl) _
  | bindings => exact hread (g := fun x => x.bindings.entries) (fun _ => rfl) k
  | setVariable name v => exact hmodify (by intro; rfl) _
  | «attribute» name => exact hread (g := fun x => (x.attributes.get? name).map Attribute.display) (fun _ => rfl) k
  | setAttribute name text => exact hmodify (by intro; rfl) _
  | services => exact hread (g := fun x => x.services.entries) (fun _ => rfl) k
  | setService name v => exact hmodify (by intro; rfl) _
  | documentName h => rfl
  | runs => rfl
  | notes => exact hread (g := fun x => (x.notesOf s.adapter).entries) (fun _ => rfl) k
  | putNote key n => exact hmodify (by intro; rfl) _
  | call h mode name => exact callOther_bare w h mode name _
  | callOnce h name => exact callOnce_bare w h name _
  | gate name => exact waitForGate_bare w t name _
  | pause => rfl

theorem converse_bare (d : Dialogue Reply) : converse w.bare t s d = (converse w t s d).bare := by
  cases d with
  | done r => rfl
  | fail f => rfl
  | ask q k => exact answer_bare w t s q k

end conversation

theorem begin_bare {c : Call} (hc : c.isPlain) : (begin w.bare t c).bare = (begin w t c).bare := by
  cases c with
  | execute run options => exact bare_of_eq (execute_bare w run options)
  | makeEnterable run => cases hc
  | enter e name args => cases hc
  | isValid d visited => exact bare_of_eq (isValid_bare w d visited)
  | getDocument s name => exact bare_of_eq (getDocument_bare w s name)
  | getDocuments s => exact bare_of_eq (getDocuments_bare w s)
  | getExecutable name isText => exact bare_of_eq (getExecutable_bare w name isText)
  | runOnce name c => exact bare_of_eq (runOnce_bare w name c)
  | _ => exact bare_of_eq rfl

theorem resume_bare {f : Frame} (hf : ∀ run, f ≠ .claiming run) (o : Outcome) :
    (resume w.bare t f o).bare = (resume w t f o).bare := by
  cases f with
  | initialized run =>
      cases o with
      | error e => exact bare_of_eq (close_bare w run (.error e))
      | ok _ => exact runSegments_bare w t run _
  | segment run rest =>
      cases o with
      | error e => exact bare_of_eq (finish_bare w run (.error e))
      | ok _ => exact runSegments_bare w t run rest
  | finalized run outcome => exact bare_of_eq (afterFinalized_bare w run outcome o)
  | program run site swap => exact bare_of_eq (afterProgram_bare w run site swap o)
  | granted r inside => exact afterGranted_bare w r inside
  | holding r => exact bare_of_eq (afterHolding_bare w r o)
  | claiming run => exact absurd rfl (hf run)
  | entering name => cases o with
      | error e => cases e <;> exact bare_of_eq rfl
      | ok _ => exact bare_of_eq rfl
  | conversation s k => exact bare_of_eq rfl
  | searching libraries name isText compilation =>
      exact bare_of_eq (afterSearching_bare w name isText libraries compilation o)
  | dependency d i =>
      cases o with
      | error e => exact bare_of_eq rfl
      | ok reply =>
          cases reply with
          | validity valid visited => exact bare_of_eq (afterDependency_bare w d visited i valid)
          | _ => exact bare_of_eq rfl
  | fileTime d visited =>
      cases o with
      | error e => exact bare_of_eq rfl
      | ok _ => exact bare_of_eq (afterFileTime_bare w d visited)
  | named s name d =>
      cases o with
      | error e => exact bare_of_eq rfl
      | ok reply =>
          cases reply with
          | validity valid _ => exact bare_of_eq (afterNamed_bare w s name d valid)
          | _ => exact bare_of_eq rfl
  | resolving s name =>
      cases o with
      | error e => exact bare_of_eq rfl
      | ok _ => exact bare_of_eq (afterResolving_bare w s name)
  | filed s name file d =>
      cases o with
      | error e => exact bare_of_eq rfl
      | ok reply =>
          cases reply with
          | validity valid _ => exact bare_of_eq (afterFiled_bare w s name d file valid)
          | _ => exact bare_of_eq rfl
  | reading s name file =>
      cases o with
      | error e => exact bare_of_eq rfl
      | ok _ => exact bare_of_eq (afterReading_bare w s name file)
  | listing s =>
      cases o with
      | error e => exact bare_of_eq rfl
      | ok _ => exact bare_of_eq (afterListing_bare w s)
  | collecting s names found =>
      cases o with
      | error e => exact bare_of_eq rfl
      | ok reply =>
          cases reply with
          | document d => exact bare_of_eq (collect_bare w s names _)
          | _ => exact bare_of_eq rfl
  | creating s name isText compilation =>
      cases o with
      | error e => exact bare_of_eq rfl
      | ok reply =>
          cases reply with
          | document d => exact bare_of_eq (afterCreating_bare w s name d isText compilation)
          | _ => exact bare_of_eq rfl
  | fetched name isText c =>
      cases o with
      | error e => exact bare_of_eq rfl
      | ok reply =>
          cases reply with
          | executable e => exact bare_of_eq (afterFetched_bare w name isText c e)
          | _ => exact bare_of_eq rfl
  | included => cases o <;> exact bare_of_eq rfl
  | ranOnce => cases o <;> exact bare_of_eq rfl

end Move

namespace Task

variable {id : TaskId} {w w' v : World} {t : Task} {o : Outcome} {m : Move} {stack : List Frame}

theorem Plain.advance_of_bare (hp : t.Plain) (hv : v.bare = w.bare) (ha : t.advance w id = some (m, stack)) :
    ∃ m', t.advance v id = some (m', stack) ∧ m'.bare = m.bare := by
  obtain ⟨frames, control⟩ := t
  cases control with
  | call c =>
      cases ha
      exact ⟨_, rfl, Move.bare_eq_of_ignores (Move.begin · id c) (fun w => Move.begin_bare w id hp.control) hv⟩
  | talking s d =>
      cases ha
      refine ⟨_, rfl, Move.bare_eq_of_ignores (Move.converse · id s d) (fun w => ?_) hv⟩
      exact Move.bare_of_eq (Move.converse_bare w id s d)
  | waiting => cases frames <;> cases ha
  | settled o =>
      cases frames with
      | nil => cases ha
      | cons f rest =>
          cases ha
          have hf : ∀ run, f ≠ .claiming run := fun run hf => hp.stack run (hf ▸ List.mem_cons_self ..)
          exact ⟨_, rfl, Move.bare_eq_of_ignores (Move.resume · id f o) (fun w => Move.resume_bare w id hf o) hv⟩

/-- What a task comes to does not depend on the record. -/
theorem Ends.of_bare (h : t.Ends id w w' o) (hp : t.Plain) (hv : v.bare = w.bare) :
    ∃ v', t.Ends id v v' o ∧ v'.bare = w'.bare := by
  induction h generalizing v with
  | settled w o => exact ⟨v, .settled v o, hv⟩
  | step ha he ih =>
      obtain ⟨-, hplain⟩ := hp.step ha he
      obtain ⟨m', ha', hm⟩ := hp.advance_of_bare hv ha
      obtain ⟨v', hv', hbare⟩ := ih hplain (congrArg Move.world hm)
      have hpush := congrArg Move.push hm
      have hcontrol := congrArg Move.control hm
      refine ⟨v', .step ha' ?_, hbare⟩
      rw [show m'.push = _ from hpush, show m'.control = _ from hcontrol]
      exact hv'

end Task

end ScriptedText
