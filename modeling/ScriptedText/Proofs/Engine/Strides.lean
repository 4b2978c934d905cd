import ScriptedText.Proofs.Engine.Lookup

/-!
A task that runs alone goes on in strides: a lookup or a check is one stride, and so is the creation of an executable.
Between them nothing is done to sources and documents, but that a document which a program includes is recorded on the
program's own.
-/

namespace ScriptedText

open Relation

/-- An executable as it was made, whatever has become of it. -/
def Executable.asMade (x : Executable) : Executable :=
  { x with claimed := none, state := .constructed, count := 0, last := 0, cacheDuration := 0 }

/-- A world without its contexts, its locks, and what has become of its runs. -/
structure Stock where
  clock : Int
  tree : Files.Tree
  registry : Registry
  sources : List Source
  documents : List Document
  executables : List Executable
  host : Option Host
  inFlowCount : Nat

def World.stock (w : World) : Stock where
  clock := w.clock
  tree := w.tree
  registry := w.registry
  sources := w.sources
  documents := w.documents
  executables := w.executables.map Executable.asMade
  host := w.host
  inFlowCount := w.inFlowCount

theorem World.stock_modifyExecutable (w : World) (e : ExecutableId) {f : Executable → Executable}
    (hf : ∀ x, (f x).asMade = x.asMade) : (w.modifyExecutable e f).stock = w.stock := by
  have hmap : (w.executables.modify e.index f).map Executable.asMade = w.executables.map Executable.asMade :=
    map_modify_of_eq fun x _ => hf x
  exact congrArg (fun executables => { w.stock with executables }) hmap

theorem World.stock_release (w : World) (e : ExecutableId) : (w.release e).stock = w.stock := by
  unfold release
  split
  · rfl
  · dsimp only
    have hunclaim := w.stock_modifyExecutable e (f := Executable.unclaim) fun _ => rfl
    split
    · exact hunclaim
    · split
      · split
        · exact hunclaim
        · exact hunclaim
      · exact hunclaim

theorem World.stock_reportFailure (w : World) (name : String) (f : Failure) : (w.reportFailure name f).stock = w.stock := by
  unfold reportFailure
  split <;> rfl

/-- Whether the frame has nothing to do with a lookup or with the creation of an executable. -/
def Frame.isAside : Frame → Bool
  | .dependency _ _ | .fileTime _ _ | .named _ _ _ | .resolving _ _ | .filed _ _ _ _ | .reading _ _ _
  | .creating _ _ _ _ => false
  | _ => true

namespace Move

/-- A move that leaves sources and documents alone. -/
structure Aside (w : World) (m : Move) : Prop where
  stock : m.world.stock = w.stock
  push : m.push.all Frame.isAside

variable {w w₁ : World} {m : Move}

theorem Aside.behind (h : Aside w₁ m) (hw : w₁.stock = w.stock) : Aside w m := ⟨h.stock.trans hw, h.push⟩

theorem Aside.under (h : Aside w m) {push : List Frame} (hpush : push.all Frame.isAside) : Aside w (m.under push) := by
  refine ⟨h.stock, ?_⟩
  unfold Move.under
  rw [List.all_append, h.push, hpush]
  rfl

variable (w : World) (t : TaskId) (run : Run)

theorem aside_settle (o : Outcome) : Aside w (settle w o) := ⟨rfl, rfl⟩

theorem aside_runHook (hook : Hook) (event : Event) {push : List Frame} (hpush : push.all Frame.isAside) :
    Aside w (runHook w hook event push) := by
  cases hook <;> exact ⟨rfl, hpush⟩

theorem aside_execute (options : RunOptions) : Aside w (execute w run options) := by
  unfold execute
  dsimp only
  split
  · exact aside_settle w _
  · exact (aside_runHook _ _ _ rfl).behind rfl

theorem aside_close (outcome : Except Failure Unit) : Aside w (close w run outcome) := by
  cases outcome with
  | ok _ => exact ⟨w.stock_modifyExecutable run.executable fun _ => rfl, rfl⟩
  | error f => exact ⟨w.stock_reportFailure _ f, rfl⟩

theorem aside_finish (outcome : Except Failure Unit) : Aside w (finish w run outcome) := aside_runHook w _ _ rfl

theorem aside_afterFinalized (outcome : Except Failure Unit) (o : Outcome) : Aside w (afterFinalized w run outcome o) := by
  cases o with
  | error f => exact aside_close w run (.error f)
  | ok _ => exact aside_close w run outcome

theorem aside_startProgram (s : PlacedSegment) (a : AdapterId) : Aside w (startProgram w run s a) := by
  unfold startProgram
  dsimp only
  split
  · refine ⟨?_, rfl⟩
    split <;> split <;> rfl
  · exact aside_settle w _

theorem aside_goInside (inside : Inside) : Aside w (goInside w inside) := by
  cases inside with
  | program run s a => exact aside_startProgram w run s a
  | entry e =>
      unfold goInside startEntry
      dsimp only
      split <;> exact ⟨rfl, rfl⟩

theorem aside_lockAndGo (r : RegistrationId) (inside : Inside) : Aside w (lockAndGo w t r inside) := by
  unfold lockAndGo
  split
  · exact aside_goInside w inside
  · exact ⟨rfl, rfl⟩

theorem aside_runSegment (s : PlacedSegment) : Aside w (runSegment w t run s) := by
  unfold runSegment
  split
  · split
    · dsimp only
      split
      · exact (aside_startProgram _ run s _).behind rfl
      · exact (aside_lockAndGo _ t _ _).behind rfl
    · exact aside_settle w _
  · exact ⟨rfl, rfl⟩

theorem aside_runSegments (segments : List PlacedSegment) : Aside w (runSegments w t run segments) := by
  cases segments with
  | nil => exact aside_finish w run _
  | cons s rest => exact (aside_runSegment w t run s).under rfl

theorem aside_afterInitialized (o : Outcome) : Aside w (afterInitialized w t run o) := by
  cases o with
  | error f => exact aside_close w run (.error f)
  | ok _ => exact aside_runSegments w t run _

theorem aside_afterSegment (rest : List PlacedSegment) (o : Outcome) : Aside w (afterSegment w t run rest o) := by
  cases o with
  | error f => exact aside_finish w run (.error f)
  | ok _ => exact aside_runSegments w t run rest

theorem aside_afterProgram (site : Site) (swap : Option Swap) (o : Outcome) :
    Aside w (afterProgram w run site swap o) := by
  cases swap <;> cases o <;> exact ⟨rfl, rfl⟩

theorem aside_afterClaiming (o : Outcome) : Aside w (afterClaiming w run o) := by
  unfold afterClaiming
  split
  · exact ⟨rfl, rfl⟩
  · split
    · exact ⟨rfl, rfl⟩
    · refine ⟨(World.stock_modifyExecutable _ run.executable ?_).trans rfl, rfl⟩
      intro x
      rfl

theorem aside_afterEntering (name : String) (o : Outcome) : Aside w (afterEntering w name o) := by
  unfold afterEntering
  split <;> exact ⟨rfl, rfl⟩

theorem aside_enter (e : ExecutableId) (name : String) (args : List Value) : Aside w (enter w t e name args) := by
  have hstart (entry : Entry) : Aside w (startEntry w entry) := aside_goInside w (.entry entry)
  unfold enter
  dsimp only
  split
  · exact aside_settle w _
  · split
    · exact aside_settle w _
    · split
      · exact aside_settle w _
      · refine Aside.under ?_ rfl
        split
        · split
          · exact hstart _
          · exact aside_lockAndGo w t _ _
        · exact hstart _

theorem aside_answer (s : Speaker) (q : Ask) (k : q.Answer → Dialogue Reply) : Aside w (answer w t s q k) := by
  cases q with
  | call h mode name =>
      unfold answer callOther
      dsimp only
      split <;> exact ⟨rfl, rfl⟩
  | callOnce h name =>
      unfold answer callOnce
      dsimp only
      split <;> exact ⟨rfl, rfl⟩
  | gate name =>
      unfold answer waitForGate
      dsimp only
      split <;> exact ⟨rfl, rfl⟩
  | _ => exact ⟨rfl, rfl⟩

theorem aside_converse (s : Speaker) (d : Dialogue Reply) : Aside w (converse w t s d) := by
  cases d with
  | ask q k => exact aside_answer w t s q k
  | _ => exact aside_settle w _

theorem aside_collect (s : SourceId) (names : List String) (found : List DocumentId) :
    Aside w (collect w s names found) := by
  cases names <;> exact ⟨rfl, rfl⟩

theorem aside_afterListing (s : SourceId) : Aside w (afterListing w s) := by
  unfold afterListing
  split
  · exact aside_settle w _
  · split
    · exact aside_settle w _
    · exact aside_collect w s _ []

theorem aside_afterSearching (libraries : List SourceId) (name : String) (isText : Bool) (compilation : Compilation)
    (o : Outcome) : Aside w (afterSearching w libraries name isText compilation o) := by
  unfold afterSearching
  split
  · split <;> exact ⟨rfl, rfl⟩
  · exact aside_settle w _

/-- A call that is neither a lookup nor a check, nor creates an executable. -/
def isAside : Call → Bool
  | .isValid _ _ | .getDocument _ _ | .createOnce _ _ _ _ => false
  | _ => true

theorem aside_begin {c : Call} (hc : isAside c = true) : Aside w (begin w t c) := by
  cases c with
  | execute run options => exact aside_execute w run options
  | enter e name args => exact aside_enter w t e name args
  | makeEnterable run =>
      unfold begin makeEnterable
      dsimp only
      split <;> exact ⟨rfl, rfl⟩
  | getDocuments s =>
      unfold begin getDocuments
      dsimp only
      split <;> exact ⟨rfl, rfl⟩
  | getExecutable name isText =>
      unfold begin getExecutable
      dsimp only
      split <;> exact ⟨rfl, rfl⟩
  | runOnce name c =>
      unfold begin runOnce markExecuted
      dsimp only
      split <;> next heq =>
        obtain ⟨rfl, -⟩ := Prod.mk.inj heq
        exact ⟨rfl, rfl⟩
  | isValid d visited => cases hc
  | getDocument s name => cases hc
  | createOnce s name isText compilation => cases hc
  | _ => exact ⟨rfl, rfl⟩

/-- A frame that has nothing to do with lookups goes on. It may record a document that a program includes. -/
theorem aside_resume {f : Frame} (hf : f.isAside = true) (o : Outcome) :
    Aside w (resume w t f o) ∨ ∃ name c e host, f = .fetched name true c ∧ o = .ok (.executable e) ∧ w.host = some host ∧
      Aside (w.recordDependency host name c) (resume w t f o) := by
  unfold resume
  split
  · exact .inl (aside_afterInitialized w t _ _)
  · exact .inl (aside_afterSegment w t _ _ _)
  · exact .inl (aside_afterFinalized w _ _ _)
  · exact .inl (aside_afterProgram w _ _ _ _)
  · exact .inl (((aside_goInside _ _).under rfl).behind rfl)
  · exact .inl ⟨rfl, rfl⟩
  · exact .inl (aside_afterClaiming w _ _)
  · exact .inl (aside_afterEntering w _ _)
  · exact .inl ⟨rfl, rfl⟩
  · exact .inl (aside_afterSearching w _ _ _ _ _)
  · cases hf
  · cases hf
  · cases hf
  · cases hf
  · cases hf
  · cases hf
  · exact .inl (aside_afterListing w _)
  · exact .inl (aside_collect w _ _ _)
  · cases hf
  · next name isText c e =>
      unfold afterFetched
      cases isText with
      | false => exact .inl ⟨by cases w.host <;> rfl, rfl⟩
      | true =>
          cases hhost : w.host with
          | none => exact .inl ⟨rfl, rfl⟩
          | some host => exact .inr ⟨name, c, e, host, rfl, rfl, rfl, rfl, rfl⟩
  · exact .inl (aside_settle w _)
  · exact .inl (aside_settle w _)
  · exact .inl (aside_settle w _)

end Move

namespace Task

/-- One step of a task that runs alone. -/
def Goes (id : TaskId) (before after : World × Task) : Prop :=
  ∃ m rest, before.2.advance before.1 id = some (m, rest) ∧ after = (m.world, ⟨m.push ++ rest, m.control⟩)

/-- All that the task comes to on its way is of a kind. -/
def Throughout (id : TaskId) (P : World → Task → Prop) (w : World) (t : Task) : Prop :=
  ∀ w' t', ReflTransGen (Goes id) (w, t) (w', t') → P w' t'

theorem Throughout.next {id : TaskId} {P : World → Task → Prop} {w : World} {t : Task} {m : Move} {rest : List Frame}
    (h : Throughout id P w t) (ha : t.advance w id = some (m, rest)) :
    Throughout id P m.world ⟨m.push ++ rest, m.control⟩ :=
  fun w' t' hgoes => h w' t' (.head ⟨m, rest, ha, rfl⟩ hgoes)

end Task

namespace World

/-- What a task does at one go. The predicate holds of the steps that do more than look documents up. -/
inductive Stride (id : TaskId) (P : World → Task → Prop) (w : World) : World → Prop
  | aside {w' : World} (h : w'.stock = w.stock) : Stride id P w w'
  | check {w' : World} {d : DocumentId} {visited : List DocumentId} {o : Outcome}
      (h : Task.Ends id w ⟨[], .call (.isValid d visited)⟩ w' o) : Stride id P w w'
  | lookup {w' : World} {s : SourceId} {name : String} {o : Outcome}
      (h : Task.Ends id w ⟨[], .call (.getDocument s name)⟩ w' o) : Stride id P w w'
  | create {w₁ : World} {s : SourceId} {name : String} {isText : Bool} {compilation : Compilation} {d : DocumentId}
      {rest : List Frame} (h : Task.Ends id w ⟨[], .call (.getDocument s name)⟩ w₁ (.ok (.document d)))
      (hstep : P w₁ ⟨.creating s name isText compilation :: rest, .settled (.ok (.document d))⟩) :
      Stride id P w (Move.afterCreating w₁ s name d isText compilation).world
  | record {host : Host} {name : String} {c : ContextId} {e : ExecutableId} {rest : List Frame}
      (hhost : w.host = some host) (hstep : P w ⟨.fetched name true c :: rest, .settled (.ok (.executable e))⟩) :
      Stride id P w (w.recordDependency host name c)

end World

namespace Task

open World

/-- A task on its way from a world, where it was about to look something up, to the end of that. -/
inductive Amid (id : TaskId) : World → World → Task → Prop
  | aside {w : World} {t : Task} (h : t.stack.all Frame.isAside) : Amid id w w t
  | check {w₀ w : World} {top base : List Frame} {c : Control} {d : DocumentId} {visited : List DocumentId}
      (htop : looksUp ⟨top, c⟩) (hbase : base.all Frame.isAside)
      (h : ∀ w' o, Ends id w ⟨top, c⟩ w' o → Ends id w₀ ⟨[], .call (.isValid d visited)⟩ w' o) :
      Amid id w₀ w ⟨top ++ base, c⟩
  | lookup {w₀ w : World} {top base : List Frame} {c : Control} {s : SourceId} {name : String}
      (htop : looksUp ⟨top, c⟩) (hbase : base.all Frame.isAside)
      (h : ∀ w' o, Ends id w ⟨top, c⟩ w' o → Ends id w₀ ⟨[], .call (.getDocument s name)⟩ w' o) :
      Amid id w₀ w ⟨top ++ base, c⟩
  | create {w₀ w : World} {top base : List Frame} {c : Control} {s : SourceId} {name : String} {isText : Bool}
      {compilation : Compilation} (htop : looksUp ⟨top, c⟩) (hbase : base.all Frame.isAside)
      (h : ∀ w' o, Ends id w ⟨top, c⟩ w' o → Ends id w₀ ⟨[], .call (.getDocument s name)⟩ w' o) :
      Amid id w₀ w ⟨top ++ .creating s name isText compilation :: base, c⟩

variable {id : TaskId} {P : World → Task → Prop} {w w₀ w' : World} {t : Task} {m : Move} {rest : List Frame} {o : Outcome}

theorem amid_of_aside (h : m.Aside w) (hrest : rest.all Frame.isAside) :
    Amid id m.world m.world ⟨m.push ++ rest, m.control⟩ := by
  refine .aside ?_
  rw [List.all_append, h.push, hrest]
  rfl

/-- A step above the frames at the bottom is a step of what stands above them. -/
theorem exists_of_advance_append {top base : List Frame} {c : Control} (h : top ≠ [] ∨ ∀ o, c ≠ .settled o)
    (ha : Task.advance w id ⟨top ++ base, c⟩ = some (m, rest)) :
    ∃ below, rest = below ++ base ∧ (looksUp ⟨top, c⟩ → looksUp ⟨m.push ++ below, m.control⟩) ∧
      ∀ w' o, Ends id m.world ⟨m.push ++ below, m.control⟩ w' o → Ends id w ⟨top, c⟩ w' o := by
  rw [advance_append h] at ha
  obtain ⟨⟨m', below⟩, hm, heq⟩ := Option.map_eq_some_iff.1 ha
  cases heq
  exact ⟨below, rfl, fun hlooks => (looksUp_of_advance hlooks hm).2, fun w' o hrest => .step hm hrest⟩

theorem eq_settled_of_not {top : List Frame} {c : Control} (h : ¬ (top ≠ [] ∨ ∀ o, c ≠ .settled o)) :
    ∃ o, top = [] ∧ c = .settled o := by
  obtain ⟨htop, hc⟩ := not_or.1 h
  obtain ⟨o, ho⟩ := Classical.not_forall.1 hc
  exact ⟨o, Classical.not_not.1 htop, Classical.not_not.1 ho⟩

theorem amid_step_of_aside (hstack : t.stack.all Frame.isAside) (ha : t.advance w id = some (m, rest)) (hP : P w t) :
    ∃ w₁, ReflTransGen (Stride id P) w w₁ ∧ Amid id w₁ m.world ⟨m.push ++ rest, m.control⟩ := by
  have hgoes (h : m.Aside w) (hrest : rest.all Frame.isAside) :
      ∃ w₁, ReflTransGen (Stride id P) w w₁ ∧ Amid id w₁ m.world ⟨m.push ++ rest, m.control⟩ :=
    ⟨m.world, .single (.aside h.stock), amid_of_aside h hrest⟩
  obtain ⟨stack, control⟩ := t
  cases control with
  | waiting => cases stack <;> cases ha
  | talking s d =>
      cases ha
      exact hgoes (Move.aside_converse w id s d) hstack
  | call c =>
      cases ha
      by_cases hc : Move.isAside c = true
      · exact hgoes (Move.aside_begin w id hc) hstack
      · refine ⟨w, .refl, ?_⟩
        have hlooks {c : Call} (hc : c.looksUp) : looksUp ⟨(Move.begin w id c).push, (Move.begin w id c).control⟩ := by
          have hbegin := Move.searches_begin w id hc
          exact Bool.and_eq_true_iff.2 ⟨hbegin.push, hbegin.control⟩
        cases c with
        | isValid d visited => exact .check (hlooks rfl) hstack fun w' o h => ends_call.2 h
        | getDocument s name => exact .lookup (hlooks rfl) hstack fun w' o h => ends_call.2 h
        | createOnce s name isText compilation =>
            change Amid id w w ⟨[] ++ .creating s name isText compilation :: stack, .call (.getDocument s name)⟩
            exact .create rfl hstack fun w' o h => h
        | _ => exact absurd rfl hc
  | settled o =>
      cases stack with
      | nil => cases ha
      | cons f stack =>
          cases ha
          rw [List.all_cons, Bool.and_eq_true] at hstack
          rcases Move.aside_resume w id hstack.1 o with h | ⟨name, c, e, host, rfl, rfl, hhost, h⟩
          · exact hgoes h hstack.2
          · exact ⟨_, .head (.record hhost hP) (.single (.aside h.stock)), amid_of_aside h hstack.2⟩

theorem aside_afterCreating (w : World) (s : SourceId) (name : String) (d : DocumentId) (isText : Bool)
    (compilation : Compilation) : (Move.afterCreating w s name d isText compilation).push = [] := by
  unfold Move.afterCreating
  split
  · rfl
  · split <;> rfl

theorem Amid.step (h : Amid id w₀ w t) (ha : t.advance w id = some (m, rest)) (hP : P w t) :
    ∃ w₁, ReflTransGen (Stride id P) w₀ w₁ ∧ Amid id w₁ m.world ⟨m.push ++ rest, m.control⟩ := by
  cases h with
  | aside hstack => exact amid_step_of_aside hstack ha hP
  | @check _ top base c d visited htop hbase hends =>
      by_cases hin : top ≠ [] ∨ ∀ o, c ≠ .settled o
      · obtain ⟨below, rfl, hlooks, hnext⟩ := exists_of_advance_append hin ha
        rw [← List.append_assoc]
        exact ⟨w₀, .refl, .check (hlooks htop) hbase fun w' o h => hends w' o (hnext w' o h)⟩
      · obtain ⟨o, rfl, rfl⟩ := eq_settled_of_not hin
        obtain ⟨w₁, hstrides, hamid⟩ := amid_step_of_aside hbase ha hP
        exact ⟨w₁, .head (.check (hends w o (.settled w o))) hstrides, hamid⟩
  | @lookup _ top base c s name htop hbase hends =>
      by_cases hin : top ≠ [] ∨ ∀ o, c ≠ .settled o
      · obtain ⟨below, rfl, hlooks, hnext⟩ := exists_of_advance_append hin ha
        rw [← List.append_assoc]
        exact ⟨w₀, .refl, .lookup (hlooks htop) hbase fun w' o h => hends w' o (hnext w' o h)⟩
      · obtain ⟨o, rfl, rfl⟩ := eq_settled_of_not hin
        obtain ⟨w₁, hstrides, hamid⟩ := amid_step_of_aside hbase ha hP
        exact ⟨w₁, .head (.lookup (hends w o (.settled w o))) hstrides, hamid⟩
  | @create _ top base c s name isText compilation htop hbase hends =>
      by_cases hin : top ≠ [] ∨ ∀ o, c ≠ .settled o
      · obtain ⟨below, rfl, hlooks, hnext⟩ := exists_of_advance_append hin ha
        rw [← List.append_assoc]
        exact ⟨w₀, .refl, .create (hlooks htop) hbase fun w' o h => hends w' o (hnext w' o h)⟩
      · obtain ⟨o, rfl, rfl⟩ := eq_settled_of_not hin
        have hlookup := hends w o (.settled w o)
        have hfails (hm : m = .settle w o) (hrest : rest = base) :
            ∃ w₁, ReflTransGen (Stride id P) w₀ w₁ ∧ Amid id w₁ m.world ⟨m.push ++ rest, m.control⟩ := by
          subst hm hrest
          exact ⟨w, .single (.lookup hlookup), .aside hbase⟩
        cases o with
        | error f =>
            cases ha
            exact hfails rfl rfl
        | ok r =>
            cases r with
            | document d =>
                cases ha
                refine ⟨_, .single (.create hlookup hP), .aside ?_⟩
                change ((Move.afterCreating w s name d isText compilation).push ++ rest).all Frame.isAside = true
                rwa [aside_afterCreating]
            | _ =>
                cases ha
                exact hfails rfl rfl

/-- When a task is settled where no frame waits that has to do with lookups, none is under way any more. -/
theorem Amid.strides_of_settled {stack : List Frame} (h : Amid id w₀ w ⟨stack, .settled o⟩)
    (hhead : ∀ f, stack.head? = some f → f.looksUp = false) : ReflTransGen (Stride id P) w₀ w := by
  have hnil {top base : List Frame} (hstack : stack = top ++ base) (htop : looksUp ⟨top, .settled o⟩) : top = [] := by
    cases top with
    | nil => rfl
    | cons f top =>
        have hf : f.looksUp = false := hhead f (by rw [hstack]; rfl)
        simp [looksUp, hf] at htop
  generalize ht : (⟨stack, .settled o⟩ : Task) = t at h
  cases h with
  | aside _ => exact .refl
  | check htop _ hends =>
      obtain ⟨hstack, rfl⟩ := Task.mk.inj ht
      cases hnil hstack htop
      exact .single (.check (hends w o (.settled w o)))
  | lookup htop _ hends =>
      obtain ⟨hstack, rfl⟩ := Task.mk.inj ht
      cases hnil hstack htop
      exact .single (.lookup (hends w o (.settled w o)))
  | create htop _ _ =>
      obtain ⟨hstack, rfl⟩ := Task.mk.inj ht
      cases hnil hstack htop
      subst hstack
      cases hhead _ rfl

theorem Amid.strides (h : Amid id w₀ w ⟨[], .settled o⟩) : ReflTransGen (Stride id P) w₀ w :=
  h.strides_of_settled fun f hf => by simp at hf

/-- A task that runs alone comes to its end in strides. By induction on the run; the strides so far end where the lookup
that is under way has begun. -/
theorem Ends.strides_of_amid (h : Ends id w t w' o) (hamid : Amid id w₀ w t) (hP : Throughout id P w t) :
    ReflTransGen (Stride id P) w₀ w' := by
  induction h generalizing w₀ with
  | settled w o => exact hamid.strides
  | step ha _ ih =>
      obtain ⟨w₁, hstrides, hnext⟩ := hamid.step ha (hP _ _ .refl)
      exact hstrides.trans (ih hnext (hP.next ha))

theorem Ends.strides {c : Call} (h : Ends id w ⟨[], .call c⟩ w' o) (hP : Throughout id P w ⟨[], .call c⟩) :
    ReflTransGen (Stride id P) w w' := h.strides_of_amid (.aside rfl) hP

end Task

end ScriptedText
