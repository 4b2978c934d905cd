import ScriptedText.Proofs.Engine.Collapsing
import ScriptedText.Proofs.Engine.Compilation
import ScriptedText.Proofs.Engine.Digrams

/-!
Compilation preserves meaning: a compiled document runs as its segments do one by one, without having been collapsed.
-/

namespace ScriptedText

variable {id : TaskId} {w w' v : World} {run : Run} {o : Outcome} {p : PlacedSegment} {s : Segment}

namespace Move

theorem ends_runSegment_of_isReady (hp : p.IsReady) :
    (runSegment w id run p).Ends id w' o ↔ p.toSegment.Ends id run w w' o := by
  change _ ↔ (runSegment w id run p.toSegment.ready).Ends id w' o
  cases hprog : p.isProgram with
  | false =>
      have hready : p.toSegment.ready.isProgram = false := hprog
      rw [ends_runSegment_literal hprog, ends_runSegment_literal hready]
      rfl
  | true =>
      have hready : p.toSegment.ready.isProgram = true := hprog
      cases hadapter : w.registry.adapterForTag? p.tag with
      | none =>
          rw [ends_runSegment_missing hprog hadapter, ends_runSegment_missing hready hadapter]
          rfl
      | some adapter =>
          obtain ⟨r, a, hr, ha, hfound⟩ := exists_of_adapterForTag? hadapter
          have hsource : p.toSegment.ready.program = some p.toSegment.ready.text := by simp [Segment.ready, hprog]
          rw [ends_runSegment_program hprog hr ha hfound (hp hprog),
            ends_runSegment_program hready hr ha hfound hsource]
          rfl

theorem ends_runSegments {segments : List PlacedSegment} (hready : ∀ p ∈ segments, p.IsReady) :
    (runSegments w id run segments).Ends id w' o ↔
      ∃ w₁ r, RunsTo id run w (segments.map PlacedSegment.toSegment) w₁ r ∧ (finish w₁ run r).Ends id w' o := by
  induction segments generalizing w with
  | nil =>
      constructor
      · exact fun h => ⟨w, .ok (), .nil w, h⟩
      · rintro ⟨w₁, r, hrun, h⟩
        cases hrun
        exact h
  | cons p rest ih =>
      have hfirst {w' : World} {o : Outcome} :
          (runSegment w id run p).Ends id w' o ↔ p.toSegment.Ends id run w w' o :=
        ends_runSegment_of_isReady (hready p (List.mem_cons_self ..))
      have hrest {w : World} :
          (runSegments w id run rest).Ends id w' o ↔
            ∃ w₁ r, RunsTo id run w (rest.map PlacedSegment.toSegment) w₁ r ∧ (finish w₁ run r).Ends id w' o :=
        ih fun p hp => hready p (List.mem_cons_of_mem _ hp)
      rw [runSegments, ends_under, List.map_cons]
      constructor
      · rintro ⟨w₁, o₁, hp, h⟩
        cases o₁ with
        | error f => exact ⟨w₁, _, .fail (hfirst.1 hp) _, h⟩
        | ok reply =>
            obtain ⟨w₂, r, hrun, hfinish⟩ := hrest.1 h
            exact ⟨w₂, r, .cons (hfirst.1 hp) hrun, hfinish⟩
      · rintro ⟨w₂, r, hrun, hfinish⟩
        cases hrun with
        | fail hp => exact ⟨_, _, hfirst.2 hp, hfinish⟩
        | cons hp hrun => exact ⟨_, _, hfirst.2 hp, hrest.2 ⟨_, _, hrun, hfinish⟩⟩

/-- Whatever the move comes to, the other one comes to as well, up to what is on record and the sites of a failure. -/
def Refines (id : TaskId) (m m' : Move) : Prop :=
  ∀ w' o, m.Ends id w' o → ∃ v' o', m'.Ends id v' o' ∧ v'.bare = w'.bare ∧ siteless o' = siteless o

def Matches (id : TaskId) (m m' : Move) : Prop := m.Refines id m' ∧ m'.Refines id m

theorem reportFailure_siteless (w : World) (document : String) (f : Failure) :
    w.reportFailure document f.siteless = w.reportFailure document f := by
  cases f <;> rfl

theorem refines_close {r r' : Except Failure Unit} (hv : v.bare = w.bare) (hr : siteless r' = siteless r) :
    (close w run r).Refines id (close v run r') := by
  have hbare := (close_bare v run r').symm.trans ((congrArg (close · run r') hv).trans (close_bare w run r'))
  intro w' o h
  cases r with
  | error f =>
      obtain ⟨f', rfl⟩ := exists_error_of_siteless hr
      obtain ⟨rfl, rfl⟩ := ends_settle.1 h
      have hf : f'.siteless = f.siteless := Except.error.inj hr
      refine ⟨_, _, ends_settle.2 ⟨rfl, rfl⟩, ?_, congrArg Except.error hf⟩
      have hworld : (v.reportFailure _ f').bare = (w.reportFailure _ f').bare := congrArg Move.world hbare
      rw [hworld, ← reportFailure_siteless, hf, reportFailure_siteless]
  | ok _ =>
      cases eq_ok_of_siteless hr
      obtain ⟨rfl, rfl⟩ := ends_settle.1 h
      exact ⟨_, _, ends_settle.2 ⟨rfl, rfl⟩, congrArg Move.world hbare, rfl⟩

/-- The world after the hook that follows the segments of a run. -/
def hooked (w : World) (run : Run) : World :=
  if run.hooks.after.isSome then w.emit (.finalized run.context) else w

/-- What a run comes to with that hook. -/
def verdict (run : Run) (r : Except Failure Unit) : Except Failure Unit :=
  match run.hooks.after with
  | some (.error f) => .error f
  | _ => r

theorem ends_finish {r : Except Failure Unit} :
    (finish w run r).Ends id w' o ↔ (close (hooked w run) run (verdict run r)).Ends id w' o := by
  unfold finish runHook hooked verdict
  cases run.hooks.after with
  | none => exact Task.ends_frame
  | some hook => cases hook <;> exact Task.ends_frame

theorem refines_finish {r r' : Except Failure Unit} (hv : v.bare = w.bare) (hr : siteless r' = siteless r) :
    (finish w run r).Refines id (finish v run r') := by
  have hworld : (hooked v run).bare = (hooked w run).bare := by
    unfold hooked
    split
    · rw [World.bare_emit _ _ rfl, World.bare_emit _ _ rfl, hv]
    · exact hv
  have hverdict : siteless (verdict run r') = siteless (verdict run r) := by
    unfold verdict
    split
    · rfl
    · exact hr
  intro w' o h
  obtain ⟨v', o', he, hbare, ho⟩ := refines_close hworld hverdict w' o (ends_finish.1 h)
  exact ⟨v', o', ends_finish.2 he, hbare, ho⟩

theorem refines_runSegments {registry : Registry} {exposed : String} {A B : List PlacedSegment}
    (hw : w.Suits registry exposed run) (hA : ∀ p ∈ A, p.IsReady) (hB : ∀ p ∈ B, p.IsReady)
    (h : Simulates id registry exposed run (A.map PlacedSegment.toSegment) (B.map PlacedSegment.toSegment)) :
    (runSegments w id run A).Refines id (runSegments w id run B) := by
  intro w' o he
  obtain ⟨w₁, r, hrun, hfinish⟩ := (ends_runSegments hA).1 he
  obtain ⟨v₁, r', hrun', hbare, hr⟩ := h w w w₁ r hw rfl hrun
  obtain ⟨v', o', hfinish', hbare', ho⟩ := refines_finish hbare hr w' o hfinish
  exact ⟨v', o', (ends_runSegments hB).2 ⟨v₁, r', hrun', hfinish'⟩, hbare', ho⟩

end Move

/-- Segments as they were written, lowered but not collapsed, and ready to run one by one. -/
def Registry.written (registry : Registry) (exposed : String) (raw : List RawSegment) : List PlacedSegment :=
  raw.map fun s => (s.lower (registry.forms exposed)).ready

theorem isReady_ready (s : Segment) : s.ready.IsReady := by
  intro hprog
  exact if_pos hprog

/-- A compiled document can run in the world that its compilation has left. -/
theorem suits_of_compile {w₀ w₁ : World} {d : Draft} {e : ExecutableId} (hcompile : w₀.compile d = (w₁, .ok e))
    (hrun : run.executable = e) (hcontext : run.context.index < w₀.contexts.length) (hrest : w₀.LocksRest) :
    w₁.Suits w₀.registry d.exposed run := by
  obtain ⟨hlength, raw, hcompiled⟩ := isCompiled_of_compile hcompile
  have hlooks : World.Looks w₀ w₁ := by
    have h := looks_compile w₀ d
    rw [hcompile] at h
    exact h
  have hkeeps := hlooks.keeps
  subst hrun
  exact ⟨hkeeps.registry, hlength, hcompiled.exposed, hkeeps.contexts ▸ hcontext, hrest.congr (World.lock_eq_of_locks hlooks.locks_eq)⟩

/-- A compiled document, in any world that has its executable, runs as its segments do one by one. -/
theorem compiled_runs_as_written {w₀ w₁ : World} {d : Draft} {e : ExecutableId}
    {sources : String → String → Prop} (hcompile : w₀.compile d = (w₁, .ok e))
    (hw : w.Suits w₀.registry d.exposed run)
    (hsegments : (w.executable run.executable).segments = (w₁.executable e).segments)
    (hcomposes : w₀.registry.Composes id d.exposed sources)
    (hleaves : w₀.registry.LeavesService id d.exposed sources) :
    ∃ raw, d.rawSegments (w₁.executable e).dependencies = .ok raw ∧
      ((∀ s ∈ raw, (s.lower (w₀.registry.forms d.exposed)).IsSource w₀.registry sources) →
        (Move.afterInitialized w id run (.ok .nothing)).Matches id
          (Move.runSegments w id run (w₀.registry.written d.exposed raw))) := by
  obtain ⟨-, raw, hcompiled⟩ := isCompiled_of_compile hcompile
  refine ⟨raw, hcompiled.written, fun hsources => ?_⟩
  have hall : ∀ s ∈ raw.map (RawSegment.lower (w₀.registry.forms d.exposed)), s.IsSource w₀.registry sources := by
    intro s hs
    obtain ⟨x, hx, rfl⟩ := List.mem_map.1 hs
    exact hsources x hx
  obtain ⟨hforth, hback⟩ : Alike id w₀.registry d.exposed run
      ((w₁.executable e).segments.map PlacedSegment.toSegment)
      ((w₀.registry.written d.exposed raw).map PlacedSegment.toSegment) := by
    have hwritten : (w₀.registry.written d.exposed raw).map PlacedSegment.toSegment =
        raw.map (RawSegment.lower (w₀.registry.forms d.exposed)) := List.map_map
    rw [hcompiled.segments, hwritten]
    exact alike_collapsed hcomposes hleaves d.tag hall
  have hwritten : ∀ p ∈ w₀.registry.written d.exposed raw, p.IsReady := by
    intro p hp
    obtain ⟨s, -, rfl⟩ := List.mem_map.1 hp
    exact isReady_ready _
  change (Move.runSegments w id run (w.executable run.executable).segments).Matches id _
  rw [hsegments]
  exact ⟨Move.refines_runSegments hw hcompiled.ready hwritten hforth,
    Move.refines_runSegments hw hwritten hcompiled.ready hback⟩

/-- Commands that fail if they start with a tilde, and otherwise do nothing. -/
def failingCommand (_ : String) (a c : Char) : Dialogue Unit :=
  if a = '~' then .error (String.singleton c) else .done ()

/-- A world of two languages with the same commands, and one context. -/
def digramWorld (command : String → Char → Char → Dialogue Unit) : World :=
  { tree := { origin := "" }, registry := .ofAdapters [digramAdapter "a" command, digramAdapter "b" command]
    contexts := [{}] }

theorem mem_digramWorld (command : String → Char → Char → Dialogue Unit) :
    ∀ adapter ∈ (digramWorld command).registry.adapters, ∃ tag, adapter = digramAdapter tag command := by
  intro adapter hadapter
  have hmem : adapter ∈ [digramAdapter "a" command, digramAdapter "b" command] := hadapter
  rcases List.mem_cons.1 hmem with rfl | hmem
  · exact ⟨"a", rfl⟩
  · exact ⟨"b", List.mem_singleton.1 hmem⟩

/-- Both languages, with literals around their programs; the last program fails. -/
def mixedDraft : Draft :=
  { tag := "a", document := "doc", registered := "doc", text := "0<%a =x%>1<%a =y%><%b =z%>2<%b ~e%>3" }

theorem eq_ok_of_toOption {α ε : Type} {x : Except ε α} {a : α} (h : x.toOption = some a) : x = .ok a := by
  cases x with
  | error e => cases h
  | ok a' =>
      cases h
      rfl

theorem isSource_digrams {registry : Registry} (h : s.isProgram = true → IsDigrams s.text) :
    s.IsSource registry fun _ => IsDigrams := fun hprog _ _ => h hprog

/-- Eight segments as they were written, and three as they were compiled. -/
theorem mixed_runs_as_written :
    ∃ w₁ raw, (digramWorld failingCommand).compile mixedDraft = (w₁, .ok ⟨0⟩) ∧
      mixedDraft.rawSegments (w₁.executable ⟨0⟩).dependencies = .ok raw ∧ raw.length = 8 ∧
      (w₁.executable ⟨0⟩).segments.length = 3 ∧
      (Move.afterInitialized w₁ ⟨0⟩ ⟨⟨0⟩, ⟨0⟩, none, {}⟩ (.ok .nothing)).Matches ⟨0⟩
        (Move.runSegments w₁ ⟨0⟩ ⟨⟨0⟩, ⟨0⟩, none, {}⟩
          ((digramWorld failingCommand).registry.written "executable" raw)) := by
  have hcompile : ((digramWorld failingCommand).compile mixedDraft).2.toOption = some ⟨0⟩ := by decide +kernel
  have hlength : (((digramWorld failingCommand).compile mixedDraft).1.executable ⟨0⟩).segments.length = 3 := by
    decide +kernel
  have hdependencies : (((digramWorld failingCommand).compile mixedDraft).1.executable ⟨0⟩).dependencies = [] := by
    decide +kernel
  have hcompiled : (digramWorld failingCommand).compile mixedDraft =
      (((digramWorld failingCommand).compile mixedDraft).1, .ok ⟨0⟩) := Prod.ext rfl (eq_ok_of_toOption hcompile)
  generalize ((digramWorld failingCommand).compile mixedDraft).1 = w₁ at *
  have hleaves (a : AdapterId) (a' c : Char) : (failingCommand "executable" a' c).LeavesService ⟨0⟩
      (digramWorld failingCommand).registry "executable" a := by
    unfold failingCommand
    split
    · exact Dialogue.leavesService_fail _
    · exact Dialogue.leavesService_done
  have hsuits : w₁.Suits (digramWorld failingCommand).registry mixedDraft.exposed ⟨⟨0⟩, ⟨0⟩, none, {}⟩ :=
    suits_of_compile hcompiled rfl (by decide) fun _ _ => rfl
  obtain ⟨raw, hraw, hmatches⟩ := compiled_runs_as_written hcompiled hsuits rfl
    (composes_digrams (mem_digramWorld _)) (leavesService_digrams (mem_digramWorld _) hleaves)
  have hwritten : (mixedDraft.rawSegments []).toOption.map (fun raw => (raw.length, raw.all fun s => decide
      (s.kind ≠ .literal → IsDigrams (s.lower ((digramWorld failingCommand).registry.forms "executable")).text))) =
      some (8, true) := by decide +kernel
  rw [hdependencies] at hraw
  rw [hraw] at hwritten
  obtain ⟨hcount, hall⟩ := Prod.mk.inj (Option.some.inj hwritten)
  refine ⟨w₁, raw, hcompiled, ?_, hcount, hlength, hmatches fun s hs => isSource_digrams fun hprog => ?_⟩
  · rw [hdependencies]
    exact hraw
  · exact of_decide_eq_true (List.all_eq_true.1 hall s hs) (of_decide_eq_true hprog)

/-- Commands that tell what stands in the place of the executable's service, put a letter there, put a letter under
its own name, list the services, or include the document of a letter. -/
def tellingCommand (exposed : String) (a c : Char) : Dialogue Unit := do
  let service ← Dialogue.service? exposed
  if a = '?' then .write ((service.map Service.display).getD "")
  else if a = '!' then Dialogue.pose (.setService exposed (.text (String.singleton c)))
  else if a = '*' then Dialogue.pose (.setService (String.singleton c) (.text (String.singleton c)))
  else if a = '#' then .write (String.join ((← Dialogue.pose .services).map fun (name, _) => name ++ " "))
  else match Service.handle? service with
    | some h => .call h .include (String.singleton c)
    | none => .done ()

/-- A world in which a document in the second language can be included. -/
def tellingWorld : World :=
  ({ digramWorld tellingCommand with
      sources := [{ storage := .memory "" }]
      host := some ⟨⟨0⟩, [], { tag := "a" }⟩ }.setDocument ⟨0⟩ "s" "<%b =y%>" "" none).1

def tellingDraft : Draft :=
  { tag := "a", document := "doc", registered := "doc", text := "<%a +s*n!x%><%a #.?.%>" }

/-- What a context has been written, and the adapter that it has on record, when a move has come to its end. -/
def Move.look (m : Move) : Option (String × Option AdapterId × Bool) :=
  (Task.drive ⟨0⟩ 300 m.world ⟨m.push, m.control⟩).map fun (w, o) =>
    ((w.context ⟨0⟩).out, (w.context ⟨0⟩).adapter, o.toBool)

theorem exists_of_look {m : Move} {out : String} {a : Option AdapterId} {b : Bool} (h : m.look = some (out, a, b)) :
    ∃ w o, m.Ends ⟨0⟩ w o ∧ (w.context ⟨0⟩).out = out ∧ (w.context ⟨0⟩).adapter = a ∧ o.toBool = b := by
  obtain ⟨⟨w, o⟩, hdrive, hlook⟩ := Option.map_eq_some_iff.1 h
  obtain ⟨hout, hrest⟩ := Prod.mk.inj hlook
  obtain ⟨hadapter, ho⟩ := Prod.mk.inj hrest
  exact ⟨w, o, Task.ends_of_drive hdrive, hout, hadapter, ho⟩

/-- Programs can be put together in both languages, and yet the document runs otherwise than it was written. What the
first program puts in place of the service is taken away before the second one starts, the service is put in place
behind others that were not there before, and the adapter on record is that of the included document. -/
theorem telling_runs_not_as_written :
    tellingWorld.registry.Composes ⟨0⟩ "executable" (fun _ => IsDigrams) ∧
      ∃ w₁ raw, tellingWorld.compile tellingDraft = (w₁, .ok ⟨0⟩) ∧
        w₁.Suits tellingWorld.registry "executable" ⟨⟨0⟩, ⟨0⟩, some .host, {}⟩ ∧
        tellingDraft.rawSegments (w₁.executable ⟨0⟩).dependencies = .ok raw ∧
        (∀ s ∈ raw, (s.lower (tellingWorld.registry.forms "executable")).IsSource tellingWorld.registry
          fun _ => IsDigrams) ∧
        ∃ w o v o', (Move.afterInitialized w₁ ⟨0⟩ ⟨⟨0⟩, ⟨0⟩, some .host, {}⟩ (.ok .nothing)).Ends ⟨0⟩ w o ∧
          (Move.runSegments w₁ ⟨0⟩ ⟨⟨0⟩, ⟨0⟩, some .host, {}⟩
            (tellingWorld.registry.written "executable" raw)).Ends ⟨0⟩ v o' ∧
          ((w.context ⟨0⟩).out = "yexecutable n x" ∧ (w.context ⟨0⟩).adapter = some ⟨1⟩ ∧ o.toBool = true) ∧
          ((v.context ⟨0⟩).out = "yn executable [object Object]" ∧ (v.context ⟨0⟩).adapter = some ⟨0⟩ ∧
            o'.toBool = true) := by
  have hcompile : (tellingWorld.compile tellingDraft).2.toOption = some ⟨0⟩ := by decide +kernel
  have hdependencies : ((tellingWorld.compile tellingDraft).1.executable ⟨0⟩).dependencies = [] := by decide +kernel
  have hsegments : (tellingDraft.rawSegments []).toOption =
      some [⟨.plain, "a", 1, 1, "+s*n!x"⟩, ⟨.plain, "a", 1, 13, "#.?."⟩] := by decide +kernel
  have hcollapsed : (Move.afterInitialized (tellingWorld.compile tellingDraft).1 ⟨0⟩ ⟨⟨0⟩, ⟨0⟩, some .host, {}⟩
      (.ok .nothing)).look = some ("yexecutable n x", some ⟨1⟩, true) := by decide +kernel
  have hwritten : (Move.runSegments (tellingWorld.compile tellingDraft).1 ⟨0⟩ ⟨⟨0⟩, ⟨0⟩, some .host, {}⟩
      (tellingWorld.registry.written "executable"
        [⟨.plain, "a", 1, 1, "+s*n!x"⟩, ⟨.plain, "a", 1, 13, "#.?."⟩])).look =
      some ("yn executable [object Object]", some ⟨0⟩, true) := by decide +kernel
  have hcompiled : tellingWorld.compile tellingDraft = ((tellingWorld.compile tellingDraft).1, .ok ⟨0⟩) :=
    Prod.ext rfl (eq_ok_of_toOption hcompile)
  generalize (tellingWorld.compile tellingDraft).1 = w₁ at *
  obtain ⟨w, o, hends, hw⟩ := exists_of_look hcollapsed
  obtain ⟨v, o', hends', hv⟩ := exists_of_look hwritten
  have hsources : ∀ s ∈ [⟨.plain, "a", 1, 1, "+s*n!x"⟩, ⟨.plain, "a", 1, 13, "#.?."⟩],
      (RawSegment.lower (tellingWorld.registry.forms "executable") s).IsSource tellingWorld.registry
        fun _ => IsDigrams := by
    intro s hs
    refine isSource_digrams fun _ => ?_
    rcases List.mem_cons.1 hs with rfl | hs
    · decide
    · cases List.mem_singleton.1 hs
      decide
  refine ⟨composes_digrams (mem_digramWorld _), w₁, _, hcompiled, suits_of_compile hcompiled rfl (by decide)
    fun _ _ => rfl, ?_, hsources, w, o, v, o', hends, hends', hw, hv⟩
  rw [hdependencies]
  exact eq_ok_of_toOption hsegments

end ScriptedText
