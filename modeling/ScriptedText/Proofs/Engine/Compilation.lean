import Mathlib.Data.List.Forall2
import ScriptedText.Proofs.Engine.Act

/-!
What a compilation that succeeds has made: the segments of the document, lowered and collapsed, each program with its
source.
-/

namespace ScriptedText

theorem World.executable_addExecutable (w : World) (x : Executable) (event : Event) :
    ((w.addExecutable x).1.emit event).executable (w.addExecutable x).2 = x := by
  simp [addExecutable, emit, executable]

namespace Act

variable {α β γ : Type} {w w' : World}

theorem exists_of_perform_bind {x : Act α} {f : α → Act β} {b : β} (h : (x >>= f).perform w = (.ok b, w')) :
    ∃ a w₁, x.perform w = (.ok a, w₁) ∧ (f a).perform w₁ = (.ok b, w') := by
  rw [perform_bind] at h
  cases hx : (x.perform w).1 with
  | error e =>
      rw [hx] at h
      cases h
  | ok a =>
      rw [hx] at h
      exact ⟨a, (x.perform w).2, Prod.ext hx rfl, h⟩

/-- An act whose failures are passed on in another form succeeds by itself or not at all. -/
theorem perform_of_perform_tryCatch {x : Act α} {handler : Failure → Act α} {a : α}
    (hpass : ∀ f w, ∃ e, ((handler f).perform w).1 = .error e) (h : (tryCatch x handler).perform w = (.ok a, w')) :
    x.perform w = (.ok a, w') := by
  rw [perform_tryCatch] at h
  cases hx : (x.perform w).1 with
  | error f =>
      rw [hx] at h
      obtain ⟨e, he⟩ := hpass f (x.perform w).2
      exact absurd (he.symm.trans (congrArg Prod.fst h)) nofun
  | ok a' =>
      rw [hx] at h
      cases h
      exact Prod.ext hx rfl

theorem forall₂_of_perform_mapM {f : γ → Act α} {P : γ → α → Prop}
    (hf : ∀ c a w w', (f c).perform w = (.ok a, w') → P c a) {l : List γ} {as : List α}
    (h : (l.mapM f).perform w = (.ok as, w')) : List.Forall₂ P l as := by
  induction l generalizing w as with
  | nil =>
      cases h
      exact .nil
  | cons c l ih =>
      rw [List.mapM_cons] at h
      obtain ⟨a, w₁, ha, h⟩ := exists_of_perform_bind h
      obtain ⟨as', w₂, has, h⟩ := exists_of_perform_bind h
      cases h
      exact .cons (hf c a w w₁ ha) (ih has)

end Act

open Act

/-- A segment that can run: a program has its text for a source. -/
def PlacedSegment.IsReady (p : PlacedSegment) : Prop := p.isProgram = true → p.program = some p.text

/-- The segments of a draft as they were written, where its scriptlet bodies got the given names. -/
def Draft.rawSegments (o : Draft) (names : List String) : Except Failure (List RawSegment) :=
  if o.isText then
    (segmentDocument o.styles o.document o.tag (o.source.map fun _ k _ => names.getD k "") o.text.toList).map Prod.fst
  else .ok (parseSource o).segments

/-- What a part of a document was placed as, with the name that a body got. -/
def Part.PlacedAs (p : Part) (placed : RawSegment × Option String) : Prop :=
  match p with
  | .segment s => placed = (s, none)
  | .request r => ∃ name, placed = (r.inclusion name, some name)

section success

variable {inner : Draft → Act ExecutableId} {o : Draft} {w w' : World}

theorem placedAs_of_placePart {p : Part} {placed : RawSegment × Option String}
    (h : (placePart inner o p).perform w = (.ok placed, w')) : p.PlacedAs placed := by
  cases p with
  | segment s =>
      cases h
      exact rfl
  | request r =>
      unfold placePart placeRequest at h
      obtain ⟨name, w₁, -, h⟩ := exists_of_perform_bind h
      obtain ⟨e, w₂, -, h⟩ := exists_of_perform_bind h
      refine ⟨name, ?_⟩
      cases hsource : o.source with
      | none =>
          rw [hsource] at h
          cases h
          rfl
      | some s =>
          rw [hsource] at h
          obtain ⟨-, w₃, -, h⟩ := exists_of_perform_bind h
          cases h
          rfl

/-- By induction on the parts; the bodies before them have taken the names in front. -/
theorem placeParts_of_placedAs {parts : List Part} {placed : List (RawSegment × Option String)}
    (h : List.Forall₂ Part.PlacedAs parts placed) (before : List String) :
    placeParts (fun k _ => (before ++ placed.filterMap Prod.snd).getD k "") before.length parts =
      placed.map Prod.fst := by
  induction h generalizing before with
  | nil => rfl
  | @cons p q parts placed hp _ ih =>
      cases p with
      | segment s =>
          cases hp
          exact congrArg (s :: ·) (ih before)
      | request r =>
          obtain ⟨name, rfl⟩ := hp
          have hnames : before ++ name :: placed.filterMap Prod.snd =
              (before ++ [name]) ++ placed.filterMap Prod.snd := by simp
          have hrest := ih (before ++ [name])
          rw [← hnames, List.length_append, List.length_singleton] at hrest
          have hname : (before ++ name :: placed.filterMap Prod.snd).getD before.length "" = name := by simp
          change placeParts (fun k _ => (before ++ name :: placed.filterMap Prod.snd).getD k "") before.length
            (.request r :: parts) = _
          rw [placeParts, hname, hrest]
          rfl

/-- Where bodies are programs at their places there is none to be named. -/
theorem request?_readPieces {d : Delimiters} {active : String} {pieces : List Piece} {p : Part}
    (hp : p ∈ readPieces d false active pieces) : p.request? = none := by
  have hparts {active : String} {place : Place} {s : Scriptlet} (h : p ∈ s.parts d false active place) :
      p.request? = none := by
    unfold Scriptlet.parts at h
    split at h
    · cases h
    · split at h
      · split at h
        · rw [if_neg (fun h => nomatch h.1)] at h
          cases List.mem_singleton.1 h
          rfl
        · cases List.mem_singleton.1 h
          rfl
      · cases List.mem_singleton.1 h
        rfl
  induction pieces generalizing active with
  | nil => cases hp
  | cons piece rest ih =>
      cases piece with
      | literal place text =>
          rcases List.mem_cons.1 hp with rfl | hp
          · rfl
          · exact ih hp
      | scriptlet place body =>
          rcases List.mem_append.1 hp with hp | hp
          · exact hparts hp
          · exact ih hp

theorem request?_ofDocument {styles : List Delimiters} {tag : String} {source : List Char} {p : Part}
    (hp : p ∈ (Reading.ofDocument styles tag false source).parts) : p.request? = none := by
  unfold Reading.ofDocument at hp
  split at hp
  · exact request?_readPieces hp
  · exact request?_readPieces hp

theorem names_eq_nil {parts : List Part} {placed : List (RawSegment × Option String)}
    (h : List.Forall₂ Part.PlacedAs parts placed) (hparts : ∀ p ∈ parts, p.request? = none) :
    placed.filterMap Prod.snd = [] := by
  induction h with
  | nil => rfl
  | @cons p q parts placed hp _ ih =>
      have hrest := ih fun p hp => hparts p (List.mem_cons_of_mem _ hp)
      cases p with
      | segment s =>
          cases hp
          exact hrest
      | request r => cases hparts _ (List.mem_cons_self ..)

theorem rawSegments_of_parse {parsed : Parsed}
    (h : (if o.isText then parseText inner o else pure (parseSource o) : Act Parsed).perform w = (.ok parsed, w')) :
    o.rawSegments parsed.names = .ok parsed.segments := by
  unfold Draft.rawSegments
  cases htext : o.isText with
  | false =>
      rw [htext] at h
      cases h
      rfl
  | true =>
      rw [htext, if_pos rfl] at h
      rw [if_pos rfl]
      unfold parseText at h
      dsimp only at h
      split at h
      · cases h
      · obtain ⟨placed, w₁, hplaced, h⟩ := exists_of_perform_bind h
        have hforall := forall₂_of_perform_mapM (fun p q w w' => placedAs_of_placePart (o := o)) hplaced
        have hparts := placeParts_of_placedAs hforall []
        have hnaming : (o.source.map fun _ (k : Nat) (_ : Request) => (placed.filterMap Prod.snd).getD k "").getD
            (fun _ _ => "") = fun k _ => (placed.filterMap Prod.snd).getD k "" := by
          cases hsource : o.source with
          | some s => rfl
          | none =>
              rw [hsource] at hforall
              rw [names_eq_nil hforall fun p hp => request?_ofDocument hp]
              rfl
        unfold segmentDocument
        rw [Option.isSome_map]
        dsimp only
        cases hfailure : (Reading.ofDocument o.styles o.tag o.source.isSome o.text.toList).failure? o.document with
        | some f =>
            rw [hfailure] at h
            cases h
        | none =>
            rw [hfailure] at h
            cases h
            dsimp only
            rw [hnaming]
            exact congrArg Except.ok hparts

theorem isReady_of_resolveSegment {p q : PlacedSegment} (h : (resolveSegment o p).perform w = (.ok q, w')) :
    q.toSegment = p.toSegment ∧ q.IsReady := by
  unfold resolveSegment at h
  cases hprog : p.isProgram with
  | false =>
      rw [hprog] at h
      cases h
      exact ⟨rfl, fun hready => absurd (hprog.symm.trans hready) nofun⟩
  | true =>
      rw [hprog] at h
      obtain ⟨w₀, w₁, hget, h⟩ := exists_of_perform_bind h
      split at h
      · cases h
      · obtain ⟨-, w₂, -, h⟩ := exists_of_perform_bind h
        cases h
        exact ⟨rfl, fun _ => rfl⟩

theorem ready_of_resolved {placed resolved : List PlacedSegment}
    (h : List.Forall₂ (fun p q => q.toSegment = p.toSegment ∧ q.IsReady) placed resolved) :
    resolved.map PlacedSegment.toSegment = placed.map PlacedSegment.toSegment ∧ ∀ p ∈ resolved, p.IsReady := by
  induction h with
  | nil => exact ⟨rfl, nofun⟩
  | cons hq _ ih =>
      refine ⟨?_, fun p hp => ?_⟩
      · rw [List.map_cons, List.map_cons, hq.1, ih.1]
      · rcases List.mem_cons.1 hp with rfl | hp
        · exact hq.2
        · exact ih.2 p hp

theorem map_toSegment_placeAll (segments : List Segment) :
    (placeAll segments).map PlacedSegment.toSegment = segments := by
  unfold placeAll
  rw [List.map_map]
  exact List.zipIdx_map_fst 0 segments

/-- An executable holds the segments of its document, lowered and collapsed, and ready to run. -/
structure Executable.IsCompiled (x : Executable) (registry : Registry) (o : Draft) (raw : List RawSegment) :
    Prop where
  exposed : x.exposed = o.exposed
  written : o.rawSegments x.dependencies = .ok raw
  segments : x.segments.map PlacedSegment.toSegment = collapsed (registry.forms o.exposed) o.tag raw
  ready : ∀ p ∈ x.segments, p.IsReady

/-- A draft that is constructed is parsed first, and then its segments get their programs. -/
theorem exists_of_perform_construct {x : Executable} (h : (construct inner o).perform w = (.ok x, w')) :
    ∃ parsed w₁ segments,
      (if o.isText then parseText inner o else pure (parseSource o) : Act Parsed).perform w = (.ok parsed, w₁) ∧
      ((placeAll (collapsed (w.registry.forms o.exposed) o.tag parsed.segments)).mapM (resolveSegment o)).perform w₁ =
        (.ok segments, w') ∧
      x = {
        name := o.document, registered := o.registered, partition := o.partition
        timestamp := o.timestamp.getD w.clock, exposed := o.exposed, delimiters := parsed.delimiters
        segments, dependencies := parsed.names } := by
  unfold construct at h
  obtain ⟨w₀, w₁, hget, h⟩ := exists_of_perform_bind h
  cases hget
  have hparse : ∃ parsed w₂, (if o.isText then parseText inner o else pure (parseSource o) : Act Parsed).perform w =
      (.ok parsed, w₂) ∧ (do
        let placed := placeAll (collapsed (w.registry.forms o.exposed) o.tag parsed.segments)
        let segments ← placed.mapM (resolveSegment o)
        return ({
          name := o.document, registered := o.registered, partition := o.partition
          timestamp := o.timestamp.getD w.clock, exposed := o.exposed, delimiters := parsed.delimiters
          segments, dependencies := parsed.names } : Executable) : Act Executable).perform w₂ = (.ok x, w') := by
    cases htext : o.isText with
    | false =>
        rw [htext] at h
        exact ⟨_, _, rfl, h⟩
    | true =>
        rw [htext] at h
        exact exists_of_perform_bind h
  obtain ⟨parsed, w₂, hparsed, h⟩ := hparse
  obtain ⟨segments, w₃, hsegments, h⟩ := exists_of_perform_bind h
  cases h
  exact ⟨parsed, w₂, segments, hparsed, hsegments, rfl⟩

theorem isCompiled_of_construct {x : Executable} (h : (construct inner o).perform w = (.ok x, w')) :
    ∃ raw, x.IsCompiled w.registry o raw := by
  obtain ⟨parsed, w₁, segments, hparsed, hsegments, rfl⟩ := exists_of_perform_construct h
  have hresolved := forall₂_of_perform_mapM (fun p q w w' => isReady_of_resolveSegment (o := o)) hsegments
  obtain ⟨hsame, hready⟩ := ready_of_resolved hresolved
  exact ⟨parsed.segments, rfl, rawSegments_of_parse hparsed, hsame.trans (map_toSegment_placeAll _), hready⟩

end success

/-- What a compilation results in is what its draft says. -/
theorem compiled_of_compileWithin {w w' : World} {depth : Nat} {o : Draft} {e : ExecutableId}
    (h : (compileWithin depth o).perform w = (.ok e, w')) : e.index < w'.executables.length ∧
      (w'.executable e).registered = o.registered ∧ (w'.executable e).partition = o.partition ∧
      ∃ raw, (w'.executable e).IsCompiled w.registry o raw := by
  cases depth with
  | zero => cases h
  | succ depth =>
      change (compileWith (compileWithin depth) o).perform w = (.ok e, w') at h
      unfold compileWith at h
      obtain ⟨x, w₁, hx, hadd⟩ := exists_of_perform_bind h
      have hconstruct := perform_of_perform_tryCatch (fun f w => ⟨f, rfl⟩) hx
      cases hadd
      have hadded := w₁.executable_addExecutable x (.compiled o.document x.segments.length)
      obtain ⟨raw, hraw⟩ := isCompiled_of_construct hconstruct
      obtain ⟨parsed, w₂, segments, -, -, hplaced⟩ := exists_of_perform_construct hconstruct
      rw [← hadded] at hraw hplaced
      refine ⟨?_, congrArg Executable.registered hplaced, congrArg Executable.partition hplaced, raw, hraw⟩
      change w₁.executables.length < (w₁.executables ++ [x]).length
      simp

theorem isCompiled_of_compile {w w' : World} {o : Draft} {e : ExecutableId} (h : w.compile o = (w', .ok e)) :
    e.index < w'.executables.length ∧ ∃ raw, (w'.executable e).IsCompiled w.registry o raw := by
  rw [World.compile_eq_perform] at h
  obtain ⟨hw, he⟩ := Prod.mk.inj h
  obtain ⟨hlt, -, -, hraw⟩ := compiled_of_compileWithin (Prod.ext he hw)
  exact ⟨hlt, hraw⟩

/-- A document was rejected, or it never comes to an end to read it. -/
def Failure.IsRejection : Failure → Prop
  | .fault f => f.kind = .parsing
  | .endless => True
  | _ => False

namespace Act

variable {α β γ : Type} {P : Failure → Prop}

/-- Where the act fails, its failure is of a kind. -/
def FailsAs (P : Failure → Prop) (x : Act α) : Prop := ∀ w f, (x.perform w).1 = .error f → P f

theorem failsAs_pure (a : α) : FailsAs P (pure a : Act α) := nofun

theorem failsAs_throw {f : Failure} (h : P f) : FailsAs P (throw f : Act α) := by
  intro w e he
  cases he
  exact h

theorem failsAs_bind {x : Act α} {g : α → Act β} (hx : FailsAs P x) (hg : ∀ a, FailsAs P (g a)) : FailsAs P (x >>= g) := by
  intro w f hf
  rw [perform_bind] at hf
  split at hf
  · exact hg _ _ f hf
  · next heq =>
      cases hf
      exact hx w f heq

/-- What the handler is given is of another kind. -/
theorem failsAs_tryCatch {Q : Failure → Prop} {x : Act α} {handler : Failure → Act α} (hx : FailsAs Q x)
    (hh : ∀ f, Q f → FailsAs P (handler f)) : FailsAs P (tryCatch x handler) := by
  intro w f hf
  rw [perform_tryCatch] at hf
  split at hf
  · cases hf
  · next heq => exact hh _ (hx w _ heq) _ f hf

theorem failsAs_mapM {g : γ → Act α} {l : List γ} (hg : ∀ c, FailsAs P (g c)) : FailsAs P (l.mapM g) := by
  induction l with
  | nil => exact failsAs_pure []
  | cons c l ih =>
      rw [List.mapM_cons]
      exact failsAs_bind (hg c) fun a => failsAs_bind ih fun as => failsAs_pure (a :: as)

theorem isRejection_within {f : Failure} (h : f.IsRejection) (s : Site) : (f.within s).IsRejection := by
  cases f <;> exact h

theorem isRejection_refused (tag : String) (site : Site) (f : Failure) : (refused tag site f).IsRejection := by
  cases f with
  | fault f =>
      change (if f.kind = .parsing then .fault (if f.sites = [] then f.within site else f)
        else (Problem.programRejected tag f.message).failure [site] : Failure).IsRejection
      split
      · next hparsing =>
          change (if f.sites = [] then f.within site else f).kind = .parsing
          split <;> exact hparsing
      · exact rfl
  | endless => exact trivial
  | _ => exact rfl

theorem failsAs_resolveSegment (o : Draft) (s : PlacedSegment) : FailsAs Failure.IsRejection (resolveSegment o s) := by
  unfold resolveSegment
  split
  · exact failsAs_pure s
  · refine failsAs_bind (fun _ => nofun) fun w => ?_
    split
    · exact failsAs_throw rfl
    · refine failsAs_bind (failsAs_tryCatch (Q := fun _ => True) (fun _ _ _ => trivial) fun f _ => ?_) fun _ => failsAs_pure _
      exact failsAs_throw (isRejection_refused s.tag _ f)

variable {inner : Draft → Act ExecutableId} (hinner : ∀ o, FailsAs Failure.IsRejection (inner o))

include hinner

theorem failsAs_placePart (o : Draft) (p : Part) : FailsAs Failure.IsRejection (placePart inner o p) := by
  cases p with
  | segment s => exact failsAs_pure (s, none)
  | request r =>
      change FailsAs Failure.IsRejection (placeRequest inner o r)
      unfold placeRequest
      refine failsAs_bind (fun _ => nofun) fun name => ?_
      refine failsAs_bind (failsAs_tryCatch (hinner (o.body r name)) fun f hf => failsAs_throw (isRejection_within hf _)) fun e => ?_
      split
      · exact failsAs_bind (fun _ => nofun) fun _ => failsAs_pure _
      · exact failsAs_pure _

theorem failsAs_parseText (o : Draft) : FailsAs Failure.IsRejection (parseText inner o) := by
  unfold parseText
  dsimp only
  split
  · exact failsAs_throw trivial
  · refine failsAs_bind (failsAs_mapM (failsAs_placePart hinner o)) fun placed => ?_
    split
    · next f hfailure =>
        refine failsAs_throw ?_
        unfold Reading.failure? at hfailure
        split at hfailure
        · cases hfailure
        · cases hfailure
          exact rfl
        · cases hfailure
          exact trivial
    · exact failsAs_pure _

theorem failsAs_compileWith (o : Draft) : FailsAs Failure.IsRejection (compileWith inner o) := by
  have hrest (parsed : Parsed) (segments : List PlacedSegment) (x : List PlacedSegment → Executable) :
      FailsAs Failure.IsRejection (segments.mapM (resolveSegment o) >>= fun resolved => pure (x resolved)) :=
    failsAs_bind (failsAs_mapM (failsAs_resolveSegment o)) fun _ => failsAs_pure _
  have hconstruct : FailsAs Failure.IsRejection (construct inner o) := by
    unfold construct
    refine failsAs_bind (fun _ => nofun) fun w => ?_
    dsimp only
    split
    · exact failsAs_bind (failsAs_parseText hinner o) fun parsed => hrest parsed _ _
    · exact failsAs_bind (failsAs_pure _) fun parsed => hrest parsed _ _
  unfold compileWith
  refine failsAs_bind (failsAs_tryCatch hconstruct fun f hf => ?_) fun x => fun _ => nofun
  exact failsAs_bind (fun _ => nofun) fun _ => failsAs_throw hf

end Act

theorem isRejection_of_compile {w w' : World} {o : Draft} {f : Failure} (h : w.compile o = (w', .error f)) : f.IsRejection := by
  have hfails (depth : Nat) : ∀ o, FailsAs Failure.IsRejection (compileWithin depth o) := by
    induction depth with
    | zero => exact fun _ => failsAs_throw trivial
    | succ depth ih => exact failsAs_compileWith ih
  rw [World.compile_eq_perform] at h
  exact hfails _ o w f (Prod.mk.inj h).2

end ScriptedText
