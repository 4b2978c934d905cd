import ScriptedText.Proofs.Engine.Bodies
import ScriptedText.Proofs.Engine.Compilation
import ScriptedText.Proofs.Engine.Evolution
import ScriptedText.Proofs.Engine.Registration

/-!
How the construction of a document turns out. It succeeds just if its text and those of all bodies inside are closed and
all their programs are accepted; else it fails with the fault of one of them, at its own site and those of the scriptlets
around it.
-/

namespace ScriptedText

/-- The adapter makes a program of the source, and prepares it where that is asked for. -/
def Adapter.Accepts (a : Adapter) (prepare : Bool) (source : String) : Prop :=
  a.create source = .ok () ∧ (prepare = true → a.prepare source = .ok ())

inductive Adapter.Refuses (a : Adapter) (prepare : Bool) (source : String) (f : Failure) : Prop
  | create (h : a.create source = .error f)
  | prepare (hp : prepare = true) (hc : a.create source = .ok ()) (h : a.prepare source = .error f)

/-- Where the adapter fails it comes to an end, and gives a parsing fault no site. -/
def Adapter.FailsBare (a : Adapter) : Prop :=
  ∀ source f, a.create source = .error f ∨ a.prepare source = .error f →
    f ≠ .endless ∧ ∀ g, f = .fault g → g.kind = .parsing → g.sites = []

/-- How a segment is resolved: a program is attached once, made from just its text; a literal stays as it is. -/
def PlacedSegment.Resolves (p q : PlacedSegment) : Prop := if p.isProgram then p.attach p.text = .ok q else q = p

namespace Draft

/-- The segments as they are written, where `k` is the number of the next name. -/
def raw (o : Draft) (k : Nat) : List RawSegment :=
  if o.isText then placeParts (fun i _ => (o.names k).getD i "") 0 o.reading.parts else (parseSource o).segments

/-- The segments as they are to be resolved. -/
def laid (registry : Registry) (o : Draft) (k : Nat) : List Segment :=
  collapsed (registry.forms o.exposed) o.tag (o.raw k)

def Admits (registry : Registry) (o : Draft) (s : Segment) : Prop :=
  s.isProgram = true → ∃ a, registry.adapterForTag? s.tag = some a ∧ a.Accepts o.prepare s.text

inductive Rejects (registry : Registry) (o : Draft) (s : Segment) : Failure → Prop
  | missing (hp : s.isProgram = true) (h : registry.adapterForTag? s.tag = none) :
      Rejects registry o s ((Problem.adapterMissing s.tag).failure [s.site o.document])
  | refused {a : Adapter} {f : Failure} (hp : s.isProgram = true) (ha : registry.adapterForTag? s.tag = some a)
      (hf : a.Refuses o.prepare s.text f) : Rejects registry o s (refused s.tag (s.site o.document) f)

/-- All scriptlets of the draft itself are closed, and all its programs are accepted. -/
structure Sound (registry : Registry) (o : Draft) (k : Nat) : Prop where
  closed : o.isText = true → o.reading.ending = .complete
  admitted : ∀ s ∈ o.laid registry k, o.Admits registry s

/-- What is wrong with the draft itself, and where. -/
inductive Faulty (registry : Registry) (o : Draft) (k : Nat) : Site → Failure → Prop
  | unclosed {p : Place} (ht : o.isText = true) (h : o.reading.ending = .unclosed p) :
      Faulty registry o k (o.site p)
        ((Problem.unclosedScriptlet (o.reading.delimiters.getD .percent).closing).failure [o.site p])
  | segment {s : Segment} {f : Failure} (hs : s ∈ o.laid registry k) (h : o.Rejects registry s f) :
      Faulty registry o k (s.site o.document) f

/-- Nothing is wrong with the draft and those inside it. -/
def AllSound (registry : Registry) (o : Draft) (k : Nat) : Prop :=
  ∀ inner n outer, o.Nests k inner n outer → inner.Sound registry n

/-- The failure is a parsing fault of the draft or one inside it: its sites are where that one is wrong, and then the
scriptlets around it, from the innermost outwards. -/
def Traced (registry : Registry) (o : Draft) (k : Nat) (f : Failure) : Prop :=
  ∃ inner n outer site fault, o.Nests k inner n outer ∧ inner.Faulty registry n site (.fault fault) ∧
    fault.kind = .parsing ∧ f = .fault { fault with sites := site :: outer }

end Draft

/-- An executable holds the segments of its draft, each resolved, and the names of the draft's own bodies. -/
structure Executable.IsBuilt (x : Executable) (registry : Registry) (o : Draft) (k : Nat) : Prop where
  dependencies : x.dependencies = o.names k
  segments : List.Forall₂ PlacedSegment.Resolves (placeAll (o.laid registry k)) x.segments

/-! Where acts fail. -/

namespace Act

variable {α β γ : Type} {w w' : World} {e : Failure}

theorem error_of_perform_bind {x : Act α} {f : α → Act β} (h : (x >>= f).perform w = (.error e, w')) :
    x.perform w = (.error e, w') ∨ ∃ a w₁, x.perform w = (.ok a, w₁) ∧ (f a).perform w₁ = (.error e, w') := by
  rw [perform_bind] at h
  cases hx : (x.perform w).1 with
  | error e' =>
      rw [hx] at h
      cases h
      exact .inl (Prod.ext hx rfl)
  | ok a =>
      rw [hx] at h
      exact .inr ⟨a, (x.perform w).2, Prod.ext hx rfl, h⟩

theorem error_of_perform_tryCatch {x : Act α} {g : Failure → Failure}
    (h : (tryCatch x fun f => throw (g f)).perform w = (.error e, w')) : ∃ f, x.perform w = (.error f, w') ∧ e = g f := by
  rw [perform_tryCatch] at h
  cases hx : (x.perform w).1 with
  | ok a =>
      rw [hx] at h
      cases h
  | error f =>
      rw [hx] at h
      cases h
      exact ⟨f, Prod.ext hx rfl, rfl⟩

section mapM

variable {I : World → Prop} {P : γ → α → Prop} {f : γ → Act α} {l : List γ}
  (hf : ∀ c ∈ l, ∀ a w w', I w → (f c).perform w = (.ok a, w') → P c a ∧ I w')

include hf

theorem forall₂_of_perform_mapM_in (hw : I w) {as : List α} (h : (l.mapM f).perform w = (.ok as, w')) :
    List.Forall₂ P l as ∧ I w' := by
  induction l generalizing w as with
  | nil =>
      cases h
      exact ⟨.nil, hw⟩
  | cons c l ih =>
      rw [List.mapM_cons] at h
      obtain ⟨a, w₁, ha, h⟩ := exists_of_perform_bind h
      obtain ⟨as', w₂, has, h⟩ := exists_of_perform_bind h
      cases h
      obtain ⟨hP, hI⟩ := hf c (List.mem_cons_self ..) a w w₁ hw ha
      obtain ⟨hrest, hI'⟩ := ih (fun c' hc' => hf c' (List.mem_cons_of_mem _ hc')) hI has
      exact ⟨.cons hP hrest, hI'⟩

theorem error_of_perform_mapM (hw : I w) (h : (l.mapM f).perform w = (.error e, w')) :
    ∃ c ∈ l, ∃ w₁ w₂, I w₁ ∧ (f c).perform w₁ = (.error e, w₂) := by
  induction l generalizing w with
  | nil => cases h
  | cons c l ih =>
      rw [List.mapM_cons] at h
      rcases error_of_perform_bind h with h | ⟨a, w₁, ha, h⟩
      · exact ⟨c, List.mem_cons_self .., w, w', hw, h⟩
      · have hI := (hf c (List.mem_cons_self ..) a w w₁ hw ha).2
        rcases error_of_perform_bind h with h | ⟨as, w₂, -, h⟩
        · obtain ⟨c', hc', hfails⟩ := ih (fun c' hc' => hf c' (List.mem_cons_of_mem _ hc')) hI h
          exact ⟨c', List.mem_cons_of_mem _ hc', hfails⟩
        · cases h

end mapM

end Act

open World Act

/-! A single segment. -/

section segments

variable {registry : Registry} {w w' : World} {o : Draft} {a : Adapter} {prepare : Bool} {source : String} {f : Failure}
  {p q : PlacedSegment} {s : Segment} {k : Nat} {site : Site}

theorem accepts_of_checkProgram {u : Unit} (h : (checkProgram a prepare source).perform w = (.ok u, w')) :
    a.Accepts prepare source := by
  simp only [checkProgram] at h
  obtain ⟨u₁, w₁, hcreate, h⟩ := exists_of_perform_bind h
  have hlift {x : Except Failure Unit} {w w' : World} {u : Unit}
      (hx : (checkProgram.liftExcept x).perform w = (.ok u, w')) : x = .ok () := by
    cases x with
    | ok _ => rfl
    | error f => cases hx
  refine ⟨hlift hcreate, ?_⟩
  rintro rfl
  rw [if_pos rfl] at h
  split at h
  · obtain ⟨-, w₂, -, h⟩ := exists_of_perform_bind h
    exact hlift h
  · exact hlift h

theorem refuses_of_checkProgram (h : (checkProgram a prepare source).perform w = (.error f, w')) :
    a.Refuses prepare source f := by
  simp only [checkProgram] at h
  have hlift {x : Except Failure Unit} {w w' : World} (hx : (checkProgram.liftExcept x).perform w = (.error f, w')) :
      x = .error f := by
    cases x with
    | ok _ => cases hx
    | error f' =>
        cases hx
        rfl
  rcases error_of_perform_bind h with h | ⟨u₁, w₁, hcreate, h⟩
  · exact .create (hlift h)
  · have hok : a.create source = .ok () := by
      cases hc : a.create source with
      | ok _ => rfl
      | error f' =>
          rw [hc] at hcreate
          cases hcreate
    split at h
    · next hprepare =>
        split at h
        · rcases error_of_perform_bind h with h | ⟨-, w₂, -, h⟩
          · cases h
          · exact .prepare hprepare hok (hlift h)
        · exact .prepare hprepare hok (hlift h)
    · cases h

theorem resolves_of_perform (hp : p.program = none) (h : (resolveSegment o p).perform w = (.ok q, w')) :
    p.Resolves q ∧ o.Admits w.registry p.toSegment := by
  simp only [resolveSegment] at h
  cases hprogram : p.isProgram with
  | false =>
      rw [hprogram] at h
      cases h
      refine ⟨?_, fun h => absurd (hprogram.symm.trans h) nofun⟩
      simp [PlacedSegment.Resolves, hprogram]
  | true =>
      rw [hprogram] at h
      obtain ⟨w₀, w₁, hget, h⟩ := exists_of_perform_bind h
      cases hget
      split at h
      · cases h
      · next a ha =>
          obtain ⟨u, w₂, hcheck, h⟩ := exists_of_perform_bind h
          cases h
          have hchecked := perform_of_perform_tryCatch (fun f w => ⟨_, rfl⟩) hcheck
          refine ⟨?_, fun _ => ⟨a, ha, accepts_of_checkProgram hchecked⟩⟩
          simp [PlacedSegment.Resolves, PlacedSegment.attach, hprogram, hp]

theorem rejects_of_perform (h : (resolveSegment o p).perform w = (.error f, w')) : o.Rejects w.registry p.toSegment f := by
  simp only [resolveSegment] at h
  cases hprogram : p.isProgram with
  | false =>
      rw [hprogram] at h
      cases h
  | true =>
      rw [hprogram] at h
      rcases error_of_perform_bind h with h | ⟨w₀, w₁, hget, h⟩
      · cases h
      · cases hget
        split at h
        · next hnone =>
            cases h
            exact .missing hprogram hnone
        · next a ha =>
            rcases error_of_perform_bind h with h | ⟨u, w₂, -, h⟩
            · obtain ⟨f', hcheck, rfl⟩ := error_of_perform_tryCatch h
              exact .refused hprogram ha (refuses_of_checkProgram hcheck)
            · cases h

theorem not_admits_of_rejects (h : o.Rejects registry s f) : ¬ o.Admits registry s := by
  intro hadmits
  cases h with
  | missing hp hnone =>
      obtain ⟨a, ha, -⟩ := hadmits hp
      cases hnone.symm.trans ha
  | refused hp ha hf =>
      obtain ⟨a', ha', hcreate, hprepare⟩ := hadmits hp
      cases ha.symm.trans ha'
      cases hf with
      | create h => cases hcreate.symm.trans h
      | prepare hp _ h => cases (hprepare hp).symm.trans h

theorem Draft.Faulty.not_sound (h : o.Faulty registry k site f) : ¬ o.Sound registry k := by
  intro hsound
  cases h with
  | unclosed ht h => cases (hsound.closed ht).symm.trans h
  | segment hs h => exact not_admits_of_rejects h (hsound.admitted _ hs)

theorem mem_adapters_of_adapterForTag? {tag : String} (h : registry.adapterForTag? tag = some a) :
    a ∈ registry.adapters := by
  obtain ⟨id, -, hid⟩ := Option.bind_eq_some_iff.1 h
  exact List.mem_of_getElem? hid

variable (hbare : ∀ a ∈ registry.adapters, a.FailsBare)

include hbare

/-- What is wrong with a draft is told as a parsing fault with the one site. -/
theorem Draft.Faulty.exists_fault (h : o.Faulty registry k site f) :
    ∃ fault, f = .fault fault ∧ fault.kind = .parsing ∧ fault.sites = [site] := by
  cases h with
  | unclosed => exact ⟨_, rfl, rfl, rfl⟩
  | @segment s _ hs h =>
      cases h with
      | missing => exact ⟨_, rfl, rfl, rfl⟩
      | @refused a f' hp ha hf =>
          obtain ⟨hends, hsites⟩ := hbare a (mem_adapters_of_adapterForTag? ha) _ f' (by
            cases hf with
            | create h => exact .inl h
            | prepare _ _ h => exact .inr h)
          cases f' with
          | endless => exact absurd rfl hends
          | fault g =>
              by_cases hkind : g.kind = .parsing
              · have hnone := hsites g rfl hkind
                refine ⟨g.within (s.site o.document), ?_, hkind, ?_⟩
                · simp only [refused, if_pos hkind, if_pos hnone]
                · simp [Fault.within, hnone]
              · refine ⟨(Problem.programRejected s.tag g.message).fault [s.site o.document], ?_, rfl, rfl⟩
                simp only [refused, if_neg hkind]
                rfl
          | error | misuse | thrown => exact ⟨_, rfl, rfl, rfl⟩

/-- The fault of a draft itself. -/
theorem Draft.Faulty.traced (h : o.Faulty registry k site f) : o.Traced registry k f := by
  obtain ⟨fault, rfl, hkind, hsites⟩ := h.exists_fault hbare
  refine ⟨o, k, [], site, fault, .self, h, hkind, ?_⟩
  rw [← hsites]

end segments

/-! What stands in a body stands in the document. -/

section nesting

variable {registry : Registry} {o : Draft} {k j : Nat} {r : Request} {f : Failure}

theorem allSound_of_bodies (ho : o.Sound registry k)
    (hbodies : ∀ j r, (j, r) ∈ o.numbered k → (o.body r (Document.inFlowName j)).AllSound registry (j + 1)) :
    o.AllSound registry k := by
  intro inner n outer h
  rcases Draft.nests_cases h with ⟨rfl, rfl, -⟩ | ⟨j, r, outer', hr, h, -⟩
  · exact ho
  · exact hbodies j r hr inner n outer' h

theorem traced_of_body (hr : (j, r) ∈ o.numbered k) (h : (o.body r (Document.inFlowName j)).Traced registry (j + 1) f) :
    o.Traced registry k (f.within (o.site r.place)) := by
  obtain ⟨inner, n, outer, site, fault, hnests, hfaulty, hkind, rfl⟩ := h
  exact ⟨inner, n, outer ++ [o.site r.place], site, fault, hnests.outward hr, hfaulty, hkind, rfl⟩

theorem not_allSound_of_traced (h : o.Traced registry k f) : ¬ o.AllSound registry k := by
  obtain ⟨inner, n, outer, site, fault, hnests, hfaulty, -⟩ := h
  intro hsound
  exact hfaulty.not_sound (hsound inner n outer hnests)

end nesting

/-- What it comes to when an act constructs a draft: all that the draft holds is sound, or what is wrong is told. -/
structure Draft.Settles (registry : Registry) (o : Draft) (x : Act ExecutableId) : Prop where
  keeps : ∀ w, (x.perform w).2.registry = w.registry
  ok : ∀ w e w', w.registry = registry → x.perform w = (.ok e, w') →
    o.AllSound registry w.inFlowCount ∧ w'.inFlowCount = w.inFlowCount + o.count ∧
      e.index < w'.executables.length ∧ (w'.executable e).IsBuilt registry o w.inFlowCount
  error : ∀ w f w', w.registry = registry → x.perform w = (.error f, w') → o.Traced registry w.inFlowCount f

section construction

variable {registry : Registry} {inner : Draft → Act ExecutableId} {o : Draft} {w w' : World} {r : Request} {f : Failure}
  {parts : List Part}

section request

variable (hinner : ∀ name, (o.body r name).Settles registry (inner (o.body r name))) (hw : w.registry = registry)

include hinner hw

theorem ok_of_placeRequest {placed : RawSegment × Option String}
    (h : (placeRequest inner o r).perform w = (.ok placed, w')) :
    placed.2 = some (Document.inFlowName w.inFlowCount) ∧ w'.registry = registry ∧
      w'.inFlowCount = w.inFlowCount + 1 + (o.body r "").count ∧
      (o.body r (Document.inFlowName w.inFlowCount)).AllSound registry (w.inFlowCount + 1) := by
  simp only [placeRequest] at h
  obtain ⟨name, w₀, hname, h⟩ := exists_of_perform_bind h
  cases hname
  obtain ⟨e, w₁, he, h⟩ := exists_of_perform_bind h
  have he := perform_of_perform_tryCatch (fun f w => ⟨_, rfl⟩) he
  have hcompiled := hinner (Document.inFlowName w.inFlowCount)
  obtain ⟨hsound, hcount, -⟩ := hcompiled.ok { w with inFlowCount := w.inFlowCount + 1 } e w₁ hw he
  have hkeeps := hcompiled.keeps { w with inFlowCount := w.inFlowCount + 1 }
  rw [he] at hkeeps
  have hregistry : w₁.registry = registry := hkeeps.trans hw
  cases hsource : o.source with
  | none =>
      rw [hsource] at h
      cases h
      exact ⟨rfl, hregistry, hcount, hsound⟩
  | some s =>
      rw [hsource] at h
      obtain ⟨u, w₂, hset, h⟩ := exists_of_perform_bind h
      cases hset
      cases h
      have hset := registers_setDocument s w₁ (Document.inFlowName w.inFlowCount) (String.ofList r.source) "" (some e)
      exact ⟨rfl, (looks_setDocument ..).registry_eq.trans hregistry, hset.counter.trans hcount, hsound⟩

theorem error_of_placeRequest (h : (placeRequest inner o r).perform w = (.error f, w')) :
    ∃ f', (o.body r (Document.inFlowName w.inFlowCount)).Traced registry (w.inFlowCount + 1) f' ∧
      f = f'.within (o.site r.place) := by
  simp only [placeRequest] at h
  rcases error_of_perform_bind h with h | ⟨name, w₀, hname, h⟩
  · cases h
  · cases hname
    rcases error_of_perform_bind h with h | ⟨e, w₁, -, h⟩
    · obtain ⟨f', hf', rfl⟩ := error_of_perform_tryCatch h
      exact ⟨f', (hinner (Document.inFlowName w.inFlowCount)).error { w with inFlowCount := w.inFlowCount + 1 } f' w' hw hf', rfl⟩
    · cases hsource : o.source with
      | none =>
          rw [hsource] at h
          cases h
      | some s =>
          rw [hsource] at h
          rcases error_of_perform_bind h with h | ⟨u, w₂, hset, h⟩ <;> cases h

end request

section parts

variable (hinner : ∀ r ∈ parts.filterMap Part.request?, ∀ name, (o.body r name).Settles registry (inner (o.body r name)))

include hinner

/-- By induction on the parts; each body takes the number that those before it have left. -/
theorem ok_of_placeParts {placed : List (RawSegment × Option String)} (hw : w.registry = registry)
    (h : (parts.mapM (placePart inner o)).perform w = (.ok placed, w')) :
    let bodies := numberFrom (fun r => (o.body r "").count) w.inFlowCount (parts.filterMap Part.request?)
    placed.filterMap Prod.snd = bodies.map (fun b => Document.inFlowName b.1) ∧ w'.registry = registry ∧
      w'.inFlowCount =
        w.inFlowCount + ((parts.filterMap Part.request?).map fun r => (o.body r "").count + 1).sum ∧
      ∀ j r, (j, r) ∈ bodies → (o.body r (Document.inFlowName j)).AllSound registry (j + 1) := by
  induction parts generalizing w placed with
  | nil =>
      cases h
      exact ⟨rfl, hw, rfl, nofun⟩
  | cons part parts ih =>
      rw [List.mapM_cons] at h
      obtain ⟨first, w₁, hfirst, h⟩ := exists_of_perform_bind h
      obtain ⟨rest, w₂, hrest, h⟩ := exists_of_perform_bind h
      cases h
      cases part with
      | segment s =>
          cases hfirst
          have hall := ih hinner hw hrest
          exact hall
      | request r =>
          have hr := hinner r (List.mem_cons_self ..)
          obtain ⟨hname, hregistry, hcount, hsound⟩ := ok_of_placeRequest hr hw hfirst
          obtain ⟨hnames, hkept, hcounts, hsounds⟩ := ih (fun r' hr' => hinner r' (List.mem_cons_of_mem _ hr')) hregistry hrest
          simp only [hcount] at hnames hcounts hsounds
          refine ⟨?_, hkept, ?_, ?_⟩
          · rw [List.filterMap_cons, hname, hnames]
            rfl
          · change w'.inFlowCount = _ + (List.map _ (r :: parts.filterMap Part.request?)).sum
            rw [hcounts, List.map_cons, List.sum_cons]
            omega
          · intro j r' hmem
            rcases List.mem_cons.1 hmem with heq | hmem
            · cases heq
              exact hsound
            · exact hsounds j r' hmem

theorem error_of_placeParts (hw : w.registry = registry)
    (h : (parts.mapM (placePart inner o)).perform w = (.error f, w')) :
    ∃ j r f', (j, r) ∈ numberFrom (fun r => (o.body r "").count) w.inFlowCount (parts.filterMap Part.request?) ∧
      (o.body r (Document.inFlowName j)).Traced registry (j + 1) f' ∧ f = f'.within (o.site r.place) := by
  induction parts generalizing w with
  | nil => cases h
  | cons part parts ih =>
      rw [List.mapM_cons] at h
      cases part with
      | segment s =>
          rcases error_of_perform_bind h with h | ⟨first, w₁, hfirst, h⟩
          · cases h
          · cases hfirst
            rcases error_of_perform_bind h with h | ⟨rest, w₂, -, h⟩
            · exact ih hinner hw h
            · cases h
      | request r =>
          have hr := hinner r (List.mem_cons_self ..)
          rcases error_of_perform_bind h with h | ⟨first, w₁, hfirst, h⟩
          · obtain ⟨f', htraced, rfl⟩ := error_of_placeRequest hr hw h
            exact ⟨w.inFlowCount, r, f', List.mem_cons_self .., htraced, rfl⟩
          · obtain ⟨-, hregistry, hcount, -⟩ := ok_of_placeRequest hr hw hfirst
            rcases error_of_perform_bind h with h | ⟨rest, w₂, -, h⟩
            · obtain ⟨j, r', f', hmem, htraced⟩ := ih (fun r' hr' => hinner r' (List.mem_cons_of_mem _ hr')) hregistry h
              rw [hcount] at hmem
              exact ⟨j, r', f', List.mem_cons_of_mem _ hmem, htraced⟩
            · cases h

end parts

section parsing

theorem ok_of_parseText {parsed : Parsed} (h : (parseText inner o).perform w = (.ok parsed, w')) :
    o.reading.ending = .complete ∧ ∃ placed, (o.reading.parts.mapM (placePart inner o)).perform w = (.ok placed, w') ∧
      parsed = {
        segments := placed.map Prod.fst, delimiters := o.reading.delimiters.getD o.firstStyle
        names := placed.filterMap Prod.snd } := by
  rw [parseText, ← Draft.reading] at h
  dsimp only at h
  split at h
  · cases h
  · obtain ⟨placed, w₁, hplaced, h⟩ := exists_of_perform_bind h
    cases hending : o.reading.ending with
    | complete =>
        simp only [Reading.failure?, hending] at h
        cases h
        exact ⟨rfl, placed, hplaced, rfl⟩
    | unclosed | endless =>
        simp only [Reading.failure?, hending] at h
        cases h

theorem error_of_parseText (h : (parseText inner o).perform w = (.error f, w')) :
    o.reading.ending = .endless ∨ (o.reading.parts.mapM (placePart inner o)).perform w = (.error f, w') ∨
      ∃ p, o.reading.ending = .unclosed p ∧
        f = (Problem.unclosedScriptlet (o.reading.delimiters.getD .percent).closing).failure [o.site p] := by
  rw [parseText, ← Draft.reading] at h
  dsimp only at h
  split at h
  · next hendless => exact .inl hendless
  · rcases error_of_perform_bind h with h | ⟨placed, w₁, -, h⟩
    · exact .inr (.inl h)
    · cases hending : o.reading.ending with
      | complete =>
          simp only [Reading.failure?, hending] at h
          cases h
      | unclosed p =>
          simp only [Reading.failure?, hending] at h
          cases h
          exact .inr (.inr ⟨p, rfl, rfl⟩)
      | endless => exact .inl rfl

end parsing

section draft

variable (hstyles : ∀ d ∈ o.styles, d.opening ≠ "" ∧ d.closing ≠ "") (hbare : ∀ a ∈ registry.adapters, a.FailsBare)
  (hinner : ∀ r ∈ o.bodies, ∀ name, (o.body r name).Settles registry (inner (o.body r name)))

theorem ending_ne_endless (hstyles : ∀ d ∈ o.styles, d.opening ≠ "" ∧ d.closing ≠ "") : o.reading.ending ≠ .endless := by
  intro h
  obtain ⟨d, hd, ⟨hopening, -⟩, -⟩ := ending_ofDocument_iff.1 h
  exact (hstyles d (List.mem_of_find?_eq_some hd)).1 hopening

include hinner

theorem ok_of_parse {parsed : Parsed} (hw : w.registry = registry)
    (h : (if o.isText then parseText inner o else pure (parseSource o) : Act Parsed).perform w = (.ok parsed, w')) :
    (o.isText = true → o.reading.ending = .complete) ∧ parsed.segments = o.raw w.inFlowCount ∧
      parsed.names = o.names w.inFlowCount ∧ w'.registry = registry ∧ w'.inFlowCount = w.inFlowCount + o.count ∧
      ∀ j r, (j, r) ∈ o.numbered w.inFlowCount → (o.body r (Document.inFlowName j)).AllSound registry (j + 1) := by
  cases htext : o.isText with
  | false =>
      rw [htext] at h
      cases h
      simp [Draft.raw, Draft.names, Draft.numbered, Draft.bodies, Draft.count, numberFrom, parseSource, htext, hw]
  | true =>
      have hbodies := Draft.bodies_of_isText htext
      rw [htext] at h
      obtain ⟨hclosed, placed, hplaced, rfl⟩ := ok_of_parseText h
      rw [hbodies] at hinner
      obtain ⟨hnames, hregistry, hcount, hsounds⟩ := ok_of_placeParts hinner hw hplaced
      have hraw := placeParts_of_placedAs (forall₂_of_perform_mapM (fun p q w w' => placedAs_of_placePart) hplaced) []
      have hown : placed.filterMap Prod.snd = o.names w.inFlowCount := by
        rw [hnames, Draft.names, Draft.numbered, hbodies]
        rfl
      refine ⟨fun _ => hclosed, ?_, hown, hregistry, ?_, ?_⟩
      · simp only [List.nil_append, List.length_nil, hown] at hraw
        simp only [Draft.raw, htext, if_true]
        exact hraw.symm
      · rw [hcount, Draft.count_eq, hbodies]
        rfl
      · simp only [Draft.numbered, hbodies]
        exact hsounds

include hstyles hbare

theorem error_of_parse (hw : w.registry = registry)
    (h : (if o.isText then parseText inner o else pure (parseSource o) : Act Parsed).perform w = (.error f, w')) :
    o.Traced registry w.inFlowCount f := by
  cases htext : o.isText with
  | false =>
      rw [htext] at h
      cases h
  | true =>
      have hbodies := Draft.bodies_of_isText htext
      rw [htext] at h
      rcases error_of_parseText h with hendless | hplaced | ⟨p, hending, rfl⟩
      · exact absurd hendless (ending_ne_endless hstyles)
      · rw [hbodies] at hinner
        obtain ⟨j, r, f', hr, htraced, rfl⟩ := error_of_placeParts hinner hw hplaced
        refine traced_of_body ?_ htraced
        simp only [Draft.numbered, hbodies]
        exact hr
      · exact (Draft.Faulty.unclosed htext hending).traced hbare

end draft

/-! The segments of a draft. -/

theorem program_of_mem_placeAll {segments : List Segment} {p : PlacedSegment} (hp : p ∈ placeAll segments) :
    p.program = none ∧ p.toSegment ∈ segments := by
  constructor
  · simp only [placeAll, List.mem_map] at hp
    obtain ⟨-, -, rfl⟩ := hp
    rfl
  · have hmap := List.mem_map_of_mem (f := PlacedSegment.toSegment) hp
    rwa [map_toSegment_placeAll] at hmap

/-- Segments are resolved one after the other; that changes neither the registry nor the names. -/
theorem relates_resolveSegment_counted (o : Draft) (p : PlacedSegment) :
    Relates (fun w w' => w'.registry = w.registry ∧ w'.inFlowCount = w.inFlowCount) (resolveSegment o p) := by
  apply relates_resolveSegment
  · exact fun w => ⟨rfl, rfl⟩
  · rintro w₁ w₂ w₃ ⟨hr, hc⟩ ⟨hr', hc'⟩
    exact ⟨hr'.trans hr, hc'.trans hc⟩
  · exact fun w e _ => ⟨rfl, rfl⟩

theorem resolve_in {k n : Nat} : ∀ p ∈ placeAll (o.laid registry n), ∀ q w w',
    w.registry = registry ∧ w.inFlowCount = k → (resolveSegment o p).perform w = (.ok q, w') →
      (o.Admits registry p.toSegment ∧ p.Resolves q) ∧ w'.registry = registry ∧ w'.inFlowCount = k := by
  rintro p hp q w w' ⟨rfl, rfl⟩ h
  obtain ⟨hresolves, hadmits⟩ := resolves_of_perform (program_of_mem_placeAll hp).1 h
  have hkeeps := relates_resolveSegment_counted o p w
  rw [h] at hkeeps
  exact ⟨⟨hadmits, hresolves⟩, hkeeps⟩

theorem ok_of_resolve {k n : Nat} {segments : List PlacedSegment} (hw : w.registry = registry ∧ w.inFlowCount = k)
    (h : ((placeAll (o.laid registry n)).mapM (resolveSegment o)).perform w = (.ok segments, w')) :
    (∀ s ∈ o.laid registry n, o.Admits registry s) ∧
      List.Forall₂ PlacedSegment.Resolves (placeAll (o.laid registry n)) segments ∧ w'.inFlowCount = k := by
  obtain ⟨hresolved, -, hcount⟩ := forall₂_of_perform_mapM_in resolve_in hw h
  obtain ⟨hadmits, hresolves⟩ := (List.forall₂_and_left _ _).1 hresolved
  refine ⟨fun s hs => ?_, hresolves, hcount⟩
  rw [← map_toSegment_placeAll (o.laid registry n)] at hs
  obtain ⟨p, hp, rfl⟩ := List.mem_map.1 hs
  exact hadmits p hp

theorem error_of_resolve {n : Nat} (hw : w.registry = registry)
    (h : ((placeAll (o.laid registry n)).mapM (resolveSegment o)).perform w = (.error f, w')) :
    ∃ site, o.Faulty registry n site f := by
  obtain ⟨p, hp, w₁, w₂, ⟨hw₁, -⟩, hfails⟩ := error_of_perform_mapM resolve_in ⟨hw, rfl⟩ h
  have hrejects := rejects_of_perform hfails
  rw [hw₁] at hrejects
  exact ⟨_, .segment (program_of_mem_placeAll hp).2 hrejects⟩

theorem error_of_perform_construct (h : (construct inner o).perform w = (.error f, w')) :
    (if o.isText then parseText inner o else pure (parseSource o) : Act Parsed).perform w = (.error f, w') ∨
      ∃ parsed w₁,
        (if o.isText then parseText inner o else pure (parseSource o) : Act Parsed).perform w = (.ok parsed, w₁) ∧
        ((placeAll (collapsed (w.registry.forms o.exposed) o.tag parsed.segments)).mapM (resolveSegment o)).perform w₁ =
          (.error f, w') := by
  have hrest {parsed : Parsed} {w₁ : World} {x : List PlacedSegment → Executable}
      (h : ((placeAll (collapsed (w.registry.forms o.exposed) o.tag parsed.segments)).mapM (resolveSegment o) >>=
        fun segments => pure (x segments)).perform w₁ = (.error f, w')) :
      ((placeAll (collapsed (w.registry.forms o.exposed) o.tag parsed.segments)).mapM (resolveSegment o)).perform w₁ =
        (.error f, w') := by
    rcases error_of_perform_bind h with h | ⟨segments, w₂, -, h⟩
    · exact h
    · cases h
  simp only [construct] at h
  rcases error_of_perform_bind h with h | ⟨w₀, w₁, hget, h⟩
  · cases h
  · cases hget
    cases htext : o.isText with
    | false =>
        rw [htext] at h
        exact .inr ⟨_, _, rfl, hrest h⟩
    | true =>
        rw [htext] at h
        rcases error_of_perform_bind h with h | ⟨parsed, w₂, hparsed, h⟩
        · exact .inl h
        · exact .inr ⟨parsed, w₂, hparsed, hrest h⟩

section draft

variable (hinner : ∀ r ∈ o.bodies, ∀ name, (o.body r name).Settles registry (inner (o.body r name)))

include hinner

theorem ok_of_construct {x : Executable} (hw : w.registry = registry) (h : (construct inner o).perform w = (.ok x, w')) :
    o.AllSound registry w.inFlowCount ∧ w'.inFlowCount = w.inFlowCount + o.count ∧
      x.IsBuilt registry o w.inFlowCount := by
  obtain ⟨parsed, w₁, segments, hparsed, hsegments, rfl⟩ := exists_of_perform_construct h
  obtain ⟨hclosed, hraw, hnames, hregistry, hcount, hsounds⟩ := ok_of_parse hinner hw hparsed
  rw [hraw, hw] at hsegments
  obtain ⟨hadmits, hresolves, hcounted⟩ := ok_of_resolve ⟨hregistry, hcount⟩ hsegments
  exact ⟨allSound_of_bodies ⟨hclosed, hadmits⟩ hsounds, hcounted, hnames, hresolves⟩

theorem error_of_construct (hstyles : ∀ d ∈ o.styles, d.opening ≠ "" ∧ d.closing ≠ "")
    (hbare : ∀ a ∈ registry.adapters, a.FailsBare) (hw : w.registry = registry)
    (h : (construct inner o).perform w = (.error f, w')) : o.Traced registry w.inFlowCount f := by
  rcases error_of_perform_construct h with h | ⟨parsed, w₁, hparsed, h⟩
  · exact error_of_parse hstyles hbare hinner hw h
  · obtain ⟨-, hraw, -, hregistry, -⟩ := ok_of_parse hinner hw hparsed
    rw [hraw, hw] at h
    obtain ⟨site, hfaulty⟩ := error_of_resolve hregistry h
    exact hfaulty.traced hbare

end draft

end construction

/-- A compilation leaves the registry as it is. -/
theorem relates_registry (depth : Nat) (o : Draft) :
    Relates (fun w w' => w'.registry = w.registry) (compileWithin depth o) := by
  refine relates_compileWithin (R := fun w w' => w'.registry = w.registry) (fun _ => rfl) ?_ (fun _ _ _ => rfl)
    (fun _ => rfl) ?_ (fun _ _ _ => rfl) depth rfl
  · exact fun _ _ _ h h' => h'.trans h
  · exact fun _ _ _ _ _ _ => (looks_setDocument ..).registry_eq

/-- By induction on how deep bodies are nested: they are shorter than what they stand in. -/
theorem settles_compileWithin {registry : Registry} (hbare : ∀ a ∈ registry.adapters, a.FailsBare) (depth : Nat)
    {o : Draft} (hstyles : ∀ d ∈ o.styles, d.opening ≠ "" ∧ d.closing ≠ "") (hdepth : o.text.length < depth) :
    o.Settles registry (compileWithin depth o) := by
  induction depth generalizing o with
  | zero => exact absurd hdepth (Nat.not_lt_zero _)
  | succ depth ih =>
      have hinner : ∀ r ∈ o.bodies, ∀ name, (o.body r name).Settles registry (compileWithin depth (o.body r name)) := by
        intro r hr name
        have hshorter := Draft.length_body_lt name hr
        exact ih (o := o.body r name) hstyles (by omega)
      refine ⟨relates_registry (depth + 1) o, fun w e w' hw h => ?_, fun w f w' hw h => ?_⟩
      · change (compileWith (compileWithin depth) o).perform w = (.ok e, w') at h
        simp only [compileWith] at h
        obtain ⟨x, w₁, hx, hadd⟩ := exists_of_perform_bind h
        have hconstruct := perform_of_perform_tryCatch (fun f w => ⟨f, rfl⟩) hx
        obtain ⟨hsound, hcount, hbuilt⟩ := ok_of_construct hinner hw hconstruct
        cases hadd
        have hadded := w₁.executable_addExecutable x (.compiled o.document x.segments.length)
        refine ⟨hsound, hcount, ?_, hadded.symm ▸ hbuilt⟩
        simp [World.addExecutable, World.emit]
      · change (compileWith (compileWithin depth) o).perform w = (.error f, w') at h
        simp only [compileWith] at h
        rcases error_of_perform_bind h with h | ⟨x, w₁, -, h⟩
        · rw [perform_tryCatch] at h
          cases hr : ((construct (compileWithin depth) o).perform w).1 with
          | ok x =>
              rw [hr] at h
              cases h
          | error f' =>
              rw [hr] at h
              cases h
              exact error_of_construct hinner hstyles hbare hw (Prod.ext hr rfl)
        · cases h

/-! Documents without bodies. -/

section bodiless

variable {w w' : World} {o : Draft} {inner : Draft → Act ExecutableId} {f : Failure}

theorem settles_of_bodies_eq_nil (hbodies : o.bodies = []) (registry : Registry) (inner : Draft → Act ExecutableId) :
    ∀ r ∈ o.bodies, ∀ name, (o.body r name).Settles registry (inner (o.body r name)) := by
  rw [hbodies]
  nofun

theorem not_error_of_parse (hbodies : o.bodies = []) (hclosed : o.isText = true → o.reading.ending = .complete) :
    (if o.isText then parseText inner o else pure (parseSource o) : Act Parsed).perform w ≠ (.error f, w') := by
  intro h
  cases htext : o.isText with
  | false =>
      rw [htext] at h
      cases h
  | true =>
      have hclosed := hclosed htext
      have hnone := settles_of_bodies_eq_nil hbodies w.registry inner
      rw [Draft.bodies_of_isText htext] at hbodies hnone
      rw [htext] at h
      rcases error_of_parseText h with hendless | hplaced | ⟨p, hunclosed, -⟩
      · cases hclosed.symm.trans hendless
      · obtain ⟨j, r, f', hmem, -⟩ := error_of_placeParts hnone rfl hplaced
        change (j, r) ∈ numberFrom _ _ o.reading.requests at hmem
        rw [hbodies] at hmem
        cases hmem
      · cases hclosed.symm.trans hunclosed

theorem exists_ok_of_construct (hbodies : o.bodies = []) (hsound : o.Sound w.registry w.inFlowCount) :
    ∃ x w', (construct inner o).perform w = (.ok x, w') := by
  cases hx : ((construct inner o).perform w).1 with
  | ok x => exact ⟨x, _, Prod.ext hx rfl⟩
  | error f =>
      rcases error_of_perform_construct (Prod.ext hx rfl) with h | ⟨parsed, w₁, hparsed, h⟩
      · exact absurd h (not_error_of_parse hbodies hsound.closed)
      · obtain ⟨-, hraw, -, hregistry, -⟩ := ok_of_parse (settles_of_bodies_eq_nil hbodies _ inner) rfl hparsed
        rw [hraw] at h
        obtain ⟨site, hfaulty⟩ := error_of_resolve hregistry h
        exact absurd hsound hfaulty.not_sound

/-- A document without bodies is compiled if it is sound, whatever other adapters there are. -/
theorem compiles_of_sound (hbodies : o.bodies = []) (hsound : o.Sound w.registry w.inFlowCount) :
    ∃ w' e, w.compile o = (w', .ok e) ∧ (w'.executable e).IsBuilt w.registry o w.inFlowCount := by
  have hconstruct : ∃ x w₁, (construct (compileWithin o.text.length) o).perform w = (.ok x, w₁) :=
    exists_ok_of_construct hbodies hsound
  obtain ⟨x, w₁, hx⟩ := hconstruct
  have hcaught {handler : Failure → Act Executable} :
      (tryCatch (construct (compileWithin o.text.length) o) handler).perform w = (.ok x, w₁) := by
    rw [perform_tryCatch, hx]
  have hadded := w₁.executable_addExecutable x (.compiled o.document x.segments.length)
  refine ⟨(w₁.addExecutable x).1.emit (.compiled o.document x.segments.length), (w₁.addExecutable x).2, ?_, ?_⟩
  · rw [World.compile_eq_perform]
    change ((compileWith (compileWithin o.text.length) o).perform w).swap = _
    unfold compileWith
    rw [perform_bind, hcaught]
    rfl
  · rw [hadded]
    exact (ok_of_construct (settles_of_bodies_eq_nil hbodies _ _) rfl hx).2.2

end bodiless

end ScriptedText
