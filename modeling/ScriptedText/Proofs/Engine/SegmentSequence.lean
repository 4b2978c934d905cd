import ScriptedText.Proofs.Engine.SegmentRun

/-!
Segments that run one after the other, and lists of segments that have the same effects.
-/

namespace ScriptedText

variable {id : TaskId} {run : Run} {w w' w₁ w₂ v : World} {o : Outcome}

/-- A failure without the sites that it passed. -/
def Failure.siteless : Failure → Failure
  | .fault f => .fault { f with sites := [] }
  | f => f

/-- An outcome in which failures have no sites. -/
def siteless {α : Type} (r : Except Failure α) : Except Failure α := r.mapError Failure.siteless

/-- A segment as it stands in an executable: a program's source is its text. -/
def Segment.ready (s : Segment) : PlacedSegment :=
  { toSegment := s, position := 0, program := if s.isProgram then some s.text else none }

def Segment.Ends (id : TaskId) (run : Run) (w : World) (s : Segment) (w' : World) (o : Outcome) : Prop :=
  (Move.runSegment w id run s.ready).Ends id w' o

/-- Segments run in order, up to the first one that fails. -/
inductive RunsTo (id : TaskId) (run : Run) : World → List Segment → World → Except Failure Unit → Prop
  | nil (w : World) : RunsTo id run w [] w (.ok ())
  | fail {w w' : World} {s : Segment} {f : Failure} (h : s.Ends id run w w' (.error f)) (rest : List Segment) :
      RunsTo id run w (s :: rest) w' (.error f)
  | cons {w w₁ w' : World} {s : Segment} {rest : List Segment} {reply : Reply} {r : Except Failure Unit}
      (h : s.Ends id run w w₁ (.ok reply)) (hrest : RunsTo id run w₁ rest w' r) : RunsTo id run w (s :: rest) w' r

theorem runsTo_append {A B : List Segment} {r : Except Failure Unit} :
    RunsTo id run w (A ++ B) w' r ↔
      (∃ f, r = .error f ∧ RunsTo id run w A w' (.error f)) ∨
        ∃ w₁, RunsTo id run w A w₁ (.ok ()) ∧ RunsTo id run w₁ B w' r := by
  constructor
  · intro h
    induction A generalizing w with
    | nil => exact .inr ⟨w, .nil w, h⟩
    | cons s A ih =>
        cases h with
        | fail hs => exact .inl ⟨_, rfl, .fail hs A⟩
        | cons hs hrest =>
            rcases ih hrest with ⟨f, hf, hA⟩ | ⟨w₂, hA, hB⟩
            · exact .inl ⟨f, hf, .cons hs hA⟩
            · exact .inr ⟨w₂, .cons hs hA, hB⟩
  · rintro (⟨f, rfl, hA⟩ | ⟨w₁, hA, hB⟩)
    · generalize hr : (.error f : Except Failure Unit) = r at hA
      induction hA with
      | nil => cases hr
      | fail hs => exact .fail hs _
      | cons hs _ ih => exact .cons hs (ih hr)
    · generalize hr : (.ok () : Except Failure Unit) = r₁ at hA
      induction hA with
      | nil => exact hB
      | fail hs => cases hr
      | cons hs _ ih => exact .cons hs (ih hB hr)

theorem runsTo_singleton {s : Segment} {r : Except Failure Unit} :
    RunsTo id run w [s] w' r ↔ ∃ o, s.Ends id run w w' o ∧ o.map (fun _ => ()) = r := by
  constructor
  · intro h
    cases h with
    | fail hs => exact ⟨_, hs, rfl⟩
    | cons hs hrest =>
        cases hrest
        exact ⟨_, hs, rfl⟩
  · rintro ⟨o, hs, rfl⟩
    cases o with
    | error f => exact .fail hs []
    | ok reply => exact .cons hs (.nil _)

/-! Runs keep what no step changes, and what they come to does not depend on the record. -/

theorem Move.Locks.ends {m : Move} (h : Move.Locks w [] m []) (he : m.Ends id w' o) :
    w.Keeps w' ∧ (w.LocksRest → w'.LocksRest) := by
  rcases h with ⟨hwait, -⟩ | ⟨hl, hclaims, hcontrol⟩
  · unfold Move.Ends at he
    rw [hwait] at he
    exact absurd he Task.not_ends_waiting
  · have hplain : Task.Plain ⟨m.push, m.control⟩ := ⟨hclaims, hcontrol⟩
    refine ⟨hl.keeps.trans (Task.Ends.keeps he hplain), fun hrest => ?_⟩
    have hholds : m.world.Holds (heldLocks m.push ++ []) := hl.holds ⟨hrest, List.nodup_nil, nofun⟩
    rw [List.append_nil] at hholds
    exact (Task.Ends.givesBack he hplain hholds).1

theorem Segment.Ends.keeps {s : Segment} (h : s.Ends id run w w' o) :
    w.Keeps w' ∧ (w.LocksRest → w'.LocksRest) :=
  (Move.locks_runSegment w id run s.ready []).ends h

theorem RunsTo.keeps {A : List Segment} {r : Except Failure Unit} (h : RunsTo id run w A w' r) :
    w.Keeps w' ∧ (w.LocksRest → w'.LocksRest) := by
  induction h with
  | nil w => exact ⟨.refl w, fun h => h⟩
  | fail hs => exact hs.keeps
  | cons hs _ ih => exact ⟨hs.keeps.1.trans ih.1, fun h => ih.2 (hs.keeps.2 h)⟩

theorem Segment.Ends.of_bare {s : Segment} (h : s.Ends id run w w' o) (hv : v.bare = w.bare) :
    ∃ v', s.Ends id run v v' o ∧ v'.bare = w'.bare := by
  have hmove : (Move.runSegment v id run s.ready).bare = (Move.runSegment w id run s.ready).bare :=
    Move.bare_eq_of_ignores (Move.runSegment · id run s.ready) (fun w => Move.runSegment_bare w id run s.ready) hv
  have hworld := congrArg Move.world hmove
  have hpush := congrArg Move.push hmove
  have hcontrol := congrArg Move.control hmove
  unfold Segment.Ends Move.Ends at *
  rcases Move.locks_runSegment w id run s.ready [] with ⟨hwait, -⟩ | ⟨-, hclaims, hc⟩
  · rw [hwait] at h
    exact absurd h Task.not_ends_waiting
  · obtain ⟨v', hv', hbare⟩ := Task.Ends.of_bare h ⟨hclaims, hc⟩ hworld
    refine ⟨v', ?_, hbare⟩
    rw [show (Move.runSegment v id run s.ready).push = _ from hpush,
      show (Move.runSegment v id run s.ready).control = _ from hcontrol]
    exact hv'

theorem RunsTo.of_bare {A : List Segment} {r : Except Failure Unit} (h : RunsTo id run w A w' r)
    (hv : v.bare = w.bare) : ∃ v', RunsTo id run v A v' r ∧ v'.bare = w'.bare := by
  induction h generalizing v with
  | nil w => exact ⟨v, .nil v, hv⟩
  | fail hs rest =>
      obtain ⟨v', hv', hbare⟩ := hs.of_bare hv
      exact ⟨v', .fail hv' rest, hbare⟩
  | cons hs _ ih =>
      obtain ⟨v₁, hv₁, hbare₁⟩ := hs.of_bare hv
      obtain ⟨v', hv', hbare⟩ := ih hbare₁
      exact ⟨v', .cons hv₁ hv', hbare⟩

/-- A world in which a run can go on: the registry, its executable and its context are in their places, and nobody
waits for a lock that is free. -/
structure World.Suits (registry : Registry) (exposed : String) (run : Run) (w : World) : Prop where
  registry : w.registry = registry
  executable : run.executable.index < w.executables.length
  exposed : (w.executable run.executable).exposed = exposed
  context : run.context.index < w.contexts.length
  rest : w.LocksRest

namespace World.Suits

variable {registry : Registry} {exposed : String}

theorem keeps (h : w.Suits registry exposed run) (hk : w.Keeps w' ∧ (w.LocksRest → w'.LocksRest)) :
    w'.Suits registry exposed run where
  registry := hk.1.registry.trans h.registry
  executable := Nat.lt_of_lt_of_le h.executable hk.1.executables
  exposed := (hk.1.exposed _ h.executable).trans h.exposed
  context := hk.1.contexts ▸ h.context
  rest := hk.2 h.rest

theorem of_bare (h : w.Suits registry exposed run) (hv : v.bare = w.bare) : v.Suits registry exposed run where
  registry := (congrArg World.registry hv).trans h.registry
  executable := (congrArg (fun w : World => w.executables.length) hv) ▸ h.executable
  exposed := (congrArg (fun w : World => (w.executable run.executable).exposed) hv).trans h.exposed
  context := by
    have hlength := congrArg (fun w : World => w.contexts.length) hv
    simp only [World.bare, List.length_map] at hlength
    exact hlength ▸ h.context
  rest := h.rest.congr fun r => by
    have hlock : v.bare.lock r = w.bare.lock r := by rw [hv]
    exact hlock

end World.Suits

/-- Whatever one list comes to, the other one does, up to what is on record and the sites of a failure. -/
def Simulates (id : TaskId) (registry : Registry) (exposed : String) (run : Run) (A B : List Segment) : Prop :=
  ∀ w v w' r, w.Suits registry exposed run → v.bare = w.bare → RunsTo id run w A w' r →
    ∃ v' r', RunsTo id run v B v' r' ∧ v'.bare = w'.bare ∧ siteless r' = siteless r

def Alike (id : TaskId) (registry : Registry) (exposed : String) (run : Run) (A B : List Segment) : Prop :=
  Simulates id registry exposed run A B ∧ Simulates id registry exposed run B A

variable {registry : Registry} {exposed : String} {A A' B B' C : List Segment}

theorem Simulates.refl (A : List Segment) : Simulates id registry exposed run A A := by
  intro w v w' r _ hv h
  obtain ⟨v', hv', hbare⟩ := h.of_bare hv
  exact ⟨v', r, hv', hbare, rfl⟩

theorem Simulates.trans (h : Simulates id registry exposed run A B) (h' : Simulates id registry exposed run B C) :
    Simulates id registry exposed run A C := by
  intro w v w' r hw hv hA
  obtain ⟨v₁, r₁, hB, hbare₁, hr₁⟩ := h w v w' r hw hv hA
  obtain ⟨v₂, r₂, hC, hbare₂, hr₂⟩ := h' v v v₁ r₁ (hw.of_bare hv) rfl hB
  exact ⟨v₂, r₂, hC, hbare₂.trans hbare₁, hr₂.trans hr₁⟩

theorem eq_ok_of_siteless {r : Except Failure Unit} (h : siteless r = siteless (.ok ())) : r = .ok () := by
  cases r with
  | error f => cases h
  | ok _ => rfl

theorem exists_error_of_siteless {r : Except Failure Unit} {f : Failure} (h : siteless r = siteless (.error f)) :
    ∃ f', r = .error f' := by
  cases r with
  | error f' => exact ⟨f', rfl⟩
  | ok _ => cases h

theorem Simulates.append (h : Simulates id registry exposed run A A') (h' : Simulates id registry exposed run B B') :
    Simulates id registry exposed run (A ++ B) (A' ++ B') := by
  intro w v w' r hw hv hAB
  rcases runsTo_append.1 hAB with ⟨f, rfl, hA⟩ | ⟨w₁, hA, hB⟩
  · obtain ⟨v', r', hA', hbare, hr⟩ := h w v w' _ hw hv hA
    obtain ⟨f', rfl⟩ := exists_error_of_siteless hr
    exact ⟨v', _, runsTo_append.2 (.inl ⟨f', rfl, hA'⟩), hbare, hr⟩
  · obtain ⟨v₁, r₁, hA', hbare₁, hr₁⟩ := h w v w₁ _ hw hv hA
    cases eq_ok_of_siteless hr₁
    obtain ⟨v', r', hB', hbare, hr⟩ := h' w₁ v₁ w' r (hw.keeps hA.keeps) hbare₁ hB
    exact ⟨v', r', runsTo_append.2 (.inr ⟨v₁, hA', hB'⟩), hbare, hr⟩

namespace Alike

theorem refl (A : List Segment) : Alike id registry exposed run A A := ⟨.refl A, .refl A⟩

theorem symm (h : Alike id registry exposed run A B) : Alike id registry exposed run B A := ⟨h.2, h.1⟩

theorem trans (h : Alike id registry exposed run A B) (h' : Alike id registry exposed run B C) :
    Alike id registry exposed run A C := ⟨h.1.trans h'.1, h'.2.trans h.2⟩

theorem append (h : Alike id registry exposed run A A') (h' : Alike id registry exposed run B B') :
    Alike id registry exposed run (A ++ B) (A' ++ B') := ⟨h.1.append h'.1, h.2.append h'.2⟩

end Alike

end ScriptedText
