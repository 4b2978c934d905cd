import ScriptedText.Proofs.Engine.Exclusion
import ScriptedText.Proofs.Engine.SegmentRun

/-!
Which lock guards an adapter. A program finds it by the tag of its segment and an entry point by the adapter that ran last;
whatever was registered before, in whatever order, both come to the same one.
-/

namespace ScriptedText

variable {reg : Registry} {ids : List AdapterId} {w : World} {a : AdapterId} {r : RegistrationId} {tag : String}

/-- A program of a guarded adapter takes the lock of the registration that its tag leads to. -/
theorem Move.runSegment_of_guarded (hr : w.registry.registration? tag = some r) (ha : w.registry.owner? r = some a)
    (hguarded : ((w.registry.adapter? a).map (·.threadSafe)).getD true = false) (id : TaskId) (run : Run)
    {s : PlacedSegment} (hprogram : s.isProgram = true) (htag : s.tag = tag) :
    runSegment w id run s = lockAndGo (w.recorded run a) id r (.program run s a) := by
  subst htag
  cases hadapter : w.registry.adapter? a with
  | none => simp [hadapter] at hguarded
  | some adapter =>
      have hforTag : w.registry.forTag? s.tag = some a := by rw [Registry.forTag?, hr, Option.bind_some, ha]
      rw [runSegment_eq hprogram hr hforTag hadapter]
      simp [hadapter] at hguarded
      simp [hguarded]

namespace Registry.Registered

theorem registrationOf?_of_registration? (h : reg.Registered ids) (hr : reg.registration? tag = some r) :
    ∃ a, reg.owner? r = some a ∧ reg.registrationOf? a = some r := by
  obtain ⟨a, adapter, howner, -, -, hr⟩ := h.tagged.owned tag r hr
  exact ⟨a, howner, hr⟩

/-- After any registrations, a tag leads to the registration that its adapter leads to; different adapters have different
ones; the last adapter that lists a tag has it; and adapters are listed once, in the order of their first registration. So
programs and entry points of an adapter that is guarded take the same lock. -/
theorem one_lock (h : reg.Registered ids) :
    (∀ tag r, reg.registration? tag = some r → ∃ a, reg.owner? r = some a ∧ reg.registrationOf? a = some r) ∧
    (∀ a b r, reg.registrationOf? a = some r → reg.registrationOf? b = some r → a = b) ∧
    (∀ tag, reg.forTag? tag = (ids.filter (reg.lists tag)).getLast?) ∧
    reg.registered = ids.eraseDups ∧
    ∀ tag r a, reg.registration? tag = some r → reg.owner? r = some a →
      ((reg.adapter? a).map (·.threadSafe)).getD true = false → ∀ w : World, w.registry = reg →
        (∀ id run s, s.isProgram = true → s.tag = tag →
          Move.runSegment w id run s = Move.lockAndGo (w.recorded run a) id r (.program run s a)) ∧
        ∀ id e x name args, w.EntersAt e x a →
          Move.enter w id e name args = (Move.lockAndGo w id r (.entry ⟨⟨e, x, a⟩, name, args⟩)).under [.entering name] := by
  refine ⟨fun tag r hr => h.registrationOf?_of_registration? hr, ?_, h.forTag?_eq, h.registered_eq, ?_⟩
  · intro a b r ha hb
    exact Option.some.inj ((h.owner?_of_registrationOf? ha).symm.trans (h.owner?_of_registrationOf? hb))
  · intro tag r a hr ha hguarded w hw
    subst hw
    have hguards : w.registry.Guards a r := ⟨h.tagged.coherent tag r a hr ha, hguarded⟩
    refine ⟨?_, ?_⟩
    · intro id run s hprogram htag
      exact Move.runSegment_of_guarded hr ha hguarded id run hprogram htag
    · intro id e x name args hat
      exact Move.enter_eq hat hguards id name args

/-- Two guarded adapters share a tag, and the first one is registered once more. -/
def sharedTags : Registry :=
  let first := Command.adapter { tags := ["a", "b"], extensions := ["x"], threadSafe := false }
  let second := Command.adapter { tags := ["b", "c"], extensions := ["x"], threadSafe := false }
  (((({} : Registry).add first).1.add second).1.register ⟨0⟩ |>.register ⟨1⟩).register ⟨0⟩

/-- The shared tag is the first adapter's again, and its lock is the adapter's new one. -/
theorem one_lock_of_shared :
    sharedTags.Registered [⟨0⟩, ⟨1⟩, ⟨0⟩] ∧ sharedTags.forTag? "b" = some ⟨0⟩ ∧ sharedTags.forTag? "c" = some ⟨1⟩ ∧
      sharedTags.registration? "b" = some ⟨2⟩ ∧ sharedTags.registrationOf? ⟨0⟩ = some ⟨2⟩ ∧
      sharedTags.registered = [⟨0⟩, ⟨1⟩] := by
  have hshared : sharedTags.Registered [⟨0⟩, ⟨1⟩, ⟨0⟩] :=
    ((((Registered.none.add _).add _).register ⟨0⟩ rfl).register ⟨1⟩ rfl).register ⟨0⟩ rfl
  obtain ⟨htag, -, hlast, hlisted, -⟩ := one_lock hshared
  have hfound : sharedTags.registration? "b" = some ⟨2⟩ := by decide +kernel
  obtain ⟨a, howner, ha⟩ := htag "b" ⟨2⟩ hfound
  cases howner
  refine ⟨hshared, (hlast "b").trans ?_, (hlast "c").trans ?_, hfound, ha, hlisted.trans ?_⟩
  · decide +kernel
  · decide +kernel
  · decide +kernel

end Registry.Registered

end ScriptedText
