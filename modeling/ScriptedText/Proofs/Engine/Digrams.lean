import ScriptedText.Proofs.Engine.Collapsing

/-!
Languages of two-letter commands, in which programs can be put together: an equals sign writes the letter behind it,
and what other commands do is up to the language.
-/

namespace ScriptedText

namespace Digrams

variable {command : Char → Char → Dialogue Unit}

def run (command : Char → Char → Dialogue Unit) : List Char → Dialogue Unit
  | a :: c :: rest =>
    (if a = '=' then .write (String.singleton c) else command a c).bind fun _ => run command rest
  | _ => .done ()

/-- A program that writes a text. -/
def spell (text : List Char) : List Char := text.flatMap (['=', ·])

theorem run_append {s : List Char} (hs : s.length % 2 = 0) (t : List Char) :
    run command (s ++ t) = (run command s).bind fun _ => run command t := by
  fun_induction run command s with
  | case1 a c rest ih =>
      have hrest : rest.length % 2 = 0 := by
        rw [List.length_cons, List.length_cons] at hs
        omega
      rw [List.cons_append, List.cons_append, run, ih hrest, Dialogue.bind_assoc]
  | case2 s hnot =>
      match s with
      | [] => rfl
      | [a] => cases hs
      | a :: c :: rest => exact absurd rfl (hnot a c rest)

theorem length_spell (text : List Char) : (spell text).length % 2 = 0 := by
  induction text with
  | nil => rfl
  | cons c text ih =>
      change ((spell text).length + 1 + 1) % 2 = 0
      omega

theorem says_run_spell {id : TaskId} {w w' : World} {s : Speaker} {o : Outcome} (text : List Char) :
    (run command (spell text)).Says id w s w' o ↔
      w' = w.modifyContext s.context (·.write .out (String.ofList text)) ∧ o = .ok .nothing := by
  induction text generalizing w with
  | nil =>
      have hnothing : w.modifyContext s.context (·.write .out "") = w := by
        refine World.modifyContext_eq_self ?_
        simp [Context.write]
      change Dialogue.Ends id w s (.done .nothing) w' o ↔ _
      rw [Dialogue.ends_done, String.ofList_nil, hnothing]
  | cons c text ih =>
      have hwrite : (w.modifyContext s.context (·.write .out (String.singleton c))).modifyContext s.context
          (·.write .out (String.ofList text)) =
          w.modifyContext s.context (·.write .out (String.ofList (c :: text))) := by
        rw [World.modifyContext_modifyContext]
        congr 1
        funext x
        simp only [Function.comp_apply, Context.write, String.ofList_cons, String.append_assoc]
      change ((Dialogue.write (String.singleton c)).bind fun _ => run command (spell text)).Says id w s w' o ↔ _
      rw [Dialogue.says_bind]
      constructor
      · rintro (⟨e, rfl, hfirst⟩ | ⟨w₁, hfirst, hrest⟩)
        · cases (Dialogue.says_write.1 hfirst).2
        · obtain ⟨rfl, -⟩ := Dialogue.says_write.1 hfirst
          rw [ih, hwrite] at hrest
          exact hrest
      · rintro ⟨rfl, rfl⟩
        refine .inr ⟨_, Dialogue.says_write.2 ⟨rfl, rfl⟩, ?_⟩
        rw [ih, hwrite]
        exact ⟨rfl, rfl⟩

end Digrams

/-- A language of two-letter commands that runs one program at a time. -/
def digramAdapter (tag : String) (command : String → Char → Char → Dialogue Unit) : Adapter where
  info := ⟨tag, "", tag, [tag], [], tag, ""⟩
  threadSafe := false
  forms _ := ⟨fun text => String.ofList (Digrams.spell text.toList), id, id⟩
  prepare _ := .ok ()
  run source exposed := Digrams.run (command exposed) source.toList

/-- Whole commands only. -/
def IsDigrams (s : String) : Prop := s.toList.length % 2 = 0

instance (s : String) : Decidable (IsDigrams s) := inferInstanceAs (Decidable (_ = 0))

variable {id : TaskId} {registry : Registry} {exposed tag : String} {a : AdapterId}
  {command : String → Char → Char → Dialogue Unit}

theorem composes_digramAdapter : (digramAdapter tag command).Composes id registry exposed a IsDigrams where
  append s t hs ht := by
    unfold IsDigrams at *
    rw [String.toList_append, List.length_append]
    omega
  literal t := by
    unfold IsDigrams
    exact (congrArg (·.length % 2) String.toList_ofList).trans (Digrams.length_spell t.toList)
  run_append w sp s t w' o _ _ hs _ := by
    change (Digrams.run (command exposed) (s ++ t).toList).Says id w sp w' o ↔ _
    rw [String.toList_append, Digrams.run_append hs]
    exact Dialogue.says_bind
  run_literal w sp t w' o _ _ := by
    change (Digrams.run (command exposed) (String.ofList (Digrams.spell t.toList)).toList).Says id w sp w' o ↔ _
    rw [String.toList_ofList, Digrams.says_run_spell, String.ofList_toList]

namespace Dialogue

theorem leavesService_done : (Dialogue.done ()).LeavesService id registry exposed a := by
  intro w sp w' previous h _ _ hre hs
  obtain ⟨rfl, -⟩ := ends_done.1 hs
  exact hre

theorem leavesService_fail (f : Failure) : (Dialogue.fail f).LeavesService id registry exposed a := by
  intro w sp w' previous h _ _ _ hs
  cases (ends_fail.1 hs).2

theorem leavesService_write (text : String) : (Dialogue.write text).LeavesService id registry exposed a := by
  intro w sp w' previous h _ _ hre hs
  obtain ⟨rfl, -⟩ := says_write.1 hs
  by_cases hc : sp.context.index < w.contexts.length
  · have hwrite (c : Context) (name : String) (s : Option Service) :
        (c.write .out text).setService name s = (c.setService name s).write .out text := by
      cases s <;> rfl
    rw [World.context_modifyContext _ _ hc]
    unfold Context.Reexposes at *
    rw [hwrite, hwrite, hre]
  · have hnone : w.contexts[sp.context.index]? = none := List.getElem?_eq_none (Nat.le_of_not_lt hc)
    have hsame : (w.modifyContext sp.context (·.write .out text)).context sp.context = w.context sp.context := by
      simp [World.modifyContext, World.context, hnone]
    rw [hsame]
    exact hre

theorem leavesService_bind {d₁ d₂ : Dialogue Unit} (h₁ : d₁.LeavesService id registry exposed a)
    (h₂ : d₂.LeavesService id registry exposed a) : (d₁.bind fun _ => d₂).LeavesService id registry exposed a := by
  intro w sp w' previous h hregistry hadapter hre hs
  rcases says_bind.1 hs with ⟨e, he, -⟩ | ⟨w₁, hs₁, hs₂⟩
  · cases he
  · have hkeeps : w.Keeps w₁ := Task.Ends.keeps hs₁ (Dialogue.plain _ _)
    exact h₂ w₁ sp w' previous h (hkeeps.registry.trans hregistry) hadapter
      (h₁ w sp w₁ previous h hregistry hadapter hre hs₁) hs₂

end Dialogue

theorem leavesService_digramAdapter (h : ∀ a' c, (command exposed a' c).LeavesService id registry exposed a) :
    (digramAdapter tag command).LeavesService id registry exposed a IsDigrams := by
  intro s _
  change (Digrams.run (command exposed) s.toList).LeavesService id registry exposed a
  fun_induction Digrams.run (command exposed) s.toList with
  | case1 a' c rest ih =>
      refine Dialogue.leavesService_bind ?_ ih
      split
      · exact Dialogue.leavesService_write _
      · exact h a' c
  | case2 => exact Dialogue.leavesService_done

/-! Registries of such languages. -/

variable (hdigrams : ∀ adapter ∈ registry.adapters, ∃ tag, adapter = digramAdapter tag command)

include hdigrams in
theorem composes_digrams : registry.Composes id exposed fun _ => IsDigrams := by
  intro _ r a adapter _ _ hadapter
  obtain ⟨tag, rfl⟩ := hdigrams adapter (List.mem_of_getElem? hadapter)
  exact composes_digramAdapter

include hdigrams in
theorem leavesService_digrams (h : ∀ a a' c, (command exposed a' c).LeavesService id registry exposed a) :
    registry.LeavesService id exposed fun _ => IsDigrams := by
  intro _ r a adapter _ _ hadapter
  obtain ⟨tag, rfl⟩ := hdigrams adapter (List.mem_of_getElem? hadapter)
  exact leavesService_digramAdapter (h a)

end ScriptedText
