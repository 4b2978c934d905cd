import ScriptedText.Proofs.Files.Variants

/-!
Documents stay inside the base directory, as long as it is one. Where there is no directory, the name that comes to the base
itself has it for a stem, which files beside it may have.
-/

namespace ScriptedText.Files

/-- A path below another one, along names. -/
def Path.IsBelow (p base : Path) : Prop := ∃ below, below ≠ [] ∧ (∀ c ∈ below, IsName c) ∧ p = base ++ below

theorem Tree.Lists.isName {t : Tree} {directory : Path} {f : String} (h : t.Lists directory f) (hsound : t.Sound) :
    IsName f := by
  obtain ⟨real, mtime, -, bytes, time, hfile⟩ := h
  exact (hsound.names hfile f (by simp)).1

namespace Naming

variable {t : Tree}

/-- There is a file, and no base directory beside it. -/
def aside : Tree where
  origin := "/work"
  nodes := .ofList [(["base.txt"], .file [] 1)]

end Naming

end ScriptedText.Files
