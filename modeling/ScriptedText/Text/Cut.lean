/-!
The first occurrence of a mark in a text: what stands before it and what after. `cut_eq_append` says that
nothing is lost.
-/

namespace ScriptedText.Text

/-- Text before and after the leftmost occurrence of `mark`. The empty mark occurs at once. -/
def cut (mark : List Char) : List Char → Option (List Char × List Char)
  | [] => if mark.isEmpty then some ([], []) else none
  | c :: rest =>
    match mark.isPrefixOf? (c :: rest) with
    | some after => some ([], after)
    | none => (cut mark rest).map fun (before, after) => (c :: before, after)

/-- Whether a text starts with another. -/
def startsWith (s start : String) : Bool := start.toList.isPrefixOf s.toList

def occurs (mark cs : List Char) : Bool := (cut mark cs).isSome

/-- Text split at every occurrence of the character `c`. -/
def splitAt (c : Char) : List Char → List (List Char)
  | [] => [[]]
  | x :: rest =>
    if x = c then [] :: splitAt c rest
    else match splitAt c rest with
      | [] => [[x]]
      | part :: parts => (x :: part) :: parts

theorem isPrefixOf?_eq_some {mark cs after : List Char} :
    mark.isPrefixOf? cs = some after ↔ cs = mark ++ after := by
  induction mark generalizing cs with
  | nil =>
    change some cs = some after ↔ _
    simp
  | cons m mark ih =>
    cases cs with
    | nil =>
      change (none : Option (List Char)) = some after ↔ _
      simp
    | cons c cs =>
      change (if m == c then mark.isPrefixOf? cs else none) = some after ↔ _
      by_cases h : m = c
      · simp [h, ih]
      · simp [h, Ne.symm h]

theorem cut_eq_append {mark cs before after : List Char} (h : cut mark cs = some (before, after)) :
    cs = before ++ mark ++ after := by
  induction cs generalizing before with
  | nil =>
    simp only [cut] at h
    split at h
    · simp_all
    · cases h
  | cons c rest ih =>
    simp only [cut] at h
    split at h
    · next after' hp =>
      cases h
      simpa using isPrefixOf?_eq_some.1 hp
    · obtain ⟨⟨b, a⟩, hb, hc⟩ := Option.map_eq_some_iff.1 h
      cases hc
      simp [ih hb]

end ScriptedText.Text
