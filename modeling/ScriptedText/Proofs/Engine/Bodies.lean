import Mathlib.Algebra.GroupWithZero.Nat
import ScriptedText.Engine.Compile
import ScriptedText.Proofs.Document.Progress

/-!
The documents that a draft holds: its scriptlet bodies, theirs, and so on down. All names are known beforehand, since they
are counted in the order in which bodies are compiled.
-/

namespace ScriptedText

/-- How many documents the bodies of a text become, with those inside them. -/
def bodyCount (styles : List Delimiters) (extract : Bool) (tag : String) (text : List Char) : Nat :=
  ((Reading.ofDocument styles tag extract text).requests.attach.map fun r =>
    bodyCount styles extract r.1.tag r.1.source + 1).sum
termination_by text.length
decreasing_by exact request_shorter r.2

theorem bodyCount_eq (styles : List Delimiters) (extract : Bool) (tag : String) (text : List Char) :
    bodyCount styles extract tag text =
      ((Reading.ofDocument styles tag extract text).requests.map fun r =>
        bodyCount styles extract r.tag r.source + 1).sum := by
  rw [bodyCount]
  exact congrArg List.sum (@List.attach_map_val _ _ _ fun r : Request => bodyCount styles extract r.tag r.source + 1)

/-- Bodies with their numbers, from `k` on. Those inside a body come between it and the next. -/
def numberFrom (count : Request → Nat) : Nat → List Request → List (Nat × Request)
  | _, [] => []
  | k, r :: rest => (k, r) :: numberFrom count (k + 1 + count r) rest

namespace Draft

variable {o inner : Draft} {k n j : Nat} {r : Request} {outer : List Site}

def reading (o : Draft) : Reading := Reading.ofDocument o.styles o.tag o.source.isSome o.text.toList

/-- The bodies that become documents; pure source has none. -/
def bodies (o : Draft) : List Request := if o.isText then o.reading.requests else []

/-- How many names a compilation gives out. -/
def count (o : Draft) : Nat := if o.isText then bodyCount o.styles o.source.isSome o.tag o.text.toList else 0

/-- The bodies of a draft, where `k` is the next number. -/
def numbered (o : Draft) (k : Nat) : List (Nat × Request) := numberFrom (fun r => (o.body r "").count) k o.bodies

/-- The names that its own bodies get. -/
def names (o : Draft) (k : Nat) : List String := (o.numbered k).map fun b => Document.inFlowName b.1

/-- The drafts that are compiled along with `o`, each with the next number then and the sites of the scriptlets that it
stands in, from the innermost outwards. -/
inductive Nests (o : Draft) (k : Nat) : Draft → Nat → List Site → Prop
  | self : Nests o k o k []
  | body {inner : Draft} {n j : Nat} {r : Request} {outer : List Site} (h : Nests o k inner n outer)
      (hr : (j, r) ∈ inner.numbered n) :
      Nests o k (inner.body r (Document.inFlowName j)) (j + 1) (inner.site r.place :: outer)

theorem bodies_of_isText (h : o.isText = true) : o.bodies = o.reading.requests := by simp only [bodies, h, if_true]

theorem count_body (o : Draft) (r : Request) (name : String) :
    (o.body r name).count = bodyCount o.styles o.source.isSome r.tag r.source := by
  simp [count, body]

theorem count_eq (o : Draft) : o.count = (o.bodies.map fun r => (o.body r "").count + 1).sum := by
  simp only [count_body, bodies]
  rw [count]
  split
  · exact bodyCount_eq ..
  · rfl

theorem length_body_lt (name : String) (hr : r ∈ o.bodies) : (o.body r name).text.length < o.text.length := by
  simp only [bodies] at hr
  split at hr
  · have h := request_shorter hr
    rw [String.length_toList] at h
    simpa [body] using h
  · cases hr

/-! What stands in a body stands in the document. -/

theorem Nests.outward (hr : (j, r) ∈ o.numbered k)
    (h : (o.body r (Document.inFlowName j)).Nests (j + 1) inner n outer) :
    o.Nests k inner n (outer ++ [o.site r.place]) := by
  induction h with
  | self => exact .body .self hr
  | body h hr' ih => exact .body ih hr'

theorem nests_cases (h : o.Nests k inner n outer) : (inner = o ∧ n = k ∧ outer = []) ∨
    ∃ j r outer', (j, r) ∈ o.numbered k ∧ (o.body r (Document.inFlowName j)).Nests (j + 1) inner n outer' ∧
      outer = outer' ++ [o.site r.place] := by
  induction h with
  | self => exact .inl ⟨rfl, rfl, rfl⟩
  | @body inner n j r outer h hr ih =>
      right
      rcases ih with ⟨rfl, rfl, rfl⟩ | ⟨j', r', outer', hr', h', rfl⟩
      · exact ⟨j, r, [], hr, .self, rfl⟩
      · exact ⟨j', r', inner.site r.place :: outer', hr', .body h' hr, rfl⟩

end Draft

end ScriptedText
