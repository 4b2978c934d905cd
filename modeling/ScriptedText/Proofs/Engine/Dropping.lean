import ScriptedText.Proofs.Engine.Tending
import ScriptedText.Proofs.OrderedMap

/-!
What is dropped along with a document: exactly the in-flow names that lead on from it. Names may be shared and may run in
circles; since a name is taken away before its document is followed, a document is followed once for each name that goes.
-/

namespace ScriptedText

/-- Dropping names one by one: each is taken away first, and then, if a document was under it, all that this one leads to is
dropped before the names that are left. `n` counts the documents that were followed. -/
inductive Drops (next : DocumentId → List String) :
    List String → OrderedMap String DocumentId → OrderedMap String DocumentId → Nat → Prop
  | done (m : OrderedMap String DocumentId) : Drops next [] m m 0
  | absent {name : String} {rest : List String} {m m' : OrderedMap String DocumentId} {n : Nat}
      (h : m.get? name = none) (hrest : Drops next rest (m.erase name) m' n) : Drops next (name :: rest) m m' n
  | followed {name : String} {rest : List String} {m m₁ m' : OrderedMap String DocumentId} {d : DocumentId} {n₁ n : Nat}
      (h : m.get? name = some d) (hnext : Drops next (next d) (m.erase name) m₁ n₁) (hrest : Drops next rest m₁ m' n) :
      Drops next (name :: rest) m m' (n₁ + n + 1)

section dropping

variable {next : DocumentId → List String} {names others : List String} {m m' : OrderedMap String DocumentId} {n : Nat}

theorem dropReachable_append (names others : List String) (m : OrderedMap String DocumentId) :
    dropReachable next (names ++ others) m = dropReachable next others (dropReachable next names m) := by
  fun_induction dropReachable next names m with
  | case1 m => rfl
  | case2 m name rest d hd ih =>
      rw [← ih, List.cons_append, dropReachable]
      split
      · next d' hd' =>
          cases hd.symm.trans hd'
          rw [List.append_assoc]
      · next hnone => cases hd.symm.trans hnone
  | case3 m name rest hd ih =>
      rw [← ih, List.cons_append, dropReachable]
      split
      · next d' hd' => cases hd.symm.trans hd'
      · rfl

namespace Drops

/-- However it is dropped, the same is left. -/
theorem eq (h : Drops next names m m' n) : m' = dropReachable next names m := by
  induction h with
  | done m => rw [dropReachable]
  | @absent name rest m m' n hnone _ ih =>
      rw [ih, OrderedMap.erase_of_none hnone, dropReachable]
      split
      · next d' hd' => cases hnone.symm.trans hd'
      · rfl
  | @followed name rest m m₁ m' d n₁ n hd _ _ ihnext ihrest =>
      rw [ihrest, ihnext, ← dropReachable_append, dropReachable]
      split
      · next d' hd' => cases hd.symm.trans hd'; rfl
      · next hnone => cases hd.symm.trans hnone

/-- One name goes with each document that is followed. -/
theorem size_add (h : Drops next names m m' n) : m'.size + n = m.size := by
  induction h with
  | done m => rfl
  | absent hnone _ ih => rwa [OrderedMap.erase_of_none hnone] at ih
  | followed hd _ _ ihnext ihrest =>
      have herase := OrderedMap.size_erase_add_one hd
      omega

theorem of_append (h : Drops next (names ++ others) m m' n) :
    ∃ m₁ n₁ n₂, Drops next names m m₁ n₁ ∧ Drops next others m₁ m' n₂ := by
  induction names generalizing m n with
  | nil => exact ⟨m, 0, n, .done m, h⟩
  | cons name rest ih =>
      cases h with
      | absent hnone hrest =>
          obtain ⟨m₁, n₁, n₂, h₁, h₂⟩ := ih hrest
          exact ⟨m₁, n₁, n₂, .absent hnone h₁, h₂⟩
      | followed hd hnext hrest =>
          obtain ⟨m₁, n₁, n₂, h₁, h₂⟩ := ih hrest
          exact ⟨m₁, _, n₂, .followed hd hnext h₁, h₂⟩

end Drops

theorem exists_drops (next : DocumentId → List String) (names : List String) (m : OrderedMap String DocumentId) :
    ∃ n, Drops next names m (dropReachable next names m) n := by
  fun_induction dropReachable next names m with
  | case1 m => exact ⟨0, .done m⟩
  | case2 m name rest d hd ih =>
      obtain ⟨n, h⟩ := ih
      obtain ⟨m₁, n₁, n₂, hnext, hrest⟩ := h.of_append
      exact ⟨_, .followed hd hnext hrest⟩
  | case3 m name rest hd ih =>
      obtain ⟨n, h⟩ := ih
      exact ⟨n, .absent hd (by rwa [OrderedMap.erase_of_none hd])⟩

/-- Dropping comes to an end, and follows as many documents as names are gone then. -/
theorem drops_dropReachable (next : DocumentId → List String) (names : List String) (m : OrderedMap String DocumentId) :
    Drops next names m (dropReachable next names m) (m.size - (dropReachable next names m).size) := by
  obtain ⟨n, h⟩ := exists_drops next names m
  have hn : n = m.size - (dropReachable next names m).size := by
    have hsize := h.size_add
    omega
  exact hn ▸ h

/-- What is left stays in its order. -/
theorem dropReachable_eq_filter (next : DocumentId → List String) (names : List String) (m : OrderedMap String DocumentId) :
    dropReachable next names m = m.filter fun name _ => ((dropReachable next names m).get? name).isSome := by
  obtain ⟨p, hp⟩ : ∃ p : String → Bool, dropReachable next names m = m.filter fun name _ => p name := by
    fun_induction dropReachable next names m with
    | case1 m => exact ⟨fun _ => true, (OrderedMap.filter_true m).symm⟩
    | case2 m name rest d hd ih =>
        obtain ⟨p, hp⟩ := ih
        exact ⟨_, hp.trans (OrderedMap.filter_filter m _ p)⟩
    | case3 m name rest hd ih => exact ih
  rw [hp]
  refine OrderedMap.filter_congr fun e he => ?_
  rw [OrderedMap.get?_filter, OrderedMap.get?_of_mem he]
  cases p e.1 <;> rfl

end dropping

namespace World

variable {w : World} {s : SourceId} {d x : DocumentId} {name : String}

/-- The in-flow names that lead on from a document: those that it depends on, and those that the documents which the source
keeps under such names depend on. -/
inductive InFlowFrom (w : World) (s : SourceId) (d : DocumentId) : String → Prop
  | own {name : String} (h : name ∈ (w.document d).dependencies) (hmark : Document.isInFlow name = true) :
      InFlowFrom w s d name
  | further {name other : String} {x : DocumentId} (h : InFlowFrom w s d name) (hx : w.cached? s name = some x)
      (hother : other ∈ (w.document x).dependencies) (hmark : Document.isInFlow other = true) : InFlowFrom w s d other

/-- A name that was kept is gone just if it leads on from the document. -/
theorem get?_dropReachable_eq_none_iff (hx : w.cached? s name = some x) :
    (dropReachable (fun x => (w.document x).inFlowDependencies) (w.document d).inFlowDependencies
      (w.source s).byName).get? name = none ↔ w.InFlowFrom s d name := by
  constructor
  · refine of_get?_dropReachable (fun name hname => ?_) (fun name y h hy other hother => ?_) hx
    · obtain ⟨hmem, hmark⟩ := List.mem_filter.1 hname
      exact .own hmem hmark
    · obtain ⟨hmem, hmark⟩ := List.mem_filter.1 hother
      exact h.further hy hmem hmark
  · intro h
    clear hx
    induction h with
    | own hmem hmark => exact get?_dropReachable_of_mem (List.mem_filter.2 ⟨hmem, hmark⟩)
    | further _ hy hmem hmark ih => exact get?_dropReachable_of_next hy ih (List.mem_filter.2 ⟨hmem, hmark⟩)

theorem byName_dropInFlow (w : World) (s : SourceId) (d : DocumentId) : ((w.dropInFlow s d).source s).byName =
    dropReachable (fun x => (w.document x).inFlowDependencies) (w.document d).inFlowDependencies (w.source s).byName := by
  unfold dropInFlow
  by_cases hs : s.index < w.sources.length
  · rw [source_modifySource _ hs]
  · -- A source that is not there keeps nothing, and dropping leaves nothing.
    have hdefault : w.source s = default := by
      unfold source
      rw [List.getElem?_eq_none (Nat.le_of_not_lt hs)]
      rfl
    rw [source_modifySource_of_le _ (Nat.le_of_not_lt hs), hdefault]
    exact (dropReachable_eq_filter _ _ (default : Source).byName).symm

theorem modifySource_congr {f g : Source → Source} (h : f (w.source s) = g (w.source s)) :
    w.modifySource s f = w.modifySource s g := by
  by_cases hs : s.index < w.sources.length
  · have hsource : w.source s = w.sources[s.index] := by
      unfold source
      rw [List.getElem?_eq_getElem hs]
      rfl
    have hsame : w.sources.modify s.index f = w.sources.modify s.index g := by
      refine List.ext_getElem? fun i => ?_
      rw [List.getElem?_modify, List.getElem?_modify]
      split
      · next hi =>
          rw [← hi, List.getElem?_eq_getElem hs, ← hsource]
          exact congrArg some h
      · rfl
    unfold modifySource
    rw [hsame]
  · rw [modifySource_of_le (Nat.le_of_not_lt hs), modifySource_of_le (Nat.le_of_not_lt hs)]

open Classical in
/-- Dropping what belongs to a document comes to an end, with as many documents followed as names are gone, and leaves the same
whatever way it is done: all that the source kept, less the in-flow names that lead on from the document, in the order that it
had. Nothing else changes. -/
theorem dropInFlow_ends_with_closure (w : World) (s : SourceId) (d : DocumentId) :
    Drops (fun x => (w.document x).inFlowDependencies) (w.document d).inFlowDependencies (w.source s).byName
        ((w.dropInFlow s d).source s).byName
        ((w.source s).byName.size - ((w.dropInFlow s d).source s).byName.size) ∧
      (∀ m n, Drops (fun x => (w.document x).inFlowDependencies) (w.document d).inFlowDependencies (w.source s).byName m n →
        m = ((w.dropInFlow s d).source s).byName) ∧
      w.dropInFlow s d = w.modifySource s fun source =>
        { source with byName := source.byName.filter fun name _ => ¬ w.InFlowFrom s d name } := by
  rw [byName_dropInFlow]
  refine ⟨drops_dropReachable _ _ _, fun m n h => h.eq, ?_⟩
  refine modifySource_congr (congrArg (fun byName => { w.source s with byName }) ?_)
  rw [dropReachable_eq_filter]
  refine OrderedMap.filter_congr fun e he => ?_
  have hiff := get?_dropReachable_eq_none_iff (d := d) (OrderedMap.get?_of_mem he : w.cached? s e.1 = some e.2)
  rw [Bool.eq_iff_iff, decide_eq_true_iff, Option.isSome_iff_ne_none]
  exact not_congr hiff

end World

end ScriptedText
