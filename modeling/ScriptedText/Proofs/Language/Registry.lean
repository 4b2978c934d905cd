import ScriptedText.Language.Registry
import ScriptedText.Proofs.OrderedMap

/-!
Registrations by tag and by adapter. A tag leads to the registration that its adapter leads to, however often
adapters are registered and whatever tags they take over from others.
-/

namespace ScriptedText.Registry

variable {reg : Registry} {a : AdapterId}

/-- The registration that a tag leads to is the one that its adapter leads to. -/
def Coherent (reg : Registry) : Prop :=
  ∀ tag r a, reg.registration? tag = some r → reg.owner? r = some a → reg.registrationOf? a = some r

/-- A tag leads to the registration that its adapter leads to, and is a tag of this adapter. -/
structure Tagged (reg : Registry) : Prop where
  owned : ∀ tag r, reg.registration? tag = some r → ∃ a adapter, reg.owner? r = some a ∧
    reg.adapter? a = some adapter ∧ tag ∈ adapter.info.tags ∧ reg.registrationOf? a = some r

theorem Tagged.coherent (h : reg.Tagged) : reg.Coherent := by
  intro tag r a htag howner
  obtain ⟨a', adapter, howner', -, -, hr⟩ := h.owned tag r htag
  cases howner.symm.trans howner'
  exact hr

theorem Tagged.add (h : reg.Tagged) (adapter : Adapter) : (reg.add adapter).1.Tagged := by
  refine ⟨fun tag r htag => ?_⟩
  obtain ⟨a, x, howner, hx, hmem, hr⟩ := h.owned tag r htag
  refine ⟨a, x, howner, ?_, hmem, hr⟩
  have hlt := (List.getElem?_eq_some_iff.1 hx).1
  exact (List.getElem?_append_left hlt).trans hx

theorem owner?_of_lt {r : RegistrationId} (h : r.index < reg.registrations.length) (a' : AdapterId) :
    (reg.registrations ++ [a'])[r.index]? = reg.owner? r := List.getElem?_append_left h

/-- All tags of the adapter lead to its new registration then, and none to an older one of its own. -/
theorem Tagged.register (h : reg.Tagged) (a : AdapterId) : (reg.register a).Tagged := by
  unfold Registry.register
  split
  · exact h
  · next adapter hadapter =>
      refine ⟨fun tag r htag => ?_⟩
      unfold registration? at htag
      dsimp only at htag
      rw [OrderedMap.get?_foldl_insert] at htag
      split at htag
      · next hmem =>
          cases htag
          refine ⟨a, adapter, by simp [owner?], hadapter, hmem, ?_⟩
          simp [registrationOf?, OrderedMap.get?_insert]
      · next hnot =>
          obtain ⟨a', x, howner, hx, hmem, hr⟩ := h.owned tag r htag
          have hne : a' ≠ a := by
            rintro rfl
            cases hadapter.symm.trans hx
            exact hnot hmem
          refine ⟨a', x, ?_, hx, hmem, ?_⟩
          · exact (owner?_of_lt (List.getElem?_eq_some_iff.1 howner).1 a).trans howner
          · exact (OrderedMap.get?_insert ..).trans ((if_neg hne).trans hr)

theorem tagged_ofAdapters (adapters : List Adapter) : (ofAdapters adapters).Tagged := by
  have hfold (reg : Registry) (h : reg.Tagged) :
      (adapters.foldl (fun reg a => (reg.add a).1.register (reg.add a).2) reg).Tagged := by
    induction adapters generalizing reg with
    | nil => exact h
    | cons adapter adapters ih => exact ih _ ((h.add adapter).register _)
  refine hfold {} ⟨fun tag r htag => ?_⟩
  cases htag

theorem adapters_register (reg : Registry) (a : AdapterId) : (reg.register a).adapters = reg.adapters := by
  unfold register
  split <;> rfl

theorem adapters_ofAdapters (adapters : List Adapter) : (ofAdapters adapters).adapters = adapters := by
  have hfold (reg : Registry) :
      (adapters.foldl (fun reg a => (reg.add a).1.register (reg.add a).2) reg).adapters =
        reg.adapters ++ adapters := by
    induction adapters generalizing reg with
    | nil => exact (List.append_nil _).symm
    | cons adapter adapters ih =>
        refine (ih _).trans ?_
        rw [adapters_register]
        exact List.append_assoc ..
  exact hfold {}

/-- What was registered, in order. An adapter is known before it is registered, and it may be registered again. -/
inductive Registered : Registry → List AdapterId → Prop
  | none : Registered {} []
  | add {reg : Registry} {ids : List AdapterId} (h : Registered reg ids) (adapter : Adapter) :
      Registered (reg.add adapter).1 ids
  | register {reg : Registry} {ids : List AdapterId} (h : Registered reg ids) (a : AdapterId)
      (hknown : (reg.adapter? a).isSome = true) : Registered (reg.register a) (ids ++ [a])

/-- Whether a tag is one of the adapter's. -/
def lists (reg : Registry) (tag : String) (a : AdapterId) : Bool := (reg.adapter? a).any fun x => tag ∈ x.info.tags

/-- Whether an extension, in whatever spelling, is one of the adapter's. -/
def listsExtension (reg : Registry) (extension : String) (a : AdapterId) : Bool :=
  (reg.adapter? a).any fun x => normalizeExtension extension ∈ x.info.extensions.map normalizeExtension

variable {ids : List AdapterId} {r : RegistrationId} {tag extension : String}

theorem lists_register (tag : String) (a : AdapterId) : (reg.register a).lists tag = reg.lists tag := by
  funext a'
  simp [lists, adapter?, adapters_register]

theorem adapter?_add (adapter : Adapter) (h : (reg.adapter? a).isSome = true) :
    (reg.add adapter).1.adapter? a = reg.adapter? a := by
  obtain ⟨x, hx⟩ := Option.isSome_iff_exists.1 h
  exact List.getElem?_append_left (List.getElem?_eq_some_iff.1 hx).1

/-- A registration that leads to an adapter stays the adapter's. -/
theorem owner?_register {a' : AdapterId} (h : reg.owner? r = some a') : (reg.register a).owner? r = some a' := by
  unfold register
  split
  · exact h
  · exact (owner?_of_lt (List.getElem?_eq_some_iff.1 h).1 a).trans h

/-- All tags of the adapter lead to its new registration, and no others do. -/
theorem registration?_register {adapter : Adapter} (h : reg.adapter? a = some adapter) (tag : String) :
    (reg.register a).registration? tag =
      if tag ∈ adapter.info.tags then some ⟨reg.registrations.length⟩ else reg.registration? tag := by
  simp only [register, h, registration?]
  exact OrderedMap.get?_foldl_insert ..

theorem listsExtension_register (extension : String) (a : AdapterId) :
    (reg.register a).listsExtension extension = reg.listsExtension extension := by
  funext a'
  simp [listsExtension, adapter?, adapters_register]

/-- All extensions of the adapter lead to its new registration, and no others do. -/
theorem byExtension_register {adapter : Adapter} (h : reg.adapter? a = some adapter) (key : String) :
    (reg.register a).byExtension.get? key =
      if key ∈ adapter.info.extensions.map normalizeExtension then some ⟨reg.registrations.length⟩
      else reg.byExtension.get? key := by
  have hinserted := OrderedMap.get?_foldl_insert reg.byExtension (adapter.info.extensions.map normalizeExtension)
    ⟨reg.registrations.length⟩ key
  rw [List.foldl_map] at hinserted
  simp only [register, h]
  exact hinserted

theorem registrationOf?_register {adapter : Adapter} (h : reg.adapter? a = some adapter) (a' : AdapterId) :
    (reg.register a).registrationOf? a' =
      if a' = a then some ⟨reg.registrations.length⟩ else reg.registrationOf? a' := by
  simp only [register, h, registrationOf?]
  exact OrderedMap.get?_insert ..

theorem owner?_register_new (h : (reg.adapter? a).isSome = true) :
    (reg.register a).owner? ⟨reg.registrations.length⟩ = some a := by
  obtain ⟨adapter, hadapter⟩ := Option.isSome_iff_exists.1 h
  simp [register, hadapter, owner?]

theorem forTag?_register (htagged : reg.Tagged) (h : (reg.adapter? a).isSome = true) (tag : String) :
    (reg.register a).forTag? tag = if reg.lists tag a then some a else reg.forTag? tag := by
  obtain ⟨adapter, hadapter⟩ := Option.isSome_iff_exists.1 h
  simp only [forTag?, registration?_register hadapter, lists, hadapter, Option.any_some, decide_eq_true_eq]
  split
  · exact owner?_register_new h
  · cases htag : reg.registration? tag with
    | none => rfl
    | some r =>
        obtain ⟨a', -, howner, -⟩ := htagged.owned tag r htag
        exact (owner?_register howner).trans howner.symm

theorem keys_register {adapter : Adapter} (h : reg.adapter? a = some adapter) :
    (reg.register a).registered = if a ∈ reg.registered then reg.registered else reg.registered ++ [a] := by
  simp only [register, h, registered]
  exact OrderedMap.keys_insert ..

namespace Registered

theorem known (h : reg.Registered ids) : ∀ a ∈ ids, (reg.adapter? a).isSome = true := by
  induction h with
  | none => exact fun a ha => absurd ha List.not_mem_nil
  | add h adapter ih => exact fun a ha => adapter?_add adapter (ih a ha) ▸ ih a ha
  | register h a hknown ih =>
      intro a' ha'
      rw [adapter?, adapters_register]
      rcases List.mem_append.1 ha' with hold | hnew
      · exact ih a' hold
      · cases List.mem_singleton.1 hnew
        exact hknown

theorem tagged (h : reg.Registered ids) : reg.Tagged := by
  induction h with
  | none => exact ⟨fun tag r htag => by cases htag⟩
  | add h adapter ih => exact ih.add adapter
  | register h a hknown ih => exact ih.register a

theorem owner?_of_registrationOf? (h : reg.Registered ids) (hr : reg.registrationOf? a = some r) :
    reg.owner? r = some a := by
  induction h with
  | none => cases hr
  | add h adapter ih => exact ih hr
  | @register reg ids h a' hknown ih =>
      obtain ⟨adapter, hadapter⟩ := Option.isSome_iff_exists.1 hknown
      rw [registrationOf?_register hadapter] at hr
      split at hr
      · next heq =>
          subst heq
          cases hr
          exact owner?_register_new hknown
      · exact owner?_register (ih hr)

/-- The last one wins that lists the tag. -/
theorem forTag?_eq (h : reg.Registered ids) (tag : String) : reg.forTag? tag = (ids.filter (reg.lists tag)).getLast? := by
  induction h with
  | none => rfl
  | @add reg ids h adapter ih =>
      refine ih.trans (congrArg List.getLast? (List.filter_congr fun a ha => ?_))
      simp only [lists, adapter?_add adapter (h.known a ha)]
  | @register reg ids h a hknown ih =>
      rw [forTag?_register h.tagged hknown, ih]
      simp only [lists_register, List.filter_append]
      by_cases hlists : reg.lists tag a = true
      · simp [hlists]
      · simp [hlists]

theorem owner?_of_byExtension {key : String} (h : reg.Registered ids) (hr : reg.byExtension.get? key = some r) :
    ∃ a, reg.owner? r = some a := by
  induction h with
  | none => cases hr
  | add h adapter ih => exact ih hr
  | @register reg ids h a hknown ih =>
      obtain ⟨adapter, hadapter⟩ := Option.isSome_iff_exists.1 hknown
      rw [byExtension_register hadapter] at hr
      split at hr
      · cases hr
        exact ⟨a, owner?_register_new hknown⟩
      · obtain ⟨a', howner⟩ := ih hr
        exact ⟨a', owner?_register howner⟩

theorem forExtension?_register (h : reg.Registered ids) (hknown : (reg.adapter? a).isSome = true) (extension : String) :
    (reg.register a).forExtension? extension =
      if reg.listsExtension extension a then some a else reg.forExtension? extension := by
  obtain ⟨adapter, hadapter⟩ := Option.isSome_iff_exists.1 hknown
  simp only [forExtension?, byExtension_register hadapter, listsExtension, hadapter, Option.any_some, decide_eq_true_eq]
  split
  · exact owner?_register_new hknown
  · cases hr : reg.byExtension.get? (normalizeExtension extension) with
    | none => rfl
    | some r =>
        obtain ⟨a', howner⟩ := h.owner?_of_byExtension hr
        exact (owner?_register howner).trans howner.symm

/-- The last one wins that lists the extension. -/
theorem forExtension?_eq (h : reg.Registered ids) (extension : String) :
    reg.forExtension? extension = (ids.filter (reg.listsExtension extension)).getLast? := by
  induction h with
  | none => rfl
  | @add reg ids h adapter ih =>
      refine ih.trans (congrArg List.getLast? (List.filter_congr fun a ha => ?_))
      simp only [listsExtension, adapter?_add adapter (h.known a ha)]
  | @register reg ids h a hknown ih =>
      rw [h.forExtension?_register hknown, ih]
      simp only [listsExtension_register, List.filter_append]
      by_cases hlists : reg.listsExtension extension a = true
      · simp [hlists]
      · simp [hlists]

/-- An adapter has a tag that it lists until another one that lists it is registered. -/
theorem forTag?_eq_some_iff (h : reg.Registered ids) (hlists : reg.lists tag a = true) :
    reg.forTag? tag = some a ↔
      ∃ before after, ids = before ++ a :: after ∧ ∀ b ∈ after, reg.lists tag b = false := by
  rw [h.forTag?_eq]
  constructor
  · intro hlast
    obtain ⟨front, hfront⟩ := List.getLast?_eq_some_iff.1 hlast
    obtain ⟨before, rest, rfl, -, hrest⟩ := List.filter_eq_append_iff.1 hfront
    obtain ⟨others, after, rfl, -, -, hafter⟩ := List.filter_eq_cons_iff.1 hrest
    refine ⟨before ++ others, after, by simp, fun b hb => ?_⟩
    exact Bool.not_eq_true _ ▸ List.filter_eq_nil_iff.1 hafter b hb
  · rintro ⟨before, after, rfl, hafter⟩
    have hnone : after.filter (reg.lists tag) = [] := List.filter_eq_nil_iff.2 fun b hb => by simp [hafter b hb]
    simp [List.filter_append, hlists, hnone]

theorem registered_eq (h : reg.Registered ids) : reg.registered = ids.eraseDups := by
  induction h with
  | none => rfl
  | add h adapter ih => exact ih
  | @register reg ids h a hknown ih =>
      obtain ⟨adapter, hadapter⟩ := Option.isSome_iff_exists.1 hknown
      rw [keys_register hadapter, ih, List.eraseDups_append]
      by_cases hmem : a ∈ ids
      · simp [hmem, List.removeAll]
      · simp [hmem, List.removeAll, List.eraseDups_cons]

end Registered

end ScriptedText.Registry
