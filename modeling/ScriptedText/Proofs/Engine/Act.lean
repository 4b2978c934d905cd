import ScriptedText.Engine.Compile

/-!
Steps that change the world, as functions on worlds: what each way to put them together does, and relations between
the world before and the world after that all of these ways keep.
-/

namespace ScriptedText

/-- Whether the event is no part of a run: neither its start or its end nor a hook of it. A failure is reported for
documents that do not compile, too. -/
def Event.isAside : Event → Bool
  | .started _ _ | .ended _ | .initialized _ | .finalized _ => false
  | _ => true

/-- An executable that has not run yet. -/
structure Executable.IsNew (x : Executable) : Prop where
  claimed : x.claimed = none
  count : x.count = 0

end ScriptedText

namespace ScriptedText.Act

variable {α β : Type}

/-- The outcome of an act in a world, and the world after it. -/
def perform (x : Act α) (w : World) : Except Failure α × World := x.run.run w

@[simp]
theorem perform_pure (a : α) (w : World) : (pure a : Act α).perform w = (.ok a, w) := rfl

@[simp]
theorem perform_throw (f : Failure) (w : World) : (throw f : Act α).perform w = (.error f, w) := rfl

@[simp]
theorem perform_get (w : World) : (get : Act World).perform w = (.ok w, w) := rfl

@[simp]
theorem perform_set (w' w : World) : (set w' : Act PUnit).perform w = (.ok ⟨⟩, w') := rfl

@[simp]
theorem perform_modify (f : World → World) (w : World) : (modify f : Act PUnit).perform w = (.ok ⟨⟩, f w) := rfl

@[simp]
theorem perform_modifyGet (f : World → α × World) (w : World) :
    (modifyGet f : Act α).perform w = (.ok (f w).1, (f w).2) := rfl

theorem perform_bind (x : Act α) (f : α → Act β) (w : World) :
    (x >>= f).perform w =
      match (x.perform w).1 with
      | .ok a => (f a).perform (x.perform w).2
      | .error e => (.error e, (x.perform w).2) := by
  unfold perform ExceptT.run StateT.run
  simp only [bind, ExceptT.bind, ExceptT.mk, StateT.bind, ExceptT.bindCont]
  rcases x w with ⟨_ | _, _⟩ <;> rfl

theorem perform_tryCatch (x : Act α) (handler : Failure → Act α) (w : World) :
    (tryCatch x handler).perform w =
      match (x.perform w).1 with
      | .ok a => (.ok a, (x.perform w).2)
      | .error e => (handler e).perform (x.perform w).2 := by
  unfold perform ExceptT.run StateT.run
  simp only [tryCatch, tryCatchThe, MonadExceptOf.tryCatch, ExceptT.tryCatch, ExceptT.mk, bind, StateT.bind]
  rcases x w with ⟨_ | _, _⟩ <;> rfl

/-- What the act results in, in whatever world, is of a kind. -/
def Gives (P : α → Prop) (x : Act α) : Prop := ∀ w a, (x.perform w).1 = .ok a → P a

section gives

variable {P : α → Prop}

theorem gives_pure {a : α} (h : P a) : Gives P (pure a : Act α) := by
  intro w a' ha
  cases ha
  exact h

theorem gives_bind {x : Act β} {f : β → Act α} (h : ∀ b, Gives P (f b)) : Gives P (x >>= f) := by
  intro w a ha
  rw [perform_bind] at ha
  split at ha
  · exact h _ _ a ha
  · cases ha

theorem gives_tryCatch {x : Act α} {handler : Failure → Act α} (hx : Gives P x) (hh : ∀ f, Gives P (handler f)) :
    Gives P (tryCatch x handler) := by
  intro w a ha
  rw [perform_tryCatch] at ha
  split at ha
  · next heq =>
      cases ha
      exact hx w a heq
  · exact hh _ _ a ha

theorem gives_construct {inner : Draft → Act ExecutableId} {o : Draft} :
    Gives Executable.IsNew (construct inner o) := by
  have hrest (segments : List PlacedSegment) (x : List PlacedSegment → Executable)
      (hx : ∀ resolved, (x resolved).IsNew) :
      Gives Executable.IsNew (segments.mapM (resolveSegment o) >>= fun resolved => pure (x resolved)) :=
    gives_bind fun resolved => gives_pure (hx resolved)
  unfold construct
  refine gives_bind fun w => ?_
  dsimp only
  split
  · exact gives_bind fun parsed => hrest _ _ fun _ => ⟨rfl, rfl⟩
  · exact gives_bind fun parsed => hrest _ _ fun _ => ⟨rfl, rfl⟩

end gives

/-- The act leads from every world to one that is related to it. -/
def Relates (R : World → World → Prop) (x : Act α) : Prop := ∀ w, R w (x.perform w).2

section relates

variable {R : World → World → Prop} (hrefl : ∀ w, R w w) (htrans : ∀ w₁ w₂ w₃, R w₁ w₂ → R w₂ w₃ → R w₁ w₃)

include hrefl in
theorem relates_pure (a : α) : Relates R (pure a : Act α) := fun w => hrefl w

include hrefl in
theorem relates_throw (f : Failure) : Relates R (throw f : Act α) := fun w => hrefl w

theorem relates_modify {f : World → World} (h : ∀ w, R w (f w)) : Relates R (modify f : Act PUnit) := h

include htrans in
theorem relates_bind_of_gives {P : α → Prop} {x : Act α} {f : α → Act β} (hx : Relates R x) (hgives : Gives P x)
    (hf : ∀ a, P a → Relates R (f a)) : Relates R (x >>= f) := by
  intro w
  rw [perform_bind]
  cases ha : (x.perform w).1 with
  | ok a => exact htrans _ _ _ (hx w) (hf a (hgives w a ha) _)
  | error e => exact hx w

include htrans in
theorem relates_bind {x : Act α} {f : α → Act β} (hx : Relates R x) (hf : ∀ a, Relates R (f a)) :
    Relates R (x >>= f) := relates_bind_of_gives htrans hx (fun _ _ _ => trivial) fun a _ => hf a

include htrans in
theorem relates_tryCatch {x : Act α} {handler : Failure → Act α} (hx : Relates R x)
    (hh : ∀ f, Relates R (handler f)) : Relates R (tryCatch x handler) := by
  intro w
  rw [perform_tryCatch]
  cases (x.perform w).1 with
  | ok a => exact hx w
  | error f => exact htrans _ _ _ (hx w) (hh f _)

include hrefl htrans in
theorem relates_mapM {γ : Type} {f : γ → Act α} {l : List γ} (hf : ∀ c, Relates R (f c)) :
    Relates R (l.mapM f) := by
  induction l with
  | nil => exact relates_pure hrefl []
  | cons c l ih =>
      rw [List.mapM_cons]
      refine relates_bind htrans (hf c) fun a => relates_bind htrans ih fun as => ?_
      exact relates_pure hrefl (a :: as)

variable (hemit : ∀ (w : World) (e : Event), e.isAside = true → R w (w.emit e))

include hrefl hemit in
theorem relates_reportFailure (document : String) (f : Failure) : Relates R (modify (·.reportFailure document f)) := by
  refine relates_modify fun w => ?_
  unfold World.reportFailure
  split
  · exact hrefl w
  · exact hrefl w
  · exact hemit w _ rfl

include hrefl htrans hemit in
theorem relates_checkProgram (a : Adapter) (prepare : Bool) (source : String) :
    Relates R (checkProgram a prepare source) := by
  have hlift (x : Except Failure Unit) : Relates R (checkProgram.liftExcept x) := by
    cases x with
    | ok _ => exact relates_pure hrefl ()
    | error f => exact relates_throw hrefl f
  unfold checkProgram
  refine relates_bind htrans (hlift _) fun _ => ?_
  split
  · split
    · exact relates_bind htrans (relates_modify fun w => hemit w _ rfl) fun _ => hlift _
    · exact hlift _
  · exact relates_pure hrefl ()

include hrefl htrans hemit in
theorem relates_resolveSegment (o : Draft) (x : PlacedSegment) : Relates R (resolveSegment o x) := by
  unfold resolveSegment
  split
  · exact relates_pure hrefl x
  · intro w
    rw [perform_bind, perform_get]
    dsimp only
    split
    · exact hrefl w
    · refine relates_bind htrans ?_ (fun _ => relates_pure hrefl _) w
      exact relates_tryCatch htrans (relates_checkProgram hrefl htrans hemit _ _ _) fun f => relates_throw hrefl _

variable {inner : Draft → Act ExecutableId} {o : Draft} (hplace : ∀ r, Relates R (placeRequest inner o r))

include hrefl htrans hplace in
theorem relates_parseText : Relates R (parseText inner o) := by
  have hpart (p : Part) : Relates R (placePart inner o p) := by
    cases p with
    | segment x => exact relates_pure hrefl (x, none)
    | request r => exact hplace r
  unfold parseText
  dsimp only
  split
  · exact relates_throw hrefl _
  · refine relates_bind htrans (relates_mapM hrefl htrans hpart) fun placed => ?_
    split
    · exact relates_throw hrefl _
    · exact relates_pure hrefl _

include hrefl htrans hemit hplace in
/-- A compilation does nothing by itself but emit events, up to where it adds an executable. -/
theorem relates_construct : Relates R (construct inner o) := by
  have hrest (parsed : Parsed) (segments : List PlacedSegment) (x : List PlacedSegment → Executable) :
      Relates R (segments.mapM (resolveSegment o) >>= fun resolved => pure (x resolved)) :=
    relates_bind htrans (relates_mapM hrefl htrans (relates_resolveSegment hrefl htrans hemit o))
      fun _ => relates_pure hrefl _
  intro w
  unfold construct
  rw [perform_bind, perform_get]
  dsimp only
  split
  · exact relates_bind htrans (relates_parseText hrefl htrans hplace) (fun parsed => hrest parsed _ _) w
  · exact relates_bind htrans (relates_pure hrefl _) (fun parsed => hrest parsed _ _) w

end relates

end ScriptedText.Act

namespace ScriptedText

theorem World.compile_eq_perform (w : World) (o : Draft) :
    w.compile o =
      (((compileWithin (o.text.length + 1) o).perform w).2, ((compileWithin (o.text.length + 1) o).perform w).1) :=
  rfl

namespace Act

section compilation

variable {R : World → World → Prop} (hrefl : ∀ w, R w w) (htrans : ∀ w₁ w₂ w₃, R w₁ w₂ → R w₂ w₃ → R w₁ w₃)
  (hemit : ∀ (w : World) (e : Event), e.isAside = true → R w (w.emit e))
  (hcount : ∀ w : World, R w { w with inFlowCount := w.inFlowCount + 1 })
  {source? : Option SourceId}
  (hset : ∀ (w : World) (s : SourceId) (name text : String) (e : ExecutableId), source? = some s →
    R w (w.setDocument s name text "" (some e)).1)
  (hadd : ∀ (w : World) (x : Executable), x.IsNew → R w (w.addExecutable x).1)

include hrefl htrans hcount hset in
theorem relates_placeRequest {inner : Draft → Act ExecutableId}
    (hinner : ∀ o, o.source = source? → Relates R (inner o)) {o : Draft} (ho : o.source = source?) (r : Request) :
    Relates R (placeRequest inner o r) := by
  unfold placeRequest
  refine relates_bind htrans (fun w => hcount w) fun name => ?_
  refine relates_bind htrans ?_ fun e => ?_
  · exact relates_tryCatch htrans (hinner (o.body r name) ho) fun f => relates_throw hrefl _
  · split
    · next s hs =>
        exact relates_bind htrans (relates_modify fun w => hset w s _ _ _ (ho.symm.trans hs)) fun _ => relates_pure hrefl _
    · exact relates_pure hrefl _

/-- An executable that is made is new. -/
theorem gives_tryConstruct (inner : Draft → Act ExecutableId) (o : Draft) :
    Gives Executable.IsNew (tryCatch (construct inner o) fun f => do
      modify (·.reportFailure o.document f)
      throw f) := by
  refine gives_tryCatch gives_construct fun f => gives_bind fun _ => ?_
  intro w x hx
  cases hx

include hrefl htrans hemit hcount hset hadd in
theorem relates_compileWithin (depth : Nat) {o : Draft} (ho : o.source = source?) :
    Relates R (compileWithin depth o) := by
  induction depth generalizing o with
  | zero => exact relates_throw hrefl _
  | succ depth ih =>
      have hplace := relates_placeRequest hrefl htrans hcount hset (fun _ => ih) ho
      change Relates R (compileWith (compileWithin depth) o)
      unfold compileWith
      refine relates_bind_of_gives htrans (relates_tryCatch htrans ?_ fun f => ?_) (gives_tryConstruct _ o) fun x hx w => ?_
      · exact relates_construct hrefl htrans hemit hplace
      · exact relates_bind htrans (relates_reportFailure hrefl hemit o.document f) fun _ => relates_throw hrefl _
      · exact htrans _ _ _ (hadd w x hx) (hemit _ _ rfl)

end compilation

/-- The act leads from every world to one that is related to it, and the names in what it results in were known, or came to
hold something on the way. -/
def Tells (R : World → World → Prop) (F : World → World → String → Prop) (known : List String) (names : α → List String)
    (x : Act α) : Prop :=
  ∀ w, R w (x.perform w).2 ∧
    ∀ a, (x.perform w).1 = .ok a → ∀ name ∈ names a, name ∈ known ∨ F w (x.perform w).2 name

section telling

variable {R : World → World → Prop} {F : World → World → String → Prop} {known : List String} {names : α → List String}
  (hrefl : ∀ w, R w w) (htrans : ∀ w₁ w₂ w₃, R w₁ w₂ → R w₂ w₃ → R w₁ w₃)

theorem tells_of_relates {x : Act α} (h : Relates R x) (hnames : ∀ a, ∀ name ∈ names a, name ∈ known) :
    Tells R F known names x := fun w => ⟨h w, fun a _ name hname => .inl (hnames a name hname)⟩

include hrefl in
theorem tells_pure {a : α} (h : ∀ name ∈ names a, name ∈ known) : Tells R F known names (pure a : Act α) := by
  intro w
  refine ⟨hrefl w, fun a' ha => ?_⟩
  cases ha
  exact fun name hname => .inl (h name hname)

include hrefl in
theorem tells_throw (f : Failure) : Tells R F known names (throw f : Act α) := fun w => ⟨hrefl w, nofun⟩

variable (hleft : ∀ w₁ w₂ w₃ name, R w₁ w₂ → R w₂ w₃ → F w₁ w₂ name → F w₁ w₃ name)
  (hright : ∀ w₁ w₂ w₃ name, R w₁ w₂ → R w₂ w₃ → F w₂ w₃ name → F w₁ w₃ name)

include htrans hleft hright in
theorem tells_bind {names' : β → List String} {x : Act α} {f : α → Act β} (hx : Tells R F known names x)
    (hf : ∀ a, Tells R F (known ++ names a) names' (f a)) : Tells R F known names' (x >>= f) := by
  intro w
  obtain ⟨hfirst, hknown⟩ := hx w
  rw [perform_bind]
  cases ha : (x.perform w).1 with
  | error e => exact ⟨hfirst, nofun⟩
  | ok a =>
      obtain ⟨hsecond, hknown'⟩ := hf a (x.perform w).2
      refine ⟨htrans _ _ _ hfirst hsecond, fun b hb name hname => ?_⟩
      rcases hknown' b hb name hname with hmem | hfound
      · rcases List.mem_append.1 hmem with hmem | hmem
        · exact .inl hmem
        · exact (hknown a ha name hmem).imp_right (hleft _ _ _ name hfirst hsecond)
      · exact .inr (hright _ _ _ name hfirst hsecond hfound)

include hrefl htrans hleft hright in
theorem tells_mapM {γ : Type} {f : γ → Act α} {l : List γ} (hf : ∀ c known, Tells R F known names (f c)) :
    Tells R F known (fun as => as.flatMap names) (l.mapM f) := by
  induction l generalizing known with
  | nil => exact tells_pure hrefl nofun
  | cons c l ih =>
      rw [List.mapM_cons]
      refine tells_bind htrans hleft hright (hf c known) fun a => tells_bind htrans hleft hright ih fun as => ?_
      refine tells_pure hrefl fun name hname => ?_
      rw [List.append_assoc]
      exact List.mem_append_right known hname

variable {inner : Draft → Act ExecutableId} {o : Draft}
  (hplace : ∀ r known, Tells R F known (fun p => p.2.toList) (placeRequest inner o r))

include hrefl htrans hleft hright hplace in
theorem tells_parseText (known : List String) : Tells R F known Parsed.names (parseText inner o) := by
  have hpart (p : Part) (known : List String) : Tells R F known (fun p => p.2.toList) (placePart inner o p) := by
    cases p with
    | segment x => exact tells_pure hrefl nofun
    | request r => exact hplace r known
  unfold parseText
  dsimp only
  split
  · exact tells_throw hrefl _
  · refine tells_bind htrans hleft hright (tells_mapM hrefl htrans hleft hright hpart) fun placed => ?_
    split
    · exact tells_throw hrefl _
    · refine tells_pure hrefl fun name hname => List.mem_append_right known ?_
      obtain ⟨p, hp, hname⟩ := List.mem_filterMap.1 hname
      exact List.mem_flatMap.2 ⟨p, hp, Option.mem_toList.2 hname⟩

variable (hemit : ∀ (w : World) (e : Event), e.isAside = true → R w (w.emit e))

include hrefl htrans hleft hright hplace hemit in
theorem tells_construct (known : List String) : Tells R F known Executable.dependencies (construct inner o) := by
  have hresolve (p : PlacedSegment) (known : List String) : Tells R F known (fun _ => []) (resolveSegment o p) :=
    tells_of_relates (relates_resolveSegment hrefl htrans hemit o p) nofun
  have hrest (parsed : Parsed) (segments : List PlacedSegment) (x : List PlacedSegment → Executable)
      (hx : ∀ resolved, (x resolved).dependencies = parsed.names) :
      Tells R F (known ++ parsed.names) Executable.dependencies
        (segments.mapM (resolveSegment o) >>= fun resolved => pure (x resolved)) := by
    refine tells_bind htrans hleft hright (tells_mapM hrefl htrans hleft hright hresolve) fun resolved => ?_
    refine tells_pure hrefl fun name hname => ?_
    rw [hx] at hname
    exact List.mem_append_left _ (List.mem_append_right known hname)
  intro w
  unfold construct
  rw [perform_bind, perform_get]
  dsimp only
  split
  · exact tells_bind htrans hleft hright (tells_parseText hrefl htrans hleft hright hplace known)
      (fun parsed => hrest parsed _ _ fun _ => rfl) w
  · refine tells_bind htrans hleft hright (tells_pure hrefl fun name hname => ?_) (fun parsed => hrest parsed _ _ fun _ => rfl) w
    exact absurd hname List.not_mem_nil

end telling

/-- The act compiles: the names in the executable that it results in came to hold something on the way. -/
def Founds (R : World → World → Prop) (F : World → World → String → Prop) (x : Act ExecutableId) : Prop :=
  ∀ w, R w (x.perform w).2 ∧
    ∀ e, (x.perform w).1 = .ok e → ∀ name ∈ ((x.perform w).2.executable e).dependencies, F w (x.perform w).2 name

section founding

variable {R : World → World → Prop} {F : World → World → String → Prop} {Q : Draft → Prop}
  (hrefl : ∀ w, R w w) (htrans : ∀ w₁ w₂ w₃, R w₁ w₂ → R w₂ w₃ → R w₁ w₃)
  (hleft : ∀ w₁ w₂ w₃ name, R w₁ w₂ → R w₂ w₃ → F w₁ w₂ name → F w₁ w₃ name)
  (hright : ∀ w₁ w₂ w₃ name, R w₁ w₂ → R w₂ w₃ → F w₂ w₃ name → F w₁ w₃ name)
  (hemit : ∀ (w : World) (e : Event), e.isAside = true → R w (w.emit e))
  (hcount : ∀ w : World, R w { w with inFlowCount := w.inFlowCount + 1 })
  (hadd : ∀ (w : World) (x : Executable), x.IsNew → R w (w.addExecutable x).1)
  (hbody : ∀ o r name, Q o → Q (o.body r name)) (hsource : ∀ o, Q o → o.source.isSome = true)
  -- A body has been compiled under the next name, and is registered now.
  (hset : ∀ (w w₁ : World) (o : Draft) (r : Request) (depth : Nat) (e : ExecutableId) (s : SourceId), Q o → o.source = some s →
    (compileWithin depth (o.body r (Document.inFlowName w.inFlowCount))).perform { w with inFlowCount := w.inFlowCount + 1 } =
      (.ok e, w₁) →
    R { w with inFlowCount := w.inFlowCount + 1 } w₁ →
    (∀ name ∈ (w₁.executable e).dependencies, F { w with inFlowCount := w.inFlowCount + 1 } w₁ name) →
    R w (w₁.setDocument s (Document.inFlowName w.inFlowCount) (String.ofList r.source) "" (some e)).1 ∧
      F w (w₁.setDocument s (Document.inFlowName w.inFlowCount) (String.ofList r.source) "" (some e)).1
        (Document.inFlowName w.inFlowCount))

include htrans hcount hbody hsource hset in
theorem tells_placeRequest {depth : Nat} (hinner : ∀ o, Q o → Founds R F (compileWithin depth o)) {o : Draft} (ho : Q o)
    (known : List String) (r : Request) :
    Tells R F known (fun p => p.2.toList) (placeRequest (compileWithin depth) o r) := by
  intro w
  obtain ⟨s, hs⟩ := Option.isSome_iff_exists.1 (hsource o ho)
  have hnext : (nextInFlowName : Act String).perform w =
      (.ok (Document.inFlowName w.inFlowCount), { w with inFlowCount := w.inFlowCount + 1 }) := rfl
  obtain ⟨hcompiled, hnames⟩ := hinner _ (hbody o r (Document.inFlowName w.inFlowCount) ho)
    { w with inFlowCount := w.inFlowCount + 1 }
  unfold placeRequest
  rw [perform_bind, hnext]
  dsimp only
  rw [perform_bind, perform_tryCatch]
  cases hr : ((compileWithin depth (o.body r (Document.inFlowName w.inFlowCount))).perform
      { w with inFlowCount := w.inFlowCount + 1 }).1 with
  | error f => exact ⟨htrans _ _ _ (hcount w) hcompiled, nofun⟩
  | ok e =>
      obtain ⟨hregistered, hfound⟩ := hset w _ o r depth e s ho hs (Prod.ext hr rfl) hcompiled (hnames e hr)
      simp only [hs]
      refine ⟨hregistered, fun placed hplaced other hother => ?_⟩
      cases hplaced
      cases List.mem_singleton.1 hother
      exact .inr hfound

include hrefl htrans hleft hright hemit hcount hadd hbody hsource hset in
/-- A compilation in which names are made to hold something, one body after the other. -/
theorem founds_compileWithin (depth : Nat) {o : Draft} (ho : Q o) : Founds R F (compileWithin depth o) := by
  induction depth generalizing o with
  | zero => exact fun w => ⟨hrefl w, nofun⟩
  | succ depth ih =>
      change Founds R F (compileWith (compileWithin depth) o)
      intro w
      have hplace (r : Request) (known : List String) :=
        tells_placeRequest htrans hcount hbody hsource hset (fun _ => ih) ho known r
      obtain ⟨hconstruct, hnames⟩ := tells_construct hrefl htrans hleft hright hplace hemit [] w
      have hnew : Gives Executable.IsNew (construct (compileWithin depth) o) := gives_construct
      unfold compileWith
      rw [perform_bind, perform_tryCatch]
      cases hr : ((construct (compileWithin depth) o).perform w).1 with
      | error f =>
          refine ⟨htrans _ _ _ hconstruct ?_, nofun⟩
          exact relates_reportFailure hrefl hemit o.document f _
      | ok x =>
          have hadded := htrans _ _ _ (hadd ((construct (compileWithin depth) o).perform w).2 x (hnew w x hr))
            (hemit _ (.compiled o.document x.segments.length) rfl)
          refine ⟨htrans _ _ _ hconstruct hadded, fun e he name hname => ?_⟩
          cases he
          refine hleft _ _ _ name hconstruct hadded ((hnames x hr name ?_).resolve_left List.not_mem_nil)
          simpa [World.addExecutable, World.emit, World.executable] using hname

end founding

/-- What a compilation does is to register documents in its source and to add executables. -/
theorem relates_compile {R : World → World → Prop} {o : Draft} (hrefl : ∀ w, R w w)
    (htrans : ∀ w₁ w₂ w₃, R w₁ w₂ → R w₂ w₃ → R w₁ w₃)
    (hemit : ∀ (w : World) (e : Event), e.isAside = true → R w (w.emit e))
    (hcount : ∀ w : World, R w { w with inFlowCount := w.inFlowCount + 1 })
    (hset : ∀ (w : World) (s : SourceId) (name text : String) (e : ExecutableId), o.source = some s →
      R w (w.setDocument s name text "" (some e)).1)
    (hadd : ∀ (w : World) (x : Executable), x.IsNew → R w (w.addExecutable x).1) (w : World) : R w (w.compile o).1 := by
  rw [World.compile_eq_perform]
  exact relates_compileWithin hrefl htrans hemit hcount hset hadd _ rfl w

end Act

end ScriptedText
