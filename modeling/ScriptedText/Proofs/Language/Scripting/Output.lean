import ScriptedText.Language.Scripting.Adapter
import ScriptedText.Proofs.Engine.Leading
import ScriptedText.Proofs.Language.Scripting.Parsing
import ScriptedText.Proofs.OrderedMap

/-!
What programs come to that print sums of string literals: the texts are written, one after the other, where `print` is what
it is from the start.
-/

namespace ScriptedText.Scripting

/-! ### Sums -/

/-- The text that a sum of string literals denotes. -/
def Expr.text? : Expr → Option String
  | .literal (.text s) => some s
  | .add a b => do return (← a.text?) ++ (← b.text?)
  | _ => none

def Expr.depth : Expr → Nat
  | .add a b => max a.depth b.depth + 1
  | _ => 0

/-- What a list of sums prints. -/
def output (es : List Expr) : String := String.join (es.map fun e => e.text?.getD "")

variable {p q : Place} {cs : List Char} {es fs : List Expr} {e : Expr} {text : String} {fuel : Nat} {scope : Scope}

theorem output_append (es fs : List Expr) : output (es ++ fs) = output es ++ output fs := by
  simp [output]

theorem output_cons (h : e.text? = some text) (es : List Expr) : output (e :: es) = text ++ output es := by
  simp [output, h]

theorem IsSum.exists_text {operand : Bool} (h : IsSum operand cs e) : ∃ text, e.text? = some text := by
  induction h with
  | @literal _ text => exact ⟨text, rfl⟩
  | parentheses _ _ _ ih => exact ih
  | operand _ ih => exact ih
  | plus _ _ _ _ iha ihb =>
      obtain ⟨s, hs⟩ := iha
      obtain ⟨t, ht⟩ := ihb
      exact ⟨s ++ t, by simp [Expr.text?, hs, ht]⟩

theorem IsSum.depth_lt {operand : Bool} (h : IsSum operand cs e) : e.depth < cs.length := by
  induction h with
  | literal h =>
      obtain ⟨-, -⟩ := h
      exact Nat.succ_pos _
  | parentheses _ _ _ ih =>
      simp only [List.cons_append, List.length_cons, List.length_append]
      omega
  | operand _ ih => exact ih
  | plus _ _ _ _ iha ihb =>
      simp only [Expr.depth, List.length_append, List.length_cons]
      omega

theorem Call.exists_text (h : Call cs e) : ∃ text, e.text? = some text := by
  obtain ⟨-, -, hsum, -⟩ := h
  exact hsum.exists_text

theorem Call.depth_lt (h : Call cs e) : e.depth < cs.length := by
  obtain ⟨-, -, hsum, -⟩ := h
  have hlt := hsum.depth_lt
  simp only [List.length_append, List.length_cons]
  omega

theorem Prints.exists_text (h : Prints p cs es q) : ∀ e ∈ es, ∃ text, e.text? = some text := by
  induction h with
  | nil => nofun
  | inside _ _ ih | line _ _ ih | blank _ _ _ _ ih | semicolon _ _ ih | slashes _ _ ih => exact ih
  | call hcall _ ih => exact List.forall_mem_cons.2 ⟨hcall.exists_text, ih⟩

theorem Prints.depth_add_length_le (h : Prints p cs es q) : ∀ e ∈ es, e.depth + es.length ≤ cs.length := by
  induction h with
  | nil => nofun
  | inside _ _ ih | line _ _ ih | blank _ _ _ _ ih | semicolon _ _ ih => exact fun e he => Nat.le_succ_of_le (ih e he)
  | slashes _ _ ih => exact fun e he => Nat.le_succ_of_le (Nat.le_succ_of_le (ih e he))
  | @call q call cs e es hcall _ ih =>
      have hcall := hcall.depth_lt
      have hrest : es.length ≤ cs.length := by
        cases es with
        | nil => exact Nat.zero_le _
        | cons e' es => exact (Nat.le_add_left _ _).trans (ih e' (List.mem_cons_self ..))
      rw [List.length_cons, List.length_append]
      refine List.forall_mem_cons.2 ⟨by omega, fun e' he' => ?_⟩
      have hle := ih e' he'
      omega

theorem eval_sum (h : e.text? = some text) (hfuel : e.depth < fuel) : eval fuel scope e = pure (.text text) := by
  fun_induction Expr.text? e generalizing fuel text with
  | case1 s =>
      obtain ⟨fuel, rfl⟩ : ∃ n, fuel = n + 1 := ⟨fuel - 1, by omega⟩
      cases h
      simp only [eval]
      rfl
  | case2 a b iha ihb =>
      obtain ⟨fuel, rfl⟩ : ∃ n, fuel = n + 1 := ⟨fuel - 1, by omega⟩
      obtain ⟨s, hs, h⟩ := Option.bind_eq_some_iff.1 h
      obtain ⟨t, ht, h⟩ := Option.bind_eq_some_iff.1 h
      cases h
      simp only [Expr.depth] at hfuel
      have ha : eval fuel scope a = pure (.text s) := iha hs (by omega)
      have hb : eval fuel scope b = pure (.text t) := ihb ht (by omega)
      simp only [eval, ha, hb]
      rfl
  | case3 => cases h

/-! ### Printing -/

variable {sp : Speaker} {w w₁ w₂ : World} {d : Dialogue Unit}

/-- The text is written, and otherwise programs in the context find what they did, up to what the adapter keeps. -/
structure Wrote (sp : Speaker) (text : String) (w w₁ : World) : Prop where
  contexts : w₁.contexts.length = w.contexts.length
  out : (w₁.context sp.context).out = (w.context sp.context).out ++ text
  services : (w₁.context sp.context).services = (w.context sp.context).services
  bindings : (w₁.context sp.context).bindings = (w.context sp.context).bindings

theorem Wrote.refl (sp : Speaker) (w : World) : Wrote sp "" w w := ⟨rfl, by simp, rfl, rfl⟩

theorem Wrote.trans {s t : String} (h : Wrote sp s w w₁) (h' : Wrote sp t w₁ w₂) : Wrote sp (s ++ t) w w₂ where
  contexts := h'.contexts.trans h.contexts
  out := by rw [h'.out, h.out, String.append_assoc]
  services := h'.services.trans h.services
  bindings := h'.bindings.trans h.bindings

/-- The adapter has noted that `print` is what it is from the start. -/
def NotesPrint (sp : Speaker) (w : World) : Prop :=
  sp.context.index < w.contexts.length ∧
    ((w.context sp.context).notesOf sp.adapter).get? (.shared "print") = some (.standard "print")

theorem notesOf_putNote (c : Context) (a : AdapterId) (key : NoteKey) (n : Note) :
    (c.putNote a key n).notesOf a = (c.notesOf a).insert key n := by
  unfold Context.putNote
  rw [Context.notesOf, OrderedMap.get?_insert, if_pos rfl]
  rfl

theorem wrote_write (hc : sp.context.index < w.contexts.length) (text : String) :
    Wrote sp text w (w.modifyContext sp.context (·.write .out text)) := by
  have hcontext := World.context_modifyContext sp.context (·.write .out text) hc
  refine ⟨by simp [World.modifyContext], ?_, ?_, ?_⟩ <;> rw [hcontext] <;> rfl

theorem wrote_putNote (hc : sp.context.index < w.contexts.length) (key : NoteKey) (n : Note) :
    Wrote sp "" w (w.modifyContext sp.context (·.putNote sp.adapter key n)) := by
  have hcontext := World.context_modifyContext sp.context (·.putNote sp.adapter key n) hc
  refine ⟨by simp [World.modifyContext], ?_, ?_, ?_⟩ <;> rw [hcontext]
  · exact (String.append_empty).symm
  · rfl
  · rfl

theorem NotesPrint.write (h : NotesPrint sp w) (text : String) :
    NotesPrint sp (w.modifyContext sp.context (·.write .out text)) := by
  refine ⟨by simpa [World.modifyContext] using h.1, ?_⟩
  rw [World.context_modifyContext _ _ h.1]
  exact h.2

theorem notesPrint_putNote (hc : sp.context.index < w.contexts.length) {key : NoteKey} {n : Note}
    (h : ((w.context sp.context).notesOf sp.adapter).get? (.shared "print") = some (.standard "print") ∧
      key ≠ .shared "print" ∨ key = .shared "print" ∧ n = .standard "print") :
    NotesPrint sp (w.modifyContext sp.context (·.putNote sp.adapter key n)) := by
  refine ⟨by simpa [World.modifyContext] using hc, ?_⟩
  rw [World.context_modifyContext _ _ hc, notesOf_putNote, OrderedMap.get?_insert]
  rcases h with ⟨h, hne⟩ | ⟨rfl, rfl⟩
  · rw [if_neg hne.symm, h]
  · rw [if_pos rfl]

/-- Where `print` is noted, the dialogue writes the text and leaves it so. -/
def Writes (sp : Speaker) (d : Dialogue Unit) (text : String) : Prop :=
  ∀ w, NotesPrint sp w → ∃ w₁, d.LeadsTo sp w () w₁ ∧ Wrote sp text w w₁ ∧ NotesPrint sp w₁

theorem writes_pure : Writes sp (pure ()) "" := fun w h => ⟨w, Dialogue.leadsTo_pure sp w (), .refl sp w, h⟩

theorem Writes.bind {d' : Dialogue Unit} {s t : String} (h : Writes sp d s) (h' : Writes sp d' t) :
    Writes sp (d >>= fun _ => d') (s ++ t) := by
  intro w hw
  obtain ⟨w₁, hd, hs, hw₁⟩ := h w hw
  obtain ⟨w₂, hd', ht, hw₂⟩ := h' w₁ hw₁
  exact ⟨w₂, hd.bind hd', hs.trans ht, hw₂⟩

theorem writes_putNote {key : NoteKey} (hkey : key ≠ .shared "print") (n : Note) : Writes sp (Dialogue.putNote key n) "" :=
  fun _ h => ⟨_, Dialogue.leadsTo_putNote key n, wrote_putNote h.1 key n, notesPrint_putNote h.1 (.inl ⟨h.2, hkey⟩)⟩

theorem writes_declareServices {l : List (String × Service)} (h : ∀ s ∈ l, s.1 ≠ "print") :
    Writes sp (declareServices l) "" := by
  induction l with
  | nil => exact writes_pure
  | cons s l ih =>
      obtain ⟨hs, hl⟩ := List.forall_mem_cons.1 h
      exact (writes_putNote (by simpa [NoteKey.shared] using hs) .service).bind (ih hl)

theorem writes_declareVariables {l : List (String × Value)} (h : ∀ v ∈ l, v.1 ≠ "print") :
    Writes sp (declareVariables l) "" := by
  induction l with
  | nil => exact writes_pure
  | cons v l ih =>
      obtain ⟨hv, hl⟩ := List.forall_mem_cons.1 h
      exact (writes_putNote (by simpa [NoteKey.shared] using hv) (.value v.2)).bind (ih hl)

theorem leadsTo_publish (h : scope.program.routines = []) (names : List String) :
    (publish scope names).LeadsTo sp w () w := by
  induction names with
  | nil => exact Dialogue.leadsTo_pure sp w ()
  | cons name names ih =>
      have hnot : scope.declares name = false := by simp [Scope.declares, h]
      simp only [publish, hnot]
      exact ih

/-- The name `print` in the scope of a program without routines. -/
theorem leadsTo_find_print (hparams : scope.params = []) (hroutines : scope.program.routines = [])
    (hw : NotesPrint sp w) : (scope.find "print").LeadsTo sp w (.standard "print") w := by
  have hnoted : (noted? (.shared "print")).LeadsTo sp w (some (.standard "print")) w := by
    have hnote : (Dialogue.note? (.shared "print")).LeadsTo sp w _ w := Dialogue.leadsTo_note? (.shared "print")
    rw [hw.2] at hnote
    exact hnote.bind ((Dialogue.leadsTo_service? _).bind (Dialogue.leadsTo_pure sp w _))
  have hglobal : (global? "print").LeadsTo sp w (some (.standard "print")) w :=
    hnoted.bind (Dialogue.leadsTo_pure sp w _)
  have hnot : scope.declares "print" = false := by simp [Scope.declares, hroutines]
  unfold Scope.find
  rw [hparams, hnot]
  exact hglobal.bind (Dialogue.leadsTo_pure sp w _)

theorem leadsTo_eval_print (hparams : scope.params = []) (hroutines : scope.program.routines = []) (htext : e.text? = some text)
    (hfuel : e.depth + 2 < fuel) (hw : NotesPrint sp w) :
    (eval fuel scope (.call (.name "print") [e])).LeadsTo sp w .undefined
      (w.modifyContext sp.context (·.write .out text)) := by
  obtain ⟨fuel, rfl⟩ : ∃ n, fuel = n + 3 := ⟨fuel - 3, by omega⟩
  have hsum : eval (fuel + 1) scope e = pure (.text text) := eval_sum htext (by omega)
  have hargs : (evalAll (fuel + 2) scope [e]).LeadsTo sp w [.text text] w := by
    simp only [evalAll, hsum]
    exact Dialogue.leadsTo_pure sp w _
  have hcall : (callStandard "print" (Expr.name "print").spelling [.text text]).LeadsTo sp w .undefined
      (w.modifyContext sp.context (·.write .out text)) :=
    (Dialogue.leadsTo_pure sp w text).bind
      ((Dialogue.leadsTo_write text).bind (Dialogue.leadsTo_pure sp _ _))
  simp only [eval]
  exact (leadsTo_find_print hparams hroutines hw).bind (hargs.bind hcall)

theorem writes_evalBody (hparams : scope.params = []) (hroutines : scope.program.routines = [])
    (htexts : ∀ e ∈ es, ∃ text, e.text? = some text) (hfuel : ∀ e ∈ es, e.depth + es.length + 2 < fuel) (hpos : es.length < fuel) :
    Writes sp (evalBody fuel scope (es.map printing) >>= fun _ => pure ()) (output es) := by
  induction es generalizing fuel with
  | nil =>
      obtain ⟨fuel, rfl⟩ : ∃ n, fuel = n + 1 := ⟨fuel - 1, by omega⟩
      exact writes_pure
  | cons e es ih =>
      obtain ⟨fuel, rfl⟩ : ∃ n, fuel = n + 1 := ⟨fuel - 1, by omega⟩
      obtain ⟨⟨text, htext⟩, htexts⟩ := List.forall_mem_cons.1 htexts
      obtain ⟨he, hes⟩ := List.forall_mem_cons.1 hfuel
      rw [List.length_cons] at he hpos
      have hless (e' : Expr) (he' : e' ∈ es) : e'.depth + es.length + 2 < fuel := by
        have hlt := hes e' he'
        rw [List.length_cons] at hlt
        omega
      have hrest : Writes sp (evalBody fuel scope (es.map printing) >>= fun _ => pure ()) (output es) :=
        ih htexts hless (by omega)
      have hstep : evalBody (fuel + 1) scope ((e :: es).map printing) >>= (fun _ => pure ()) =
          eval fuel scope (.call (.name "print") [e]) >>= fun _ =>
            evalBody fuel scope (es.map printing) >>= fun _ => pure () := by
        simp only [List.map_cons, printing, evalBody]
        exact Dialogue.bind_assoc _ _ _
      rw [output_cons htext, hstep]
      intro w hw
      obtain ⟨w₁, hd, ht, hw₁⟩ := hrest _ (hw.write text)
      exact ⟨w₁, (leadsTo_eval_print hparams hroutines htext (by omega) hw).bind hd, (wrote_write hw.1 text).trans ht, hw₁⟩

/-! ### Programs -/

/-- In the context, `print` is what it is from the start: no service and no variable has that name, and programs before have
left it. -/
structure OwnPrint (sp : Speaker) (w : World) : Prop where
  context : sp.context.index < w.contexts.length
  services : (w.context sp.context).services.get? "print" = none
  bindings : (w.context sp.context).bindings.get? "print" = none
  notes : ((w.context sp.context).notesOf sp.adapter).entries = [] ∨ NotesPrint sp w

/-- What is the case for `print` in a world is so in another that looks the same in its context. -/
theorem OwnPrint.congr (h : OwnPrint sp w) (hlength : w₁.contexts.length = w.contexts.length)
    (hservices : (w₁.context sp.context).services.get? "print" = (w.context sp.context).services.get? "print")
    (hbindings : (w₁.context sp.context).bindings = (w.context sp.context).bindings)
    (hnotes : (w₁.context sp.context).notesOf sp.adapter = (w.context sp.context).notesOf sp.adapter) : OwnPrint sp w₁ where
  context := hlength ▸ h.context
  services := hservices.trans h.services
  bindings := hbindings ▸ h.bindings
  notes := by
    unfold NotesPrint
    rw [hnotes, hlength]
    exact h.notes

theorem leadsTo_openGlobals (h : OwnPrint sp w) : ∃ w₁, openGlobals.LeadsTo sp w () w₁ ∧ Wrote sp "" w w₁ ∧ NotesPrint sp w₁ := by
  have hfirst : (Dialogue.pose .notes).LeadsTo sp w ((w.context sp.context).notesOf sp.adapter).entries w :=
    Dialogue.leadsTo_notes
  cases hempty : ((w.context sp.context).notesOf sp.adapter).entries.isEmpty with
  | false =>
      have hnotes : NotesPrint sp w := h.notes.resolve_left (by simpa using hempty)
      refine ⟨w, ?_, .refl sp w, hnotes⟩
      unfold openGlobals
      refine hfirst.bind ?_
      rw [hempty]
      exact Dialogue.leadsTo_pure sp w ()
  | true =>
      have hnotes := notesPrint_putNote (w := w) h.context (.inr ⟨rfl, rfl⟩)
      have hline : NoteKey.shared "println" ≠ .shared "print" := by decide
      obtain ⟨w₂, hsecond, hwrote, hw₂⟩ := writes_putNote hline (.standard "println") _ hnotes
      refine ⟨w₂, ?_, (wrote_putNote h.context _ _).trans hwrote, hw₂⟩
      unfold openGlobals
      refine hfirst.bind ?_
      rw [hempty]
      exact (Dialogue.leadsTo_putNote _ _).bind hsecond

theorem entries_ne_of_get? {α : Type} {m : OrderedMap String α} {name : String} (h : m.get? name = none) :
    ∀ x ∈ m.entries, x.1 ≠ name := by
  rintro x hx rfl
  exact OrderedMap.not_mem_keys_of_get? h (List.mem_map_of_mem hx)

/-- A program that prints writes its text, and leaves `print` as it was. -/
theorem leadsTo_run {source : String} (hprints : Prints .ready source.toList es q)
    (hpublished : (publishedNames source).all isPublishable = true) (exposed : String) (h : OwnPrint sp w) :
    ∃ w₁, (run source exposed).LeadsTo sp w () w₁ ∧ Wrote sp (output es) w w₁ ∧ NotesPrint sp w₁ := by
  have hprogram := hprints.program?
  rw [String.ofList_toList] at hprogram
  have hcompile : compile source = .ok ⟨[], es.map printing⟩ := by
    simp [compile, hprogram, hpublished]
  obtain ⟨w₁, hopen, hwrote, hw₁⟩ := leadsTo_openGlobals h
  have hservices : ∀ s ∈ (w₁.context sp.context).services.entries, s.1 ≠ "print" := by
    rw [hwrote.services]
    exact entries_ne_of_get? h.services
  obtain ⟨w₂, hservices, hwrote₂, hw₂⟩ := writes_declareServices hservices w₁ hw₁
  have hbindings : ∀ v ∈ (w₂.context sp.context).bindings.entries, v.1 ≠ "print" := by
    rw [hwrote₂.bindings, hwrote.bindings]
    exact entries_ne_of_get? h.bindings
  obtain ⟨w₃, hvariables, hwrote₃, hw₃⟩ := writes_declareVariables hbindings w₂ hw₂
  obtain ⟨n, hscope⟩ : ∃ n, freshScope.LeadsTo sp w₃ n w₃ :=
    ⟨_, Dialogue.leadsTo_notes.bind (Dialogue.leadsTo_pure sp w₃ _)⟩
  have hfuel : ∀ e ∈ es, e.depth + es.length + 2 < depthLimit + source.length := by
    intro e he
    have hle := hprints.depth_add_length_le e he
    rw [String.length_toList] at hle
    simp only [depthLimit]
    omega
  have hpos : es.length < depthLimit + source.length := by
    cases es with
    | nil => exact Nat.lt_of_lt_of_le (by decide : 0 < depthLimit) (Nat.le_add_right _ _)
    | cons e es =>
        have hlt := hfuel e (List.mem_cons_self ..)
        omega
  let scope := Scope.ofProgram source ⟨[], es.map printing⟩ n
  have hbody : Writes sp (evalBody (depthLimit + source.length) scope (es.map printing) >>= fun _ => pure ()) (output es) :=
    writes_evalBody rfl rfl hprints.exists_text hfuel hpos
  obtain ⟨w₄, hbody, hwrote₄, hw₄⟩ := hbody w₃ hw₃
  refine ⟨w₄, ?_, ?_, hw₄⟩
  · unfold run
    rw [hcompile]
    refine (Dialogue.leadsTo_pure sp w _).bind (hopen.bind (Dialogue.leadsTo_services.bind (hservices.bind
      (Dialogue.leadsTo_bindings.bind (hvariables.bind (hscope.bind ?_))))))
    exact (Dialogue.leadsTo_pure sp w₃ ()).bind ((leadsTo_publish rfl _).bind hbody)
  · simpa using hwrote.trans (hwrote₂.trans (hwrote₃.trans hwrote₄))

end ScriptedText.Scripting
