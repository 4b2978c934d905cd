import ScriptedText.Proofs.Engine.Reentry
import ScriptedText.Proofs.Files.Path
import ScriptedText.Proofs.Language.Mustache.Reading

/-!
What a template that is put together does. It writes its texts as they are and includes its documents at their places, as
long as no text holds the mark that the places of documents have in rendered text.
-/

namespace ScriptedText.Mustache

/-! ### Deeds -/

/-- What a program does: it writes a text, or includes a document. -/
inductive Deed
  | write (text : String)
  | inclusion (document : String)
  deriving DecidableEq, Repr

def perform (exposed : String) : List Deed → Dialogue Unit
  | [] => pure ()
  | .write text :: rest => do
    Dialogue.write text
    perform exposed rest
  | .inclusion document :: rest => do
    includeDocument exposed document
    perform exposed rest

/-- The text in front of the first document, and each document with the text behind it. -/
structure Outline where
  front : List Char
  inclusions : List (String × List Char)
  deriving DecidableEq, Repr

/-- Deeds up to where one text ends and the next begins. -/
def outline : List Deed → Outline
  | [] => ⟨[], []⟩
  | .write text :: rest => ⟨text.toList ++ (outline rest).front, (outline rest).inclusions⟩
  | .inclusion document :: rest => ⟨[], (document, (outline rest).front) :: (outline rest).inclusions⟩

/-- The deeds of an outline, each text at once. -/
def Outline.deeds (o : Outline) : List Deed :=
  .write (String.ofList o.front) :: o.inclusions.flatMap fun (document, text) =>
    [.inclusion document, .write (String.ofList text)]

section saying

variable {id : TaskId} {w w' : World} {sp : Speaker} {o : Outcome} {exposed : String} {d : Dialogue Unit}

/-- Dialogues that come to the same, whoever leads them and wherever. -/
def SpeaksAlike (d₁ d₂ : Dialogue Unit) : Prop := ∀ id w sp w' o, d₁.Says id w sp w' o ↔ d₂.Says id w sp w' o

variable {d₁ d₂ d₃ : Dialogue Unit}

theorem SpeaksAlike.trans (h : SpeaksAlike d₁ d₂) (h' : SpeaksAlike d₂ d₃) : SpeaksAlike d₁ d₃ :=
  fun id w sp w' o => (h id w sp w' o).trans (h' id w sp w' o)

theorem SpeaksAlike.symm (h : SpeaksAlike d₁ d₂) : SpeaksAlike d₂ d₁ := fun id w sp w' o => (h id w sp w' o).symm

theorem SpeaksAlike.bind (d : Dialogue Unit) (h : SpeaksAlike d₁ d₂) :
    SpeaksAlike (d.bind fun _ => d₁) (d.bind fun _ => d₂) := by
  intro id w sp w' o
  simp only [Dialogue.says_bind, h id]

theorem says_write_bind {text : String} :
    ((Dialogue.write text).bind fun _ => d).Says id w sp w' o ↔
      d.Says id (w.modifyContext sp.context (·.write .out text)) sp w' o := by
  rw [Dialogue.says_bind]
  simp [Dialogue.says_write]

theorem write_append (s t : String) (d : Dialogue Unit) :
    SpeaksAlike ((Dialogue.write (s ++ t)).bind fun _ => d)
      ((Dialogue.write s).bind fun _ => (Dialogue.write t).bind fun _ => d) := by
  intro id w sp w' o
  simp only [says_write_bind, World.modifyContext_modifyContext]
  simp [Context.write, Function.comp_def, String.append_assoc]

theorem write_empty (d : Dialogue Unit) : SpeaksAlike ((Dialogue.write "").bind fun _ => d) d := by
  intro id w sp w' o
  rw [says_write_bind, World.modifyContext_eq_self (by simp [Context.write])]

/-- By induction on the deeds; what is written first joins the text that the rest starts with. -/
theorem perform_outline (exposed : String) (ds : List Deed) :
    SpeaksAlike (perform exposed ds) (perform exposed (outline ds).deeds) := by
  induction ds with
  | nil => exact (write_empty (perform exposed [])).symm
  | cons x ds ih =>
      cases x with
      | write text =>
          have hjoined : String.ofList (text.toList ++ (outline ds).front) = text ++ String.ofList (outline ds).front := by
            simp
          have hwritten := write_append text (String.ofList (outline ds).front)
            (perform exposed ((outline ds).inclusions.flatMap fun (document, text) =>
              [.inclusion document, .write (String.ofList text)]))
          rw [← hjoined] at hwritten
          exact (ih.bind (Dialogue.write text)).trans hwritten.symm
      | inclusion document =>
          exact (ih.bind (includeDocument exposed document)).trans (write_empty _).symm

/-- Where one text ends and the next begins makes no difference. -/
theorem perform_of_outline_eq {ds ds' : List Deed} (h : outline ds = outline ds') (exposed : String) :
    SpeaksAlike (perform exposed ds) (perform exposed ds') :=
  (perform_outline exposed ds).trans (h ▸ (perform_outline exposed ds').symm)

end saying

/-! ### Rendered text -/

/-- The deeds that rendered text stands for, cut at the marks: text and slots in turn. -/
def deedsOf (slots : List String) : Bool → List (List Char) → List Deed
  | _, [] => []
  | false, cs :: rest => if cs.isEmpty then deedsOf slots true rest else .write (String.ofList cs) :: deedsOf slots true rest
  | true, cs :: rest => .inclusion (slotDocument slots cs) :: deedsOf slots false rest

theorem emit_eq_perform (exposed : String) (slots : List String) (isSlot : Bool) (parts : List (List Char)) :
    emit exposed slots isSlot parts = perform exposed (deedsOf slots isSlot parts) := by
  induction parts generalizing isSlot with
  | nil => cases isSlot <;> rfl
  | cons cs parts ih =>
      cases isSlot with
      | true => simp [emit, deedsOf, perform, ih]
      | false =>
          cases hcs : cs.isEmpty with
          | true => simp [emit, deedsOf, hcs, ih]
          | false => simp [emit, deedsOf, hcs, perform, ih]

/-- The slot of the document with a number. -/
def slot (k : Nat) : List Char := slotMark :: (toString k).toList ++ [slotMark]

/-- Documents from a number on, as slots with the texts behind them. -/
def slotted : Nat → List (String × List Char) → List Char
  | _, [] => []
  | k, (_, text) :: rest => slot k ++ text ++ slotted (k + 1) rest

/-- Rendered text behind its front, cut at the marks: numbers and texts in turn. -/
def cuts : Nat → List (String × List Char) → List (List Char)
  | _, [] => []
  | k, (_, text) :: rest => (toString k).toList :: text :: cuts (k + 1) rest

/-- The text that an outline is rendered as. -/
def Outline.rendered (o : Outline) : List Char := o.front ++ slotted 0 o.inclusions

def Outline.documents (o : Outline) : List String := o.inclusions.map Prod.fst

/-- No text holds the mark of slots. -/
def Outline.IsFree (o : Outline) : Prop := slotMark ∉ o.front ∧ ∀ i ∈ o.inclusions, slotMark ∉ i.2

variable {o : Outline} {inclusions : List (String × List Char)} {slots : List String} {k : Nat}

theorem slotNumber?_toString (h : k < 2 ^ 53) : slotNumber? (toString k).toList = some k := by
  have hint := Number.int?_ofChars_digitsOf h
  change (Number.ofChars (toString k).toList).int? = some (k : Int) at hint
  rw [slotNumber?, hint]
  rfl

theorem slotMark_not_mem_digits (k : Nat) : slotMark ∉ (toString k).toList := by
  intro h
  exact absurd (isDigit_of_mem_digitsOf (n := k) h) (by decide)

theorem splitAt_slotted (hfree : ∀ i ∈ inclusions, slotMark ∉ i.2) {front : List Char} (hfront : slotMark ∉ front) (k : Nat) :
    Text.splitAt slotMark (front ++ slotted k inclusions) = front :: cuts k inclusions := by
  induction inclusions generalizing front k with
  | nil => simp [slotted, cuts, Text.splitAt_of_not_mem hfront]
  | cons i inclusions ih =>
      obtain ⟨hi, hrest⟩ := List.forall_mem_cons.1 hfree
      have hdigits := slotMark_not_mem_digits k
      have hsplit := ih hrest hi (k + 1)
      simp only [slotted, slot, List.cons_append, List.append_assoc, List.nil_append]
      rw [Text.splitAt_append_cons hfront, Text.splitAt_append_cons hdigits, hsplit]
      rfl

theorem outline_deedsOf_text (slots : List String) (front : List Char) (parts : List (List Char)) :
    outline (deedsOf slots false (front :: parts)) =
      ⟨front ++ (outline (deedsOf slots true parts)).front, (outline (deedsOf slots true parts)).inclusions⟩ := by
  cases front <;> simp [deedsOf, outline]

theorem outline_deedsOf_slotted {front : List Char} {k : Nat}
    (hslots : ∀ p ∈ inclusions.zipIdx k, slotDocument slots (toString p.2).toList = p.1.1) :
    outline (deedsOf slots false (front :: cuts k inclusions)) = ⟨front, inclusions⟩ := by
  induction inclusions generalizing front k with
  | nil => cases front <;> simp [cuts, deedsOf, outline]
  | cons i inclusions ih =>
      rw [List.zipIdx_cons] at hslots
      obtain ⟨hi, hrest⟩ := List.forall_mem_cons.1 hslots
      have hbehind := @ih i.2 (k + 1) hrest
      rw [outline_deedsOf_text, cuts, deedsOf, outline, hbehind, hi, List.append_nil]

theorem length_splitAt (c : Char) (cs : List Char) : (Text.splitAt c cs).length = cs.count c + 1 := by
  induction cs with
  | nil => rfl
  | cons x cs ih =>
      obtain ⟨part, parts, hparts⟩ := Text.exists_splitAt_eq_cons c cs
      by_cases hx : x = c
      · subst hx
        simp [Text.splitAt_cons_self, ih]
      · rw [Text.splitAt_cons_of_ne hx hparts, List.count_cons_of_ne hx, ← ih, hparts]
        rfl

theorem count_slotted (inclusions : List (String × List Char)) (k : Nat) :
    (slotted k inclusions).count slotMark = 2 * inclusions.length + (inclusions.flatMap Prod.snd).count slotMark := by
  induction inclusions generalizing k with
  | nil => rfl
  | cons i inclusions ih =>
      have hdigits : (toString k).toList.count slotMark = 0 := List.count_eq_zero.2 (slotMark_not_mem_digits k)
      simp only [slotted, slot, List.count_append, List.count_cons_self, hdigits, List.count_nil, ih, List.length_cons,
        List.flatMap_cons, List.cons_append, Nat.zero_add]
      omega

/-- Every second part is a slot. -/
theorem length_inclusions_deedsOf (slots : List String) (isSlot : Bool) (parts : List (List Char)) :
    (outline (deedsOf slots isSlot parts)).inclusions.length = (parts.length + if isSlot then 1 else 0) / 2 := by
  induction parts generalizing isSlot with
  | nil => cases isSlot <;> rfl
  | cons cs parts ih =>
      cases isSlot with
      | true =>
          simp [deedsOf, outline, ih]
          omega
      | false =>
          cases hcs : cs.isEmpty <;> simp [deedsOf, outline, hcs, ih]

/-- Rendered text stands for the deeds that it was rendered from, if and only if no text holds the mark of slots: else there
are more slots than documents. -/
theorem outline_rendered_iff (hcount : o.inclusions.length ≤ 2 ^ 53) :
    outline (deedsOf o.documents false (Text.splitAt slotMark o.rendered)) = o ↔ o.IsFree := by
  constructor
  · intro h
    have hlength := congrArg (fun o => o.inclusions.length) h
    simp only [length_inclusions_deedsOf, length_splitAt, Outline.rendered, List.count_append, count_slotted] at hlength
    simp only [Bool.false_eq_true, if_false] at hlength
    have hfront : o.front.count slotMark = 0 := by omega
    have hrest : (o.inclusions.flatMap Prod.snd).count slotMark = 0 := by omega
    refine ⟨List.count_eq_zero.1 hfront, fun i hi hmem => List.count_eq_zero.1 hrest ?_⟩
    exact List.mem_flatMap.2 ⟨i, hi, hmem⟩
  · rintro ⟨hfront, hfree⟩
    rw [Outline.rendered, splitAt_slotted hfree hfront, outline_deedsOf_slotted]
    rintro ⟨i, n⟩ hmem
    have hi : o.inclusions[n]? = some i := List.mem_zipIdx_iff_getElem?.1 hmem
    have hlt := (List.getElem?_eq_some_iff.1 hi).1
    have hdocument : o.documents[n]? = some i.1 := by simp [Outline.documents, hi]
    dsimp only
    rw [slotDocument, slotNumber?_toString (by omega), Option.bind_some, hdocument]
    rfl

/-! ### Elements -/

/-- The names that mean a helper wherever a value is written. -/
def helperNames : List String :=
  ["if", "unless", "with", "each", "lookup", "log", "helperMissing", "blockHelperMissing", includeHelper, literalHelper]

namespace Term

def name : Term → String
  | spelled s => String.ofList s.name
  | quoted q => String.ofList q.text

def IsDirect : Term → Prop
  | spelled s => s.reach = .direct
  | quoted _ => True

/-- Where a value is written, the term means a variable. No variable is found under the name of what all have. -/
def MeansVariable (t : Term) : Prop := t.name ≠ "__proto__" ∧ (t.IsDirect → t.name ∉ helperNames)

/-- The document that the term means as an argument: what is quoted, or what the variable holds. -/
def document (value : String → String) : Term → String
  | spelled s => value (String.ofList s.name)
  | quoted q => String.ofList q.text

end Term

namespace Element

/-- The name of the variable that the element reads. -/
def reads? : Element → Option String
  | literal _ => none
  | value e => some e.term.name
  | inclusion e => match e.term with
    | .spelled s => some (String.ofList s.name)
    | .quoted _ => none

def IsSound : Element → Prop
  | literal _ => True
  | value e => e.term.MeansVariable
  | inclusion e => match e.term with
    | .spelled s => String.ofList s.name ≠ "__proto__"
    | .quoted _ => True

/-- What the element asks for, where the variables have the given texts. -/
def deed (value : String → String) : Element → Deed
  | literal text => .write text
  | .value e => .write (value e.term.name)
  | inclusion e => .inclusion (e.term.document value)

end Element

variable {v : View} {value : String → String}

theorem helper?_eq_none {name : String} (h : name ∉ helperNames) (arguments : List Service) :
    (standardHelper? name arguments <|> documentHelper? name arguments) = none := by
  have hstandard : standardHelper? name arguments = none := by
    unfold standardHelper?
    split <;> first | rfl | exact absurd (by decide) h
  have hdocument : documentHelper? name arguments = none := by
    have hinclude : name ≠ includeHelper := fun heq => h (by simp [helperNames, heq])
    have hliteral : name ≠ literalHelper := fun heq => h (by simp [helperNames, heq])
    simp [documentHelper?, hinclude, hliteral]
  rw [hstandard, hdocument]
  rfl

theorem View.find_eq {name text : String} (hname : name ≠ "__proto__") (h : v.bindings.lookup name = some (.text text)) :
    v.find name = .value (.text text) := by
  simp [View.find, hname, h]

theorem follow_path {s : Spelling} {text : String} (hname : String.ofList s.name ≠ "__proto__")
    (h : v.bindings.lookup (String.ofList s.name) = some (.text text)) : v.follow s.path = .value (.text text) := by
  simp [View.follow, Spelling.path, View.find_eq hname h]

theorem yield_literal (text : String) : yield v (Element.literal text).insertion = .ok (.verbatim text.toList) := by
  have hback : Text.decode64 (String.ofList (Element.encoding text).text) = text := Text.decode64_encode64 text
  have hhelper : helperName? (.path (wordPath literalHelper)) = some literalHelper := rfl
  have hvalue (x : Value) : v.value (.literal x) = .value x := rfl
  have hne : literalHelper ≠ includeHelper := by decide
  have hstandard (arguments : List Service) : standardHelper? literalHelper arguments = none := rfl
  simp [yield, Element.insertion, hhelper, hvalue, hstandard, documentHelper?, hne, Service.display, Value.display, Value.text?,
    hback]

theorem headValue_term {t : Term} {text : String} (hname : t.name ≠ "__proto__")
    (h : v.bindings.lookup t.name = some (.text text)) : headValue v t.operand = .value (.text text) := by
  cases t with
  | spelled s => exact follow_path hname h
  | quoted q => exact View.find_eq hname h

theorem helperName?_term {t : Term} {name : String} (h : helperName? t.operand = some name) : t.IsDirect ∧ t.name = name := by
  cases t with
  | quoted q =>
      cases h
      exact ⟨trivial, rfl⟩
  | spelled s =>
      simp only [helperName?, Term.operand, Spelling.path] at h
      split at h
      · cases h
      · next hreach =>
          cases h
          have hdirect : s.reach = .direct := by simpa using hreach
          exact ⟨hdirect, rfl⟩

theorem yield_value {e : Expression} {text : String} (hmeans : e.term.MeansVariable)
    (h : v.bindings.lookup e.term.name = some (.text text)) :
    yield v (Element.value e).insertion = .ok (.value (.value (.text text))) := by
  have hnone : ((helperName? e.term.operand).bind fun name =>
      standardHelper? name [] <|> documentHelper? name []) = none := by
    cases hhelper : helperName? e.term.operand with
    | none => rfl
    | some name =>
        obtain ⟨hdirect, rfl⟩ := helperName?_term hhelper
        exact helper?_eq_none (hmeans.2 hdirect) []
  unfold yield
  dsimp only [Element.insertion]
  rw [List.map_nil, hnone]
  dsimp only
  rw [headValue_term hmeans.1 h]
  rfl

theorem yield_inclusion {e : Expression} (hsound : (Element.inclusion e).IsSound)
    (h : ∀ name ∈ (Element.inclusion e).reads?, v.bindings.lookup name = some (.text (value name))) :
    yield v (Element.inclusion e).insertion = .ok (.inclusion (e.term.document value)) := by
  have hhelper : helperName? (.path (wordPath includeHelper)) = some includeHelper := rfl
  have hvalue : v.value e.term.operand = .value (.text (e.term.document value)) := by
    unfold Element.IsSound at hsound
    unfold Element.reads? at h
    cases hterm : e.term with
    | quoted q => rfl
    | spelled s =>
        simp only [hterm] at hsound h
        exact follow_path hsound (h _ rfl)
  have hstandard (arguments : List Service) : standardHelper? includeHelper arguments = none := rfl
  simp [yield, Element.insertion, hhelper, hvalue, hstandard, documentHelper?, Service.display, Value.display, Value.text?]

/-! ### Programs -/

/-- What deeds are rendered as, where the documents count from a number. -/
def pieces : Nat → List Deed → List Piece
  | _, [] => []
  | k, .write text :: rest => .text text.toList :: pieces k rest
  | k, .inclusion _ :: rest => .text (slot k) :: pieces (k + 1) rest

theorem chars_pieces (k : Nat) (ds : List Deed) :
    (pieces k ds).flatMap Piece.chars = (outline ds).front ++ slotted k (outline ds).inclusions := by
  induction ds generalizing k with
  | nil => rfl
  | cons d ds ih => cases d <;> simp [pieces, outline, slotted, Piece.chars, ih]

theorem join_pieces (ds : List Deed) : join (pieces 0 ds) = (outline ds).rendered := by
  have hjoin : join (pieces 0 ds) = (pieces 0 ds).flatMap Piece.chars := by
    unfold join
    split
    · next h => cases ds with
      | nil => cases h
      | cons d ds => cases d <;> cases h
    · rfl
  rw [hjoin, chars_pieces]
  rfl

theorem isFree_outline_iff (ds : List Deed) :
    (outline ds).IsFree ↔ ∀ text, .write text ∈ ds → slotMark ∉ text.toList := by
  induction ds with
  | nil => simp [outline, Outline.IsFree]
  | cons d ds ih =>
      cases d with
      | write text =>
          have hcons : (outline (.write text :: ds)).IsFree ↔ slotMark ∉ text.toList ∧ (outline ds).IsFree := by
            simp [outline, Outline.IsFree, and_assoc]
          simp [hcons, ih]
      | inclusion document =>
          have hcons : (outline (.inclusion document :: ds)).IsFree ↔ (outline ds).IsFree := by
            simp [outline, Outline.IsFree]
          simp [hcons, ih]

variable {xs : List Element}

/-- The variables that elements read have texts. -/
def Exposes (xs : List Element) (value : String → String) (lookup : String → Option Value) : Prop :=
  ∀ x ∈ xs, ∀ name ∈ x.reads?, lookup name = some (.text (value name))

theorem renderParts_elements (hsound : ∀ x ∈ xs, x.IsSound) (hexposes : Exposes xs value (v.bindings.lookup ·))
    (slots : List String) :
    renderParts v (xs.map fun x => .insertion x.insertion) slots =
      .ok (pieces slots.length (xs.map (Element.deed value)), slots ++ (outline (xs.map (Element.deed value))).documents) := by
  induction xs generalizing slots with
  | nil => simp [renderParts, pieces, outline, Outline.documents]
  | cons x xs ih =>
      obtain ⟨hx, hsound⟩ := List.forall_mem_cons.1 hsound
      obtain ⟨hreads, hexposes⟩ := List.forall_mem_cons.1 hexposes
      have hrest := ih hsound hexposes
      cases x with
      | literal text =>
          simp only [List.map_cons, renderParts, yield_literal, hrest]
          rfl
      | value e =>
          have hvalue : v.bindings.lookup e.term.name = some (.text (value e.term.name)) := hreads _ rfl
          simp only [List.map_cons, renderParts, yield_value hx hvalue, hrest]
          rfl
      | inclusion e =>
          simp only [List.map_cons, renderParts, yield_inclusion hx hreads, hrest]
          simp [pieces, slot, outline, Outline.documents, Element.deed]
          rfl

/-- What a program goes on with that is put together and has been told its services and variables. -/
def body (exposed : String) (xs : List Element) (services : List (String × Service)) (bindings : List (String × Value)) :
    Dialogue Unit := do
  let (out, slots) ← Dialogue.ofExcept (render ⟨services, bindings⟩ (xs.map fun x => .insertion x.insertion))
  emit exposed slots false (Text.splitAt slotMark out)

theorem run_elements (exposed : String) (xs : List Element) :
    run (String.join (xs.map Element.source)) exposed =
      .ask .services fun services => .ask .bindings fun bindings => body exposed xs services bindings := by
  unfold run compile
  rw [template?_elements]
  rfl

theorem body_eq_perform (hsound : ∀ x ∈ xs, x.IsSound) {services : List (String × Service)} {bindings : List (String × Value)}
    (hexposes : Exposes xs value (bindings.lookup ·)) (exposed : String) :
    body exposed xs services bindings =
      perform exposed (deedsOf (outline (xs.map (Element.deed value))).documents false
        (Text.splitAt slotMark (outline (xs.map (Element.deed value))).rendered)) := by
  have hrender := renderParts_elements (v := ⟨services, bindings⟩) hsound hexposes []
  unfold body render
  rw [hrender, ← emit_eq_perform, ← join_pieces]
  rfl

theorem says_told {id : TaskId} {w w' : World} {sp : Speaker} {o : Outcome}
    (k : List (String × Service) → List (String × Value) → Dialogue Unit) :
    (Dialogue.ask .services fun services => .ask .bindings fun bindings => k services bindings).Says id w sp w' o ↔
      (k (w.context sp.context).services.entries (w.context sp.context).bindings.entries).Says id w sp w' o := by
  unfold Dialogue.Says
  rw [Dialogue.ends_converse]
  change (Dialogue.ask .bindings fun bindings => (k _ bindings).bind fun _ => .done Reply.nothing).Ends id w sp w' o ↔ _
  rw [Dialogue.ends_converse]
  rfl

/-- Whether the element is a document that is included. -/
def Element.isInclusion : Element → Bool
  | .inclusion _ => true
  | _ => false

theorem length_inclusions_outline (value : String → String) (xs : List Element) :
    (outline (xs.map (Element.deed value))).inclusions.length = xs.countP Element.isInclusion := by
  induction xs with
  | nil => rfl
  | cons x xs ih => cases x <;> simp [outline, Element.deed, Element.isInclusion, List.countP_cons, ih]

/-- A text with braces, the value of a variable, and a document. -/
def bracedElements : List Element :=
  [.literal "a\x7b\x7bx\x7d\x7d",
    .value ⟨[' '], .spelled ⟨.direct, false, ['x'], nofun, fun _ => ⟨by decide, forall_mem_of_all (by decide), by decide, by decide⟩⟩, [' '],
      forall_mem_of_all (by decide)⟩,
    .inclusion ⟨[' '], .quoted ⟨'\'', ['d'], .inr rfl, by decide⟩, [' '], forall_mem_of_all (by decide)⟩]

/-- The variable holds braces too, and a document is included under its own name. -/
def bracedWorld : World :=
  { tree := { origin := "" }, registry := .ofAdapters []
    contexts := [{ bindings := OrderedMap.empty.insert "x" (.text "\x7b\x7by\x7d\x7d")
                   services := OrderedMap.empty.insert "executable" (.handle ⟨⟨0⟩, ⟨0⟩, some .bare⟩) }] }

end ScriptedText.Mustache
