import ScriptedText.Document.Scan
import ScriptedText.Document.Scriptlet
import ScriptedText.Document.Segment

/-!
The reading of a document: its pieces in the languages that are active where they stand. Bodies in another
language are handed out as documents of their own; `length_lt_of_mem_requests` says that those are shorter.
-/

namespace ScriptedText

/-- A scriptlet body to be made a document of its own: its text between the same delimiters, its language, its
place, and the language that the including document goes on in. -/
structure Request where
  source : List Char
  tag : String
  place : Place
  active : String
  deriving DecidableEq, Repr

/-- A document in parts: segments, and bodies that become documents. -/
inductive Part
  | segment (s : RawSegment)
  | request (r : Request)
  deriving DecidableEq, Repr

namespace Part

def segmentAt (kind : SegmentKind) (tag : String) (p : Place) (text : List Char) : Part :=
  .segment ⟨kind, tag, p.line, p.column, String.ofList text⟩

def request? : Part → Option Request
  | .segment _ => none
  | .request r => some r

end Part

namespace Request

/-- What stands in the including document for a body that was made the document `name`. -/
def inclusion (r : Request) (name : String) : RawSegment :=
  ⟨.inclusion, r.active, r.place.line, r.place.column, "'" ++ name ++ "'"⟩

/-- A body that is written again with its tag right after the opening delimiter. -/
def rewrap (d : Delimiters) (tag code : List Char) : List Char :=
  d.opening.toList ++ tag ++ [' '] ++ Text.trim code ++ d.closing.toList

end Request

def Marker.kind : Marker → SegmentKind
  | .expression => .expression
  | .inclusion => .inclusion
  | _ => .plain

/-- The tag of a scriptlet as a name. -/
def Scriptlet.tagName (s : Scriptlet) : Option String := s.tag.map String.ofList

/-- The language after a scriptlet. An in-flow one changes nothing. -/
def Scriptlet.activeAfter (s : Scriptlet) (active : String) : String :=
  if s.marker = .inFlow then active else s.tagName.getD active

/-- The parts that one scriptlet makes. With `extract`, in-flow code in another language is handed out; otherwise
it is a program at its place. Blank code makes no part. -/
def Scriptlet.parts (d : Delimiters) (extract : Bool) (active : String) (p : Place) (s : Scriptlet) : List Part :=
  if s.isBlank then []
  else if s.marker = .inFlow then
    match s.tag with
    | some tag =>
      if extract ∧ String.ofList tag ≠ active then
        [.request ⟨Request.rewrap d tag s.code, String.ofList tag, p, active⟩]
      else [.segmentAt .plain (String.ofList tag) p s.code]
    | none => [.segmentAt .plain active p s.code]
  else [.segmentAt s.marker.kind (s.activeAfter active) p s.code]

def readPieces (d : Delimiters) (extract : Bool) : String → List Piece → List Part
  | _, [] => []
  | active, .literal p text :: rest => .segmentAt .literal active p text :: readPieces d extract active rest
  | active, .scriptlet p body :: rest =>
    let s := Scriptlet.ofBody body
    s.parts d extract active p ++ readPieces d extract (s.activeAfter active) rest

/-- A document as it was read. -/
structure Reading where
  delimiters : Option Delimiters
  parts : List Part
  ending : ScanEnd
  deriving DecidableEq, Repr

namespace Reading

/-- Reads a document that starts in the language `tag`. One in which no opening delimiter occurs is all literal. -/
def ofDocument (styles : List Delimiters) (tag : String) (extract : Bool) (source : List Char) : Reading :=
  match Delimiters.detect styles source with
  | none => ⟨none, readPieces .percent extract tag (Piece.literals {} source), .complete⟩
  | some d =>
    let (pieces, ending) := scan d source
    ⟨some d, readPieces d extract tag pieces, ending⟩

def requests (r : Reading) : List Request := r.parts.filterMap Part.request?

/-- The fault of a document in which a scriptlet is not closed. -/
def failure? (r : Reading) (document : String) : Option Failure :=
  match r.ending with
  | .complete => none
  | .unclosed p =>
    let closing := (r.delimiters.getD .percent).closing
    some ((Problem.unclosedScriptlet closing).failure [⟨document, p.line, p.column⟩])
  | .endless => some .endless

end Reading

/-- Parts as segments. The bodies that are handed out count from `k`, and `name` gives each its name. -/
def placeParts (name : Nat → Request → String) : Nat → List Part → List RawSegment
  | _, [] => []
  | k, .segment s :: rest => s :: placeParts name k rest
  | k, .request r :: rest => r.inclusion (name k r) :: placeParts name (k + 1) rest

/-- A document as segments, with the style that it uses. Where `inFlow` is given, bodies in another language are
handed out to it and it names them. -/
def segmentDocument (styles : List Delimiters) (document tag : String) (inFlow : Option (Nat → Request → String))
    (source : List Char) : Except Failure (List RawSegment × Option Delimiters) :=
  let reading := Reading.ofDocument styles tag inFlow.isSome source
  match reading.failure? document with
  | some f => .error f
  | none => .ok (placeParts (inFlow.getD fun _ _ => "") 0 reading.parts, reading.delimiters)

/-! The bodies that are handed out are shorter than the document. -/

theorem Scriptlet.length_tagOf {cs tag code : List Char} (h : Scriptlet.tagOf cs = (some tag, code)) :
    tag.length + 1 + code.length = cs.length := by
  have hcs := List.takeWhile_append_dropWhile (p := fun c => !Text.isBlank c) (l := cs)
  unfold Scriptlet.tagOf at h
  split at h
  · cases h
  · next hd =>
    split at h
    · cases h
    · cases h
      rw [hd] at hcs
      have := congrArg List.length hcs
      simp only [List.length_append, List.length_cons] at this
      omega

theorem Scriptlet.length_ofBody {body tag : List Char} (hm : (Scriptlet.ofBody body).marker = .inFlow)
    (ht : (Scriptlet.ofBody body).tag = some tag) :
    tag.length + 1 + (Scriptlet.ofBody body).code.length < body.length := by
  have trimmed (cs : List Char) : (Text.trimLeft cs).length ≤ cs.length :=
    (List.dropWhile_sublist _).length_le
  cases body with
  | nil => simp [Scriptlet.ofBody, Scriptlet.markerOf] at hm
  | cons c rest =>
    simp only [Scriptlet.ofBody] at hm ht ⊢
    cases hc : Marker.ofChar? c with
    | none => simp [Scriptlet.markerOf, hc] at hm
    | some m =>
      cases m with
      | plain | expression | inclusion => simp [Scriptlet.markerOf, hc] at hm
      | inFlow =>
        simp only [Scriptlet.markerOf, hc] at ht ⊢
        have hpair : Scriptlet.tagOf (Text.trimLeft rest)
            = (some tag, (Scriptlet.tagOf (Text.trimLeft rest)).2) := Prod.ext ht rfl
        have hlen := Scriptlet.length_tagOf hpair
        have := trimmed rest
        simp only [List.length_cons]
        omega

theorem Scriptlet.length_lt_of_mem_parts {d : Delimiters} {extract : Bool} {active : String} {p : Place}
    {body : List Char} {r : Request} (h : Part.request r ∈ (Scriptlet.ofBody body).parts d extract active p) :
    r.source.length < (Piece.source d (.scriptlet p body)).length := by
  unfold Scriptlet.parts at h
  split at h
  · simp at h
  · split at h
    · next hm =>
      split at h
      · next tag ht =>
        split at h
        · simp only [List.mem_singleton, Part.request.injEq] at h
          subst h
          have := Scriptlet.length_ofBody hm ht
          have := Text.trim_length_le (Scriptlet.ofBody body).code
          simp only [Request.rewrap, Piece.source, List.length_append, List.length_cons, List.length_nil]
          omega
        · simp [Part.segmentAt] at h
      · simp [Part.segmentAt] at h
    · simp [Part.segmentAt] at h

theorem length_lt_of_mem_readPieces {d : Delimiters} {extract : Bool} {active : String} {pieces : List Piece}
    {r : Request} (h : Part.request r ∈ readPieces d extract active pieces) :
    r.source.length < (pieces.flatMap (Piece.source d)).length := by
  induction pieces generalizing active with
  | nil => simp [readPieces] at h
  | cons piece rest ih =>
    simp only [List.flatMap_cons, List.length_append]
    cases piece with
    | literal p text =>
      simp only [readPieces, List.mem_cons, Part.segmentAt, reduceCtorEq, false_or] at h
      exact Nat.lt_add_left _ (ih h)
    | scriptlet p body =>
      simp only [readPieces, List.mem_append] at h
      rcases h with h | h
      · exact Nat.lt_of_lt_of_le (Scriptlet.length_lt_of_mem_parts h) (Nat.le_add_right _ _)
      · exact Nat.lt_add_left _ (ih h)

theorem length_scanTurns_le (d : Delimiters) (turns : Nat) (p : Place) (cs : List Char)
    (h : (scanTurns d turns p cs).2 ≠ .endless) :
    ((scanTurns d turns p cs).1.flatMap (Piece.source d)).length ≤ cs.length := by
  induction turns generalizing p cs with
  | zero => cases cs <;> simp_all [scanTurns]
  | succ turns ih =>
    cases cs with
    | nil => simp [scanTurns]
    | cons c cs =>
      simp only [scanTurns] at h ⊢
      cases ht : d.turn (c :: cs) with
      | tail => simp [Piece.source]
      | unclosed literal =>
        simp only [Piece.flatMap_source_literals]
        unfold Delimiters.turn at ht
        split at ht
        · cases ht
        · next hc =>
          split at ht
          · cases ht
            have := congrArg List.length (Text.cut_eq_append hc)
            simp only [List.length_append, List.length_cons] at this ⊢
            omega
          · cases ht
      | scriptlet literal body rest =>
        simp only [ht] at h ⊢
        have hlen := congrArg List.length (Delimiters.eq_append_of_turn ht)
        have := ih _ _ h
        simp only [List.flatMap_append, List.flatMap_cons, Piece.flatMap_source_literals, Piece.source,
          List.length_append] at hlen ⊢ this
        omega

/-- A body that is handed out is shorter than the document it was taken from, whatever the delimiters. -/
theorem length_lt_of_mem_requests {styles : List Delimiters} {tag : String} {extract : Bool} {source : List Char}
    {r : Request} (h : r ∈ (Reading.ofDocument styles tag extract source).requests)
    (he : (Reading.ofDocument styles tag extract source).ending ≠ .endless) :
    r.source.length < source.length := by
  simp only [Reading.requests, List.mem_filterMap] at h
  obtain ⟨part, hpart, hr⟩ := h
  cases part with
  | segment s => simp [Part.request?] at hr
  | request r' =>
    cases hr
    unfold Reading.ofDocument at hpart he
    split at hpart
    · cases source <;> simp [Piece.literals, readPieces, Part.segmentAt] at hpart
    · next d hd =>
      rw [hd] at he
      exact Nat.lt_of_lt_of_le (length_lt_of_mem_readPieces hpart) (length_scanTurns_le d _ _ _ he)

end ScriptedText
