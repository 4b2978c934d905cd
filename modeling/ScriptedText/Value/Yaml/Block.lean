import ScriptedText.Value.Yaml.Flow

/-!
Values of YAML by indentation. A value's lines have to be `next` blanks in, which is one more than the lines of the
mapping or list that it is part of; `col` is the column of such a mapping or list.
-/

namespace ScriptedText.Yaml

/-! ### Scalars that keep their lines -/

/-- What stands after the mark of a block scalar: whether breaks at the end are kept or dropped, and how many blanks
further in its lines are. -/
structure BlockHeader where
  keeps : Option Bool := none
  depth : Option Nat := none

def BlockHeader.read? (h : BlockHeader) : List Char → Option BlockHeader
  | [] => some h
  | c :: rest =>
    if (c = '+' || c = '-') && h.keeps.isNone then ({ h with keeps := some (c = '+') } : BlockHeader).read? rest
    else if '1' ≤ c && c ≤ '9' && h.depth.isNone then
      ({ h with depth := some (c.toNat - 48) } : BlockHeader).read? rest
    else none

def blanksBefore (line : List Char) : Nat := (line.takeWhile (· = ' ')).length

def isBlankLine (line : List Char) : Bool := line.all (· = ' ')

/-- Lines put together, where a single break between two lines that are not further in becomes a blank. `gap` is
what stands before the next line; `deep` says that the last one with text was further in. -/
def foldBlock (gap : List Char) (deep : Bool) : List (List Char) → List Char
  | [] => []
  | line :: rest =>
    if (line.head?.map isBlank).getD false then
      let gap := if gap = [' '] then ['\n'] else if !deep && gap = ['\n'] then ['\n', '\n'] else gap
      gap ++ line ++ foldBlock ['\n'] true rest
    else if line.isEmpty then
      if gap = ['\n'] then '\n' :: foldBlock gap deep rest else foldBlock ['\n'] deep rest
    else gap ++ line ++ foldBlock [' '] false rest

def unsplit (lines : List (List Char)) : List Char := ['\n'].intercalate lines

/-- The text of a block scalar's lines, without the breaks at the end. -/
def blockText (folds : Bool) (lines : List (List Char)) : List Char :=
  if folds then
    let empties := lines.takeWhile List.isEmpty
    empties.map (fun _ => '\n') ++ foldBlock [] false (lines.drop empties.length)
  else unsplit lines

/-- A block scalar whose mark stands here. -/
def readBlockScalar (next : Nat) : Reader Content := do
  let cs ← remaining
  let word := (cs.drop 1).takeWhile fun c => !isGap [c] && c ≠ '#'
  match ({} : BlockHeader).read? word with
  | none => failure
  | some h =>
    goTo (cs.drop (word.length + 1))
    toLineEnd
    let lines := Text.splitAt '\n' ((← remaining).drop 1)
    let first := ((lines.find? (!isBlankLine ·)).map blanksBefore).getD next
    let depth := match h.depth with
      | some d => max next 1 - 1 + d
      | none => max next first
    let taken := lines.takeWhile fun l => isBlankLine l || depth ≤ blanksBefore l
    let after := lines.drop taken.length
    if ((after.head?.getD []).dropWhile (· = ' ')).head? = some '\t' then failure
    if h.depth.isNone && (taken.takeWhile isBlankLine).any (depth < ·.length) && taken.any (!isBlankLine ·) then failure
    goTo (if after.isEmpty then [] else '\n' :: unsplit after)
    let inside := taken.map (·.drop depth)
    let ending := (inside.reverse.takeWhile List.isEmpty).length
    let body := inside.take (inside.length - ending)
    let breaks := if after.isEmpty then max 1 ending else ending + 1
    let text := blockText (cs.head? = some '>') body
    if body.isEmpty then
      let count := if taken.isEmpty then 0 else max 1 (breaks - 1)
      return .quoted (if h.keeps = some true then List.replicate count '\n' else [])
    else
      let count := match h.keeps with
        | none => 1
        | some false => 0
        | some true => breaks
      return .quoted (text ++ List.replicate count '\n')

/-! ### Mappings and lists -/

/-- A scalar or a value in brackets that begins in a line. -/
def readAtom (next : Nat) (p : Props) : Reader Content := do
  let cs ← remaining
  if cs.head? = some '[' || cs.head? = some '\x7b' then
    return .whole (← flowCollection (4 * cs.length + 4) next (next - 1))
  else readScalar next false p

def startsBlockScalar (cs : List Char) : Bool := cs.head? = some '|' || cs.head? = some '>'

def finishRecord (p : Props) (pairs : List (Value × Value)) : Reader Value :=
  match recordOf? pairs with
  | some v => p.finish (.whole v)
  | none => failure

/-- A value whose properties stand in two places. -/
def finishBoth (outer inner : Props) (content : Content) : Reader Value :=
  match outer.merge? inner with
  | some p => p.finish content
  | none => failure

mutual

/-- A value that begins at column `col`, after a tab or not. -/
def blockNode : Nat → Nat → Nat → Bool → Props → Reader Value
  | 0, _, _, _, _ => failure
  | fuel + 1, next, col, tabbed, outer => do
    let start ← remaining
    if marks false '-' start then
      if tabbed then failure
      outer.finish (.whole (.list (← listItems fuel col)))
    else if marks false '?' start || marks false ':' start then
      if tabbed then failure
      finishRecord outer (← pairs fuel col)
    else
      let inner ← readProps false 3 {}
      if inner.isGiven && endsLine (← remaining) then
        match outer.merge? inner with
        | some p => nodeBelow fuel next false p
        | none => failure
      else if startsBlockScalar (← remaining) then
        let content ← readBlockScalar next
        finishBoth outer inner content
      else
        let content ← if inner.isGiven && marks false ':' (← remaining) then pure (.plain []) else readAtom next inner
        let stop := trimLeft (← remaining)
        if marks false ':' stop then
          if tabbed || !isShortKey (between start stop) then failure
          let key ← inner.finish content
          goTo (stop.drop 1)
          let v ← nodeAfter fuel (col + 1) true
          finishRecord outer ((key, v) :: (← morePairs fuel col))
        else
          toLineEnd
          finishBoth outer inner content

/-- A value after a mark: on the rest of the line, or below. -/
def nodeAfter : Nat → Nat → Bool → Reader Value
  | 0, _, _ => failure
  | fuel + 1, next, listAllowed => do
    if endsLine (← remaining) then nodeBelow fuel next listAllowed {}
    else
      goTo (trimLeft (← remaining))
      let p ← readProps false 3 {}
      if endsLine (← remaining) then nodeBelow fuel next listAllowed p
      else
        let content ← if startsBlockScalar (← remaining) then readBlockScalar next else readAtom next p
        toLineEnd
        p.finish content

/-- A value on the lines below, or none. Where it is allowed, a list may stand one blank less far in. -/
def nodeBelow : Nat → Nat → Bool → Props → Reader Value
  | 0, _, _, _ => failure
  | fuel + 1, next, listAllowed, p => do
    toLineEnd
    match lineAhead? (← remaining) with
    | none => p.finish (.plain [])
    | some line =>
      if next ≤ line.indent then
        goTo line.text
        blockNode fuel next line.indent line.tabbed p
      else if listAllowed && line.indent + 1 = next && !line.tabbed && marks false '-' line.text then
        goTo line.text
        p.finish (.whole (.list (← listItems fuel line.indent)))
      else p.finish (.plain [])

/-- A value after a mark that may itself be a mapping or a list on the same line. -/
def nodeWithin : Nat → Nat → Reader Value
  | 0, _ => failure
  | fuel + 1, col => do
    goTo ((← remaining).drop 1)
    let cs ← remaining
    if endsLine cs then nodeBelow fuel (col + 1) false {}
    else
      let gap := cs.takeWhile isBlank
      goTo (cs.drop gap.length)
      blockNode fuel (col + 1) (col + 1 + gap.length) (gap.contains '\t') {}

def listItems : Nat → Nat → Reader (List Value)
  | 0, _ => failure
  | fuel + 1, col => do
    let v ← nodeWithin fuel col
    match lineAhead? (← remaining) with
    | none => return [v]
    | some line =>
      if line.tabbed || col < line.indent then failure
      else if line.indent = col && marks false '-' line.text then
        goTo line.text
        return v :: (← listItems fuel col)
      else return [v]

def pairs : Nat → Nat → Reader (List (Value × Value))
  | 0, _ => failure
  | fuel + 1, col => do
    let start ← remaining
    if marks false '?' start then
      let key ← nodeWithin fuel col
      match lineAhead? (← remaining) with
      | some line =>
        if line.indent = col && !line.tabbed && marks false ':' line.text then
          goTo line.text
          let v ← nodeWithin fuel col
          return (key, v) :: (← morePairs fuel col)
        else return (key, .null) :: (← morePairs fuel col)
      | none => return [(key, .null)]
    else
      let p ← readProps false 3 {}
      let content ← if marks false ':' (← remaining) then pure (.plain []) else readAtom col p
      let stop := trimLeft (← remaining)
      if !marks false ':' stop || !isShortKey (between start stop) then failure
      let key ← p.finish content
      goTo (stop.drop 1)
      let v ← nodeAfter fuel (col + 1) true
      return (key, v) :: (← morePairs fuel col)

/-- The pairs on the lines below that stand at the same column. -/
def morePairs : Nat → Nat → Reader (List (Value × Value))
  | 0, _ => failure
  | fuel + 1, col => do
    match lineAhead? (← remaining) with
    | none => return []
    | some line =>
      if line.tabbed || col < line.indent then failure
      else if line.indent < col then return []
      else
        goTo line.text
        pairs fuel col

end

end ScriptedText.Yaml
