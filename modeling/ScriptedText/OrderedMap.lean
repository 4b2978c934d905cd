/-!
Maps that keep their keys in order of first insertion. Overwriting a value keeps its place; a key that was
erased goes to the end when it comes back.
-/

namespace ScriptedText

structure OrderedMap (κ α : Type) where
  entries : List (κ × α) := []
  nodup : (entries.map Prod.fst).Nodup := by simp

namespace OrderedMap

variable {κ α : Type}

def empty : OrderedMap κ α where

instance : EmptyCollection (OrderedMap κ α) := ⟨empty⟩

instance : Inhabited (OrderedMap κ α) := ⟨empty⟩

def keys (m : OrderedMap κ α) : List κ := m.entries.map Prod.fst

def values (m : OrderedMap κ α) : List α := m.entries.map Prod.snd

def size (m : OrderedMap κ α) : Nat := m.entries.length

def filter (p : κ → α → Bool) (m : OrderedMap κ α) : OrderedMap κ α where
  entries := m.entries.filter fun (k, a) => p k a
  nodup := (List.filter_sublist.map Prod.fst).nodup m.nodup

variable [DecidableEq κ]

def get? (m : OrderedMap κ α) (k : κ) : Option α := m.entries.lookup k

def contains (m : OrderedMap κ α) (k : κ) : Bool := (m.get? k).isSome

def replace (k : κ) (a : α) : List (κ × α) → List (κ × α)
  | [] => []
  | (k', a') :: rest => if k' = k then (k, a) :: rest else (k', a') :: replace k a rest

theorem keys_replace (k : κ) (a : α) (es : List (κ × α)) :
    (replace k a es).map Prod.fst = es.map Prod.fst := by
  induction es with
  | nil => rfl
  | cons e es ih =>
    obtain ⟨k', a'⟩ := e
    by_cases h : k' = k
    · simp [replace, h]
    · simp [replace, h, ih]

/-- Overwrites in place, or adds at the end. -/
def insert (m : OrderedMap κ α) (k : κ) (a : α) : OrderedMap κ α :=
  if h : k ∈ m.entries.map Prod.fst then
    { entries := replace k a m.entries, nodup := by rw [keys_replace]; exact m.nodup }
  else
    { entries := m.entries ++ [(k, a)]
      nodup := by
        simpa [List.nodup_append, m.nodup] using fun a b hb hk => h (List.mem_map.2 ⟨(a, b), hb, hk⟩) }

def erase (m : OrderedMap κ α) (k : κ) : OrderedMap κ α := m.filter fun k' _ => k' ≠ k

theorem size_erase_lt {m : OrderedMap κ α} {k : κ} (h : m.contains k) : (m.erase k).size < m.size := by
  obtain ⟨a, ha⟩ := Option.isSome_iff_exists.1 h
  have hmem : ∃ e ∈ m.entries, e.1 = k := by
    unfold get? at ha
    generalize m.entries = es at ha
    induction es with
    | nil => cases ha
    | cons e es ih =>
      obtain ⟨k', a'⟩ := e
      by_cases hk : k = k'
      · exact ⟨(k', a'), by simp, hk.symm⟩
      · have : (k == k') = false := by simpa using hk
        rw [List.lookup_cons, this] at ha
        obtain ⟨e, he, hek⟩ := ih ha
        exact ⟨e, List.mem_cons_of_mem _ he, hek⟩
  obtain ⟨e, he, rfl⟩ := hmem
  exact List.length_filter_lt_length_iff_exists.2 ⟨e, he, by simp⟩

/-- The value under `k` afterwards: the one that was there, or else the new one. -/
def insertIfAbsent (m : OrderedMap κ α) (k : κ) (a : α) : OrderedMap κ α × α :=
  match m.get? k with
  | some old => (m, old)
  | none => (m.insert k a, a)

/-- Drops every key with the value `a`, and tells which. -/
def eraseValue [DecidableEq α] (m : OrderedMap κ α) (a : α) : OrderedMap κ α × List κ :=
  (m.filter fun _ b => b ≠ a, (m.entries.filter fun e => e.2 = a).map Prod.fst)

def ofList (es : List (κ × α)) : OrderedMap κ α := es.foldl (fun m e => m.insert e.1 e.2) empty

end OrderedMap

end ScriptedText
