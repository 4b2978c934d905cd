import ScriptedText.Files.Tree
import ScriptedText.Proofs.OrderedMap

/-!
A tree that has come after another one: where a file was there is the same file, or something newer, or nothing. Removing
things makes nothing appear.
-/

namespace ScriptedText.Files

/-- What stands at a path, if its time is known. -/
def Status.dated? : Status → Option (Path × Node)
  | .file path bytes mtime => some (path, .file bytes mtime)
  | .directory path (some mtime) => some (path, .directory (some mtime))
  | _ => none

def Node.time? : Node → Option Int
  | .file _ mtime => some mtime
  | .directory mtime => mtime
  | .link _ => none

/-- The time of what stands at a path. -/
def Status.time? (s : Status) : Option Int := s.dated?.bind fun x => x.2.time?

/-- Where one name of a path leads when it is no link. -/
def Path.go (here : Path) (c : String) : Path :=
  if c = "" || c = "." then here else if c = ".." then here.dropLast else here ++ [c]

namespace Tree

variable {t u : Tree}

/-- Every file that was there is as it was, or newer, or gone. -/
def Follows (t u : Tree) : Prop :=
  ∀ f real bytes mtime time, u.status f = .file real bytes mtime → (t.status f).time? = some time →
    mtime < time ∨ ∃ real', t.status f = .file real' bytes mtime

theorem Follows.refl (t : Tree) : t.Follows t := fun _ real _ _ _ h _ => .inr ⟨real, h⟩

/-- Nothing is there that was not, but that the times of directories are no longer known. -/
structure Thins (t u : Tree) : Prop where
  origin : t.origin = u.origin
  node : ∀ q n, t.nodes.get? q = some n →
    u.nodes.get? q = some n ∨ n = .directory none ∧ ∃ mtime, u.nodes.get? q = some (.directory mtime)

/-- What one name of a path leads to that is no step up. -/
def enter (t : Tree) (onLink : Path → List String → Status) (here : Path) (c : String) (rest : List String) : Status :=
  match t.nodes.get? (here ++ [c]) with
  | none => .absent
  | some (.directory _) => walkWith t onLink (here ++ [c]) rest
  | some (.file bytes mtime) => if rest.isEmpty then .file (here ++ [c]) bytes mtime else .absent
  | some (.link target) =>
    match (t.origin ++ "/").toList.isPrefixOf? target.toList with
    | some inside => onLink [] (components (String.ofList inside) ++ rest)
    | none => if Text.startsWith target "/" then .absent else onLink here (components target ++ rest)

/-- A name of a path is a step that no tree has a say in, or the walk ends there in every tree, or it is looked up. -/
theorem walkWith_cons_cases (here : Path) (c : String) (rest : List String) :
    (∀ t onLink, walkWith t onLink here (c :: rest) = walkWith t onLink (here.go c) rest) ∨
      (∃ s, s.dated? = none ∧ ∀ t onLink, walkWith t onLink here (c :: rest) = s) ∨
      here.go c = here ++ [c] ∧ ∀ t onLink, walkWith t onLink here (c :: rest) = enter t onLink here c rest := by
  unfold Path.go
  by_cases hskip : (c = "" || c = ".") = true
  · exact .inl fun t onLink => by rw [walkWith, if_pos hskip, if_pos hskip]
  · by_cases hup : c = ".."
    · by_cases hinside : here.isEmpty = true
      · exact .inr (.inl ⟨.absent, rfl, fun t onLink => by rw [walkWith, if_neg hskip, if_pos hup, if_pos hinside]⟩)
      · refine .inl fun t onLink => ?_
        rw [walkWith, if_neg hskip, if_pos hup, if_neg hinside, if_neg hskip, if_pos hup]
    · by_cases hlimit : nameLimit < byteLength c
      · refine .inr (.inl ⟨.failed tooLong, rfl, fun t onLink => ?_⟩)
        rw [walkWith, if_neg hskip, if_neg hup, if_pos hlimit]
      · refine .inr (.inr ⟨by rw [if_neg hskip, if_neg hup], fun t onLink => ?_⟩)
        rw [walkWith, if_neg hskip, if_neg hup, if_neg hlimit]
        rfl

/-- What can still be found is what was found before. By induction on the rest of the path. -/
theorem walkWith_of_thins (h : t.Thins u) {onLink onLink' : Path → List String → Status}
    (hlink : ∀ here rest, (onLink here rest).dated?.isSome = true → onLink' here rest = onLink here rest)
    (rest : List String) (here : Path) (hfound : (t.walkWith onLink here rest).dated?.isSome = true) :
    u.walkWith onLink' here rest = t.walkWith onLink here rest := by
  induction rest generalizing here with
  | nil =>
      unfold walkWith at hfound ⊢
      split at hfound
      · next mtime hnode =>
          rcases h.node here _ hnode with hold | ⟨hnone, -⟩
          · rw [hold]
          · cases hnone
            cases hfound
      · cases hfound
  | cons c rest ih =>
      rcases walkWith_cons_cases here c rest with hstep | ⟨s, hs, hstep⟩ | ⟨-, hstep⟩
      · rw [hstep] at hfound ⊢
        rw [hstep]
        exact ih _ hfound
      · rw [hstep, hstep]
      · rw [hstep] at hfound ⊢
        rw [hstep]
        unfold enter at hfound ⊢
        cases hnode : t.nodes.get? (here ++ [c]) with
        | none =>
            rw [hnode] at hfound
            cases hfound
        | some n =>
            rw [hnode] at hfound
            rcases h.node _ n hnode with hold | ⟨rfl, mtime, hold⟩
            · rw [hold]
              cases n with
              | directory mtime => exact ih _ hfound
              | file bytes mtime => rfl
              | link target =>
                  dsimp only at hfound ⊢
                  rw [h.origin] at hfound ⊢
                  split
                  · next heq =>
                      rw [heq] at hfound
                      exact hlink _ _ hfound
                  · next heq =>
                      rw [heq] at hfound
                      dsimp only at hfound
                      split
                      · rfl
                      · next hstarts =>
                          rw [if_neg hstarts] at hfound
                          exact hlink _ _ hfound
            · rw [hold]
              exact ih _ hfound

theorem walk_of_thins (h : t.Thins u) (links : Nat) (here : Path) (rest : List String)
    (hfound : (t.walk links here rest).dated?.isSome = true) : u.walk links here rest = t.walk links here rest := by
  induction links generalizing here rest with
  | zero =>
      refine walkWith_of_thins h (fun here rest hfailed => ?_) rest here hfound
      cases hfailed
  | succ links ih => exact walkWith_of_thins h ih rest here hfound

theorem status_of_thins (h : t.Thins u) (f : Path) (hfound : (t.status f).dated?.isSome = true) :
    u.status f = t.status f := by
  have hspell : u.spell f = t.spell f := by rw [spell, spell, h.origin]
  unfold status at hfound ⊢
  rw [hspell]
  split
  · rfl
  · next habove =>
      rw [if_neg habove] at hfound
      split
      · rfl
      · next hlong =>
          rw [if_neg hlong] at hfound
          exact walk_of_thins h linkLimit [] f hfound

theorem isSome_dated?_of_time? {s : Status} {time : Int} (h : s.time? = some time) : s.dated?.isSome = true := by
  cases hdated : s.dated? with
  | none =>
      unfold Status.time? at h
      rw [hdated] at h
      cases h
  | some x => rfl

theorem Follows.thin {v : Tree} (h : u.Follows v) (hthin : t.Thins u) : t.Follows v := by
  intro f real bytes mtime time hfile htime
  have hsame := status_of_thins hthin f (isSome_dated?_of_time? htime)
  rw [← hsame] at htime ⊢
  exact h f real bytes mtime time hfile htime

theorem thins_renew (t : Tree) (directory : Path) : (t.renew directory).Thins t := by
  unfold renew
  split
  · next mtime hold =>
      refine ⟨rfl, fun q n hn => ?_⟩
      rw [OrderedMap.get?_insert] at hn
      split at hn
      · next hq =>
          cases hn
          exact .inr ⟨rfl, mtime, hq ▸ hold⟩
      · exact .inl hn
  · exact ⟨rfl, fun _ _ => .inl⟩

theorem thins_filter (t : Tree) (keeps : Path → Node → Bool) : { t with nodes := t.nodes.filter keeps }.Thins t := by
  refine ⟨rfl, fun q n hn => .inl ?_⟩
  exact OrderedMap.get?_of_mem (List.mem_filter.1 (OrderedMap.mem_entries_of_get? hn)).1

theorem Thins.trans {v : Tree} (h : t.Thins u) (h' : u.Thins v) : t.Thins v := by
  refine ⟨h.origin.trans h'.origin, fun q n hn => ?_⟩
  rcases h.node q n hn with hu | ⟨rfl, mtime, hu⟩
  · exact h'.node q n hu
  · rcases h'.node q _ hu with hv | ⟨-, mtime', hv⟩
    · exact .inr ⟨rfl, mtime, hv⟩
    · exact .inr ⟨rfl, mtime', hv⟩

theorem thins_remove (t : Tree) (p : Path) : (t.remove p).Thins t := by
  unfold remove
  dsimp only
  split
  · exact (thins_filter _ _).trans (thins_renew t _)
  · exact thins_filter t _

/-- The tree has no links. -/
def Plain (t : Tree) : Prop := ∀ q target, t.nodes.get? q ≠ some (.link target)

/-- Without links, a path leads to the same place in every tree. -/
theorem node_of_walkWith (h : t.Plain) (onLink : Path → List String → Status) (rest : List String) (here : Path)
    {x : Path × Node} (hfound : (t.walkWith onLink here rest).dated? = some x) :
    x.1 = rest.foldl Path.go here ∧ t.nodes.get? x.1 = some x.2 := by
  induction rest generalizing here with
  | nil =>
      unfold walkWith at hfound
      split at hfound
      · next mtime hnode =>
          cases mtime with
          | none => cases hfound
          | some mtime =>
              cases hfound
              exact ⟨rfl, hnode⟩
      · cases hfound
  | cons c rest ih =>
      rw [List.foldl_cons]
      rcases walkWith_cons_cases here c rest with hstep | ⟨s, hs, hstep⟩ | ⟨hgo, hstep⟩
      · rw [hstep] at hfound
        exact ih _ hfound
      · rw [hstep, hs] at hfound
        cases hfound
      · rw [hstep] at hfound
        unfold enter at hfound
        split at hfound
        · cases hfound
        · rw [hgo]
          exact ih _ hfound
        · next bytes mtime hnode =>
            split at hfound
            · next hlast =>
                cases List.isEmpty_iff.1 hlast
                cases hfound
                exact ⟨hgo.symm, hnode⟩
            · cases hfound
        · next target hnode => exact absurd hnode (h _ target)

theorem node_of_status (h : t.Plain) {f : Path} {x : Path × Node} (hfound : (t.status f).dated? = some x) :
    x.1 = f.foldl Path.go [] ∧ t.nodes.get? x.1 = some x.2 := by
  unfold status at hfound
  split at hfound
  · cases hfound
  · split at hfound
    · cases hfound
    · exact node_of_walkWith h _ f [] hfound

/-- What stands in a file's place is newer, or the file. -/
def NodesFollow (t u : Tree) : Prop :=
  ∀ q bytes mtime n time, u.nodes.get? q = some (.file bytes mtime) → t.nodes.get? q = some n → n.time? = some time →
    mtime < time ∨ n = .file bytes mtime

theorem NodesFollow.refl (t : Tree) : t.NodesFollow t :=
  fun _ _ _ _ _ hfile hn _ => .inr (Option.some.inj (hn.symm.trans hfile))

/-- Without links, nodes are all that there is to look at. -/
theorem follows_of_nodes (ht : t.Plain) (hu : u.Plain) (h : t.NodesFollow u) : t.Follows u := by
  intro f real bytes mtime time hfile htime
  obtain ⟨hreal, hold⟩ := node_of_status (x := (real, .file bytes mtime)) hu (by rw [hfile]; rfl)
  obtain ⟨⟨q, n⟩, hfound, hnode⟩ := Option.bind_eq_some_iff.1 htime
  obtain ⟨hq, hnew⟩ := node_of_status ht hfound
  cases hq.trans hreal.symm
  rcases h real bytes mtime n time hold hnew hnode with hlater | rfl
  · exact .inl hlater
  · refine .inr ⟨real, ?_⟩
    unfold Status.dated? at hfound
    split at hfound
    · next heq =>
        cases hfound
        exact heq
    · cases hfound
    · cases hfound

section put

variable {p q : Path} {n n' : Node}

/-- A node that is there after another one was put somewhere is that one, or was there, or is a directory. -/
theorem node_put (h : (t.put p n).nodes.get? q = some n') :
    q = p ∧ n' = n ∨ t.nodes.get? q = some n' ∨ n' = .directory none := by
  unfold put at h
  dsimp only at h
  rw [OrderedMap.get?_insert] at h
  split at h
  · next hq => exact .inl ⟨hq, (Option.some.inj h).symm⟩
  · split at h
    · exact .inr (.inl h)
    · exact .inr (((thins_renew t p.dropLast).node q n' h).imp_right And.left)

theorem Plain.put (h : t.Plain) (hn : ∀ target, n ≠ .link target) (p : Path) : (t.put p n).Plain := by
  intro q target hlink
  rcases node_put hlink with ⟨-, heq⟩ | hold | hdirectory
  · exact hn target heq.symm
  · exact h q target hold
  · cases hdirectory

theorem NodesFollow.put (h : t.NodesFollow u)
    (hlater : ∀ time bytes mtime, n.time? = some time → u.nodes.get? p = some (.file bytes mtime) → mtime < time) :
    (t.put p n).NodesFollow u := by
  intro q bytes mtime n' time hfile hn htime
  rcases node_put hn with ⟨rfl, rfl⟩ | hold | rfl
  · exact .inl (hlater time bytes mtime htime hfile)
  · exact h q bytes mtime n' time hfile hold htime
  · cases htime

end put

/-- What putting directories keeps, making them on the way to a path keeps. -/
theorem of_makeDirectory {P : Tree → Prop} (hput : ∀ t p, P t → P (t.put p (.directory none))) (h : P t) (p : Path) :
    P (t.makeDirectory p).1 := by
  unfold makeDirectory
  refine List.foldlRecOn p _ (motive := fun x : Tree × Path => P x.1) h fun x hx c _ => ?_
  dsimp only
  split
  · exact hx
  · exact hput _ _ hx
  · exact hx

theorem of_write {P : Tree → Prop} (hput : ∀ t p, P t → P (t.put p (.directory none))) (p : Path) (bytes : List UInt8)
    (mtime : Int) (hfile : ∀ t', P t' → P (t'.put (t.placeOf p).2 (.file bytes mtime))) (h : P t) :
    P (t.write p bytes mtime) := by
  have hplace : P (t.placeOf p).1 := by
    unfold placeOf
    split
    · exact h
    · exact of_makeDirectory hput h _
  exact hfile _ hplace

theorem Plain.write (h : t.Plain) (p : Path) (bytes : List UInt8) (mtime : Int) : (t.write p bytes mtime).Plain :=
  of_write (fun _ p h => h.put (fun _ => Node.noConfusion) p) p bytes mtime (fun _ h => h.put (fun _ => Node.noConfusion) _) h

/-- In trees without links a file may be written whenever its time is later than all that it had. -/
theorem NodesFollow.write (h : t.NodesFollow u) {p : Path} {mtime : Int} (bytes : List UInt8)
    (hlater : ∀ bytes time, u.nodes.get? (t.placeOf p).2 = some (.file bytes time) → time < mtime) :
    (t.write p bytes mtime).NodesFollow u := by
  refine of_write (P := fun t => t.NodesFollow u) (fun _ p h => h.put ?_) p bytes mtime (fun _ h => h.put ?_) h
  · rintro time bytes mtime ⟨⟩
  · rintro _ bytes time ⟨⟩ hold
    exact hlater bytes time hold

end Tree

end ScriptedText.Files
