import Mathlib.Data.List.Basic

/-!
# Directory trees with symbolic links

A tree of directories whose leaves are files and symbolic links, over any type of names, and the
walk along a path that follows the links it meets. A walk ends at a place where something stands,
at a place where only the last name is missing, or nowhere. It follows a bounded number of links,
as every system does.

A location is the list of names that leads to a place through directories alone. Walks end at
such locations, so walking to the end of a walk once more follows no link and ends there. A walk
along a path and one more name looks this name up where the walk along the path ends.
-/

/-- One component of a path: nothing, the parent directory, or a name. -/
inductive LinkTree.Step (α : Type*)
  | stay
  | up
  | name (a : α)
deriving DecidableEq

/-- A file, a directory with its entries, or a symbolic link with its target: a path from the
root or from the directory that holds the link. -/
inductive LinkTree (α : Type*)
  | file
  | dir (entries : List (α × LinkTree α))
  | link (rooted : Bool) (target : List (LinkTree.Step α))

namespace LinkTree

open List

variable {α : Type*} [DecidableEq α]

def isLink : LinkTree α → Bool
  | .link _ _ => true
  | _ => false

/-- The entry of a directory under a name. -/
def entry (a : α) : LinkTree α → Option (LinkTree α)
  | .dir entries => entries.lookup a
  | _ => none

/-- What stands at a location; no link is followed on the way. -/
def node (tree : LinkTree α) : List α → Option (LinkTree α)
  | [] => some tree
  | a :: loc => (tree.entry a).bind fun sub => sub.node loc

variable (tree : LinkTree α)

@[simp] theorem node_nil : tree.node [] = some tree := rfl

theorem node_append (loc more : List α) :
    tree.node (loc ++ more) = (tree.node loc).bind fun sub => sub.node more := by
  induction loc generalizing tree with
  | nil => rfl
  | cons a loc ih =>
    cases h : tree.entry a with
    | none => simp [node, h]
    | some sub => simp [node, h, ih]

/-- A location holds something other than a link. -/
def Plain (tree : LinkTree α) (loc : List α) : Prop :=
  ∃ sub, tree.node loc = some sub ∧ sub.isLink = false

variable {tree : LinkTree α} {loc : List α}

variable {entries : List (α × LinkTree α)}

theorem plain_dir (h : tree.node loc = some (.dir entries)) : tree.Plain loc := ⟨_, h, rfl⟩

/-- What has entries is a directory, so a location leads through directories only. -/
theorem Plain.of_append {loc more : List α} (h : tree.Plain (loc ++ more)) : tree.Plain loc := by
  obtain ⟨sub, hsub, hlink⟩ := h
  rw [node_append] at hsub
  obtain ⟨mid, hmid, hrest⟩ := Option.bind_eq_some_iff.mp hsub
  cases more with
  | nil => exact ⟨mid, hmid, by cases hrest; exact hlink⟩
  | cons a more =>
    cases mid with
    | dir entries => exact plain_dir hmid
    | file | link rooted target => simp [node, entry] at hrest

theorem Plain.dropLast (h : tree.Plain loc) : tree.Plain loc.dropLast := by
  rcases eq_nil_or_concat loc with rfl | ⟨init, a, rfl⟩
  · exact h
  · rw [concat_eq_append] at h ⊢
    rw [dropLast_concat]
    exact h.of_append

/-! ## Walks -/

/-- The end of a walk: a place where something stands, a place whose directory exists but which
holds nothing, or no place at all. -/
inductive Outcome (α : Type*)
  | found (loc : List α)
  | missing (loc : List α)
  | failed
deriving DecidableEq

/-- A walk that leaves every link it meets to `follow`, which gets the directory to go on from
and the components still to walk. -/
def walkWith (tree : LinkTree α) (follow : List α → List (Step α) → Outcome α) :
    List α → List (Step α) → Outcome α
  | cur, [] => .found cur
  | cur, step :: rest =>
    match tree.node cur with
    | some (.dir entries) =>
      match step with
      | .stay => tree.walkWith follow cur rest
      | .up => tree.walkWith follow cur.dropLast rest
      | .name a =>
        match entries.lookup a with
        | none => if rest.isEmpty then .missing (cur ++ [a]) else .failed
        | some (.link rooted target) => follow (if rooted then [] else cur) (target ++ rest)
        | some _ => tree.walkWith follow (cur ++ [a]) rest
    -- Only a directory has a parent or entries, and a trailing empty component needs one too.
    | _ => .failed

/-- A walk that follows at most the given number of links. -/
def walk (tree : LinkTree α) : ℕ → List α → List (Step α) → Outcome α
  | 0 => tree.walkWith fun _ _ => .failed
  | links + 1 => tree.walkWith (tree.walk links)

/-- A walk is a walk that leaves the links to some continuation. -/
theorem walk_eq_walkWith (links : ℕ) : ∃ follow, tree.walk links = tree.walkWith follow := by
  cases links with
  | zero | succ links => exact ⟨_, rfl⟩

variable {steps : List (Step α)} {cur loc : List α}

/-- A walk ends at a location that only directories lead to. -/
theorem plain_of_walkWith (hroot : tree.isLink = false)
    {follow : List α → List (Step α) → Outcome α}
    (hfollow : ∀ cur steps loc, tree.Plain cur → follow cur steps = .found loc → tree.Plain loc)
    (hcur : tree.Plain cur) (h : tree.walkWith follow cur steps = .found loc) : tree.Plain loc := by
  induction steps generalizing cur with
  | nil =>
    rw [walkWith] at h
    cases h
    exact hcur
  | cons step rest ih =>
    rw [walkWith] at h
    split at h
    next entries hnode =>
      cases step with
      | stay => exact ih hcur h
      | up => exact ih hcur.dropLast h
      | name a =>
        dsimp only at h
        split at h
        next => split at h <;> cases h
        next rooted target _ =>
          -- A link starts over at the root or goes on from the directory that holds it.
          apply hfollow _ _ _ _ h
          cases rooted with
          | true => exact ⟨tree, rfl, hroot⟩
          | false => exact hcur
        next sub hlink hsub =>
          refine ih ⟨sub, ?_, ?_⟩ h
          · simp [node_append, hnode, node, entry, hsub]
          · cases sub with
            | link rooted target => exact absurd rfl (hlink rooted target)
            | file | dir entries => rfl
    next => cases h

/-- A walk that finds something ends at a location that holds no link. -/
theorem plain_of_walk (hroot : tree.isLink = false) {links : ℕ} (hcur : tree.Plain cur)
    (h : tree.walk links cur steps = .found loc) : tree.Plain loc := by
  induction links generalizing cur steps loc with
  | zero => exact plain_of_walkWith hroot (fun _ _ _ _ hfound => by cases hfound) hcur h
  | succ links ih => exact plain_of_walkWith hroot (fun _ _ _ hplain => ih hplain) hcur h

/-- The names of a location without links lead to it: no link is met, whatever would follow
one. -/
theorem walkWith_names (follow : List α → List (Step α) → Outcome α)
    {names cur : List α} (h : tree.Plain (cur ++ names)) :
    tree.walkWith follow cur (names.map .name) = .found (cur ++ names) := by
  induction names generalizing cur with
  | nil => simp [walkWith]
  | cons a names ih =>
    have hnext : tree.Plain (cur ++ [a] ++ names) := by
      rwa [append_assoc]
    obtain ⟨sub, hsub, hlink⟩ := hnext.of_append
    rw [node_append] at hsub
    obtain ⟨mid, hmid, hentry⟩ := Option.bind_eq_some_iff.mp hsub
    cases mid with
    | dir entries =>
      have hlookup : entries.lookup a = some sub := by
        simpa [node, entry] using hentry
      have hcons : cur ++ a :: names = cur ++ [a] ++ names := by simp
      rw [hcons, ← ih hnext, map_cons, walkWith, hmid]
      cases sub with
      | link rooted target => cases hlink
      | file | dir inner => simp [hlookup]
    | file | link rooted target => simp [node, entry] at hentry

theorem walk_names (links : ℕ) (h : tree.Plain loc) :
    tree.walk links [] (loc.map .name) = .found loc := by
  obtain ⟨follow, hwalk⟩ := tree.walk_eq_walkWith links
  rw [hwalk]
  exact walkWith_names follow (by simpa using h)

/-- What a walk finds it finds as well if it may follow more links. -/
theorem walkWith_found_mono {follow follow' : List α → List (Step α) → Outcome α}
    (hfollow : ∀ cur steps loc, follow cur steps = .found loc → follow' cur steps = .found loc)
    (h : tree.walkWith follow cur steps = .found loc) :
    tree.walkWith follow' cur steps = .found loc := by
  induction steps generalizing cur with
  | nil => exact h
  | cons step rest ih =>
    rw [walkWith] at h ⊢
    split at h
    next entries hnode =>
      cases step with
      | stay | up => exact ih h
      | name a =>
        dsimp only at h ⊢
        split at h
        next => split at h <;> cases h
        next => exact hfollow _ _ _ h
        next => exact ih h
    next => cases h

theorem walk_found_mono {links links' : ℕ} (hle : links ≤ links')
    (h : tree.walk links cur steps = .found loc) : tree.walk links' cur steps = .found loc := by
  induction links generalizing links' cur steps loc with
  | zero =>
    obtain ⟨follow, hwalk⟩ := tree.walk_eq_walkWith links'
    rw [hwalk]
    exact walkWith_found_mono (fun _ _ _ hfound => by cases hfound) h
  | succ links ih =>
    obtain ⟨more, rfl⟩ := Nat.exists_eq_add_of_le' hle
    exact walkWith_found_mono (fun _ _ _ hfound => ih (Nat.le_add_left links more) hfound) h

/-- A walk along a path and some more components goes on from where the walk along the path ends,
if it finds something there, and fails otherwise. -/
def GoesOn (tree : LinkTree α) (more : List (Step α))
    (walk : List α → List (Step α) → Outcome α) : Prop :=
  ∀ cur steps,
    (∃ dir follow, walk cur steps = .found dir ∧
      walk cur (steps ++ more) = tree.walkWith follow dir more) ∨
    ((∀ dir, walk cur steps ≠ .found dir) ∧ walk cur (steps ++ more) = .failed)

theorem GoesOn.walkWith {more : List (Step α)} (hmore : more ≠ [])
    {follow : List α → List (Step α) → Outcome α} (h : tree.GoesOn more follow) :
    tree.GoesOn more (tree.walkWith follow) := by
  intro cur steps
  induction steps generalizing cur with
  | nil => exact .inl ⟨cur, follow, rfl, rfl⟩
  | cons step rest ih =>
    rw [cons_append, LinkTree.walkWith, LinkTree.walkWith]
    split
    next entries hnode =>
      cases step with
      | stay | up => exact ih _
      | name a =>
        dsimp only
        split
        next =>
          -- a missing name is the end of a walk only if nothing comes after it
          refine .inr ⟨fun dir hfound => ?_, by simp [hmore]⟩
          split at hfound <;> cases hfound
        next rooted target _ =>
          rw [← append_assoc]
          exact h _ _
        next => exact ih _
    next => exact .inr ⟨by simp, rfl⟩

variable (tree) in
theorem goesOn_walk {more : List (Step α)} (hmore : more ≠ []) (links : ℕ) :
    tree.GoesOn more (tree.walk links) := by
  induction links with
  | zero => exact GoesOn.walkWith hmore fun _ _ => .inr ⟨by simp, rfl⟩
  | succ links ih => exact ih.walkWith hmore

/-- The last name of a path in a directory, if it is not a link. -/
theorem walkWith_last {a : α}
    (follow : List α → List (Step α) → Outcome α) (hdir : tree.node cur = some (.dir entries))
    (hlink : ∀ sub, tree.node (cur ++ [a]) = some sub → sub.isLink = false) :
    tree.walkWith follow cur [.name a] =
      if (tree.node (cur ++ [a])).isSome then .found (cur ++ [a]) else .missing (cur ++ [a]) := by
  have hnode : tree.node (cur ++ [a]) = entries.lookup a := by
    simp [node_append, hdir, node, entry]
  rw [hnode] at hlink ⊢
  rw [walkWith, hdir]
  cases hsub : entries.lookup a with
  | none => simp [hsub]
  | some sub =>
    cases sub with
    | link rooted target => cases hlink _ hsub
    | file | dir inner => simp [hsub, walkWith]

/-- An empty component changes nothing in a directory. -/
@[simp] theorem walk_stay (entries : List (α × LinkTree α)) (links : ℕ) (steps : List (Step α)) :
    (LinkTree.dir entries).walk links [] (.stay :: steps) =
      (LinkTree.dir entries).walk links [] steps := by
  obtain ⟨follow, hwalk⟩ := (LinkTree.dir entries).walk_eq_walkWith links
  rw [hwalk, walkWith]
  rfl

end LinkTree
