import Aflare.Go.Filepath

/-!
# Paths of nodes below a base directory

Models `internal/nodes/core/security.go` from `SafeJoinPath` to `ValidateWritePathIn`, with the
levels of `internal/config/config.go`. A path that a workflow names is joined to a base directory
and refused where the joined path leaves it. From level L2 on the symbolic links of the joined
path are resolved, and the resolved path must lie below the base as well.

`filepath.EvalSymlinks` fails on a path that does not exist yet, and the joined path is then
returned as it stands. The operating system follows links on the way to a new file all the same,
so the file can be created wherever a link below the base leads.
-/

open Go LinkTree
open Go.Filepath (clean join rel steps pathText isAbs)

namespace Nodes

/-! ## Levels -/

/-- The security levels of the configuration. -/
inductive SecurityLevel
  | l0
  | l1
  | l2
  | l3
deriving DecidableEq

/-- The place of a level in the order of `SecurityLevelAtLeast`. -/
def SecurityLevel.rank : SecurityLevel → ℕ
  | .l0 => 0
  | .l1 => 1
  | .l2 => 2
  | .l3 => 3

/-- `SecurityLevelAtLeast`: the level in force is not below the one asked for. -/
def SecurityLevel.atLeast (current level : SecurityLevel) : Bool :=
  decide (level.rank ≤ current.rank)

/-! ## The file system -/

/-- A file system: the entries of its root directory. -/
structure FileSystem where
  entries : List (FileName × LinkTree FileName)

variable (fs : FileSystem)

def FileSystem.root : LinkTree FileName := .dir fs.entries

/-- A symbolic link with the text of its target. -/
def linkTo (target : Str) : LinkTree FileName := .link (isAbs target) (steps target)

/-- The links that `filepath.EvalSymlinks` follows before it gives up. -/
def evalLinkLimit : ℕ := 255

/-- The links that the operating system follows before it gives up. -/
def openLinkLimit : ℕ := 40

/-- `filepath.EvalSymlinks` of an absolute path. -/
def evalSymlinks (path : Str) : Option Str :=
  match fs.root.walk evalLinkLimit [] (steps path) with
  | .found loc => some (pathText loc)
  | _ => none

/-- The place that opening an absolute path for reading or writing reaches: what stands there,
or where the missing file is created. A link at the end of the path is followed, also one that
leads to a missing file. -/
def touch (path : Str) : Option (List FileName) :=
  match fs.root.walk openLinkLimit [] (steps path) with
  | .found loc => some loc
  | .missing loc => some loc
  | .failed => none

/-! ## The checks -/

/-- What the checks take from the process. A working directory is an absolute path. -/
structure PathHost where
  getwd : Except Str Str
  isAbs_getwd : ∀ wd, getwd = .ok wd → isAbs wd = true
  toLower : Str → Str

variable (host : PathHost)

def PathHost.abs (path : Str) : Except Str Str :=
  if isAbs path then .ok (clean path)
  else host.getwd.map fun wd => join wd path

/-- The test on a resolved path: it is relative to the base without a leading `..`. -/
def leadsDown (absBase path : Str) : Bool :=
  match rel absBase path with
  | some relPath => !hasPrefix relPath (str "..")
  | none => false

variable (level : SecurityLevel)

def safeJoinPath (fs : FileSystem) (baseDir userPath : Str) : Except Str Str :=
  if userPath = [] then .error (str "path is empty")
  else
    let cleanPath := clean userPath
    if hasPrefix cleanPath (str "/") || hasPrefix cleanPath (str "\\") then
      .error (str "absolute paths are not allowed, use relative paths within the working directory")
    else
      match host.abs baseDir with
      | .error err => .error (str "failed to resolve base directory: " ++ err)
      | .ok absBase =>
        match host.abs (join absBase cleanPath) with
        | .error err => .error (str "failed to resolve full path: " ++ err)
        | .ok absFullPath =>
          match rel absBase absFullPath with
          | none =>
            .error (str "path validation failed: Rel: can't make " ++ absFullPath ++
              str " relative to " ++ absBase)
          | some relPath =>
            if hasPrefix relPath (str "..") || relPath = str ".." then
              .error (str "path escapes the allowed directory")
            else if level.atLeast .l2 then
              match evalSymlinks fs absFullPath with
              | some resolvedPath =>
                if leadsDown absBase resolvedPath then .ok resolvedPath
                else .error (str "path escapes the allowed directory (symlink)")
              -- The links of a path that does not resolve are not looked at.
              | none => .ok absFullPath
            else .ok absFullPath

def validateReadPathIn (fs : FileSystem) (baseDir path : Str) : Except Str Str :=
  if baseDir = [] then .error (str "working directory not available")
  else safeJoinPath host level fs baseDir path

/-- The extensions that are never written. -/
def forbiddenExts : List Str :=
  [".env", ".sh", ".bash", ".zsh", ".fish", ".bat", ".ps1", ".exe", ".dll", ".so", ".dylib", ".msi",
    ".apk", ".ipa", ".deb", ".rpm", ".pkg"].map str ++
  if level.atLeast .l3 then [".py", ".rb", ".php", ".pl"].map str else []

/-- The extensions that level L3 allows. -/
def allowedExts : List Str :=
  [".txt", ".md", ".yaml", ".yml", ".json", ".csv", ".xml", ".log", ".html", ".htm", ".css", ".js",
    ".ts", ".go", ".rs", ".java", ".c", ".cpp", ".h", ".sql", ".toml", ".ini", ".svg", ".png",
    ".jpg", ".jpeg", ".gif", ".pdf", ".zip", ".tar", ".gz"].map str

def validateWritePathIn (fs : FileSystem) (baseDir path : Str) : Except Str Str :=
  if baseDir = [] then .error (str "working directory not available")
  else
    match safeJoinPath host level fs baseDir path with
    | .error err => .error err
    | .ok safePath =>
      if level.atLeast .l1 && hasPrefix (Filepath.base safePath) (str ".") then
        .error (str "dotfiles are not allowed for writing")
      else
        let ext := host.toLower (Filepath.ext safePath)
        if ext ∈ forbiddenExts level then
          .error (str "writing to " ++ ext ++ str " files is not allowed (security risk)")
        else if level.atLeast .l3 && (ext ≠ [] && ext ∉ allowedExts) then
          .error (str "file extension '" ++ ext ++
            str "' is not allowed for writing at L3 security level")
        else .ok safePath

variable {fs : FileSystem} {host : PathHost} {level : SecurityLevel} {baseDir path p : Str}

theorem safeJoinPath_of_validateReadPathIn
    (h : validateReadPathIn host level fs baseDir path = .ok p) :
    safeJoinPath host level fs baseDir path = .ok p := by
  rw [validateReadPathIn] at h
  split at h
  next => cases h
  next => exact h

theorem safeJoinPath_of_validateWritePathIn
    (h : validateWritePathIn host level fs baseDir path = .ok p) :
    safeJoinPath host level fs baseDir path = .ok p := by
  rw [validateWritePathIn] at h
  split at h
  next => cases h
  next =>
    split at h
    next => cases h
    next safePath hsafe =>
      dsimp only at h
      split_ifs at h
      cases h
      exact hsafe

/-! ## Containment -/

/-- A place lies inside the base directory: below the directory that the base path leads to. -/
def Inside (fs : FileSystem) (absBase : Str) (loc : List FileName) : Prop :=
  ∃ home, fs.root.walk openLinkLimit [] (steps absBase) = .found home ∧ home <+: loc

/-- Opening or creating a path touches nothing outside the base directory. -/
def Contained (fs : FileSystem) (absBase path : Str) : Prop :=
  ∀ loc, touch fs path = some loc → Inside fs absBase loc

theorem plain_root (fs : FileSystem) : fs.root.Plain [] := plain_dir rfl

variable {loc : List FileName}

theorem walk_pathText (links : ℕ) (h : fs.root.Plain loc) :
    fs.root.walk links [] (steps (pathText loc)) = .found loc := by
  rw [Filepath.steps_pathText, FileSystem.root, walk_stay]
  by_cases hloc : loc = []
  · subst hloc
    rw [if_pos rfl, walk_stay]
    exact walk_names links h
  · rw [if_neg hloc]
    exact walk_names links h

theorem touch_pathText (h : fs.root.Plain loc) : touch fs (pathText loc) = some loc := by
  rw [touch, walk_pathText openLinkLimit h]

variable {path resolved : Str}

theorem plain_of_evalSymlinks (h : evalSymlinks fs path = some resolved) :
    ∃ loc, resolved = pathText loc ∧ fs.root.Plain loc := by
  rw [evalSymlinks] at h
  split at h
  next loc hwalk =>
    cases h
    exact ⟨loc, rfl, plain_of_walk rfl (plain_root fs) hwalk⟩
  next => cases h

theorem exists_abs_eq_pathText {path p : Str} (h : host.abs path = .ok p) :
    ∃ loc, p = pathText loc := by
  rw [PathHost.abs] at h
  split at h
  next habs =>
    cases h
    exact ⟨_, Filepath.clean_of_isAbs habs⟩
  next =>
    cases hwd : host.getwd with
    | error err =>
      rw [hwd] at h
      cases h
    | ok wd =>
      rw [hwd] at h
      cases h
      exact Filepath.exists_join_eq_pathText (host.isAbs_getwd wd hwd) path

theorem prefix_of_leadsDown {home loc : List FileName}
    (h : leadsDown (pathText home) (pathText loc) = true) : home <+: loc := by
  rw [leadsDown] at h
  split at h
  next relPath hrel => exact Filepath.prefix_of_rel hrel (by simpa using h)
  next => cases h

/-- A resolved path that passes the test touches nothing outside the base. The base is then
without links itself: it is the beginning of a location. -/
theorem contained_of_resolved {home : List FileName} (heval : evalSymlinks fs path = some resolved)
    (hdown : leadsDown (pathText home) resolved = true) :
    Contained fs (pathText home) resolved := by
  obtain ⟨loc, rfl, hplain⟩ := plain_of_evalSymlinks heval
  have hprefix := prefix_of_leadsDown hdown
  intro touched htouch
  rw [touch_pathText hplain] at htouch
  cases htouch
  obtain ⟨rest, rfl⟩ := hprefix
  exact ⟨home, walk_pathText openLinkLimit hplain.of_append, List.prefix_append home rest⟩

/-- What an accepted path is at level L2 and above: the joined path, resolved and tested if it
resolves, and as it stands if it does not. -/
theorem safeJoinPath_cases {baseDir userPath absBase p : Str} (hlevel : level.atLeast .l2 = true)
    (hbase : host.abs baseDir = .ok absBase)
    (h : safeJoinPath host level fs baseDir userPath = .ok p) :
    (evalSymlinks fs (join absBase (clean userPath)) = some p ∧ leadsDown absBase p = true) ∨
      (evalSymlinks fs (join absBase (clean userPath)) = none ∧
        p = join absBase (clean userPath)) := by
  obtain ⟨home, rfl⟩ := exists_abs_eq_pathText hbase
  obtain ⟨full, hfull⟩ :=
    Filepath.exists_join_eq_pathText (Filepath.isAbs_pathText home) (clean userPath)
  -- The joined path is absolute and clean already.
  have habs : host.abs (pathText full) = .ok (pathText full) := by
    rw [PathHost.abs, if_pos (Filepath.isAbs_pathText full), Filepath.clean_pathText]
  rw [safeJoinPath] at h
  split at h
  next => cases h
  next =>
    simp only [hbase, hfull, habs] at h ⊢
    split at h
    next => cases h
    next =>
      split at h
      next => cases h
      next relPath _ =>
        split at h
        next => cases h
        next =>
          cases heval : evalSymlinks fs (pathText full) with
          | none =>
            rw [heval] at h
            cases h
            exact .inr ⟨rfl, rfl⟩
          | some resolved =>
            rw [heval] at h
            dsimp only at h
            split at h
            next hdown =>
              cases h
              exact .inl ⟨rfl, hdown⟩
            next => cases h

/-! ## Where a path that does not resolve leads -/

/-- The directory that holds the last name of a path, after the links before it. -/
def ParentDir (fs : FileSystem) (path : Str) (dir : List FileName) : Prop :=
  fs.root.walk openLinkLimit [] (steps path).dropLast = .found dir ∧
    ∃ entries, fs.root.node dir = some (.dir entries)

/-- The path does not resolve, and its last name is that of a link. -/
def DanglingEnd (fs : FileSystem) (path : Str) : Prop :=
  evalSymlinks fs path = none ∧ ∃ dir a sub, ParentDir fs path dir ∧
    (steps path).getLast? = some (.name a) ∧ fs.root.node (dir ++ [a]) = some sub ∧
    sub.isLink = true

/-- A path that does not resolve and does not end in a link leads to its last name in the directory
before it. -/
theorem walk_eq_last {a : FileName} (heval : evalSymlinks fs path = none)
    (hend : ¬ DanglingEnd fs path) (hlast : (steps path).getLast? = some (.name a))
    {dir : List FileName} (hdir : ParentDir fs path dir) :
    fs.root.walk openLinkLimit [] (steps path) = .missing (dir ++ [a]) ∧
      fs.root.node (dir ++ [a]) = none := by
  have hlink : ∀ sub, fs.root.node (dir ++ [a]) = some sub → sub.isLink = false := fun sub hsub =>
    Bool.eq_false_of_not_eq_true fun htrue => hend ⟨heval, dir, a, sub, hdir, hlast, hsub, htrue⟩
  have hsplit := List.dropLast_append_getLast? _ hlast
  obtain ⟨hfound, entries, hnode⟩ := hdir
  obtain ⟨dir', follow, hfound', hwalk⟩ | ⟨hnone, -⟩ :=
    goesOn_walk fs.root (List.cons_ne_nil (.name a) []) openLinkLimit []
      (steps path).dropLast
  · rw [hfound] at hfound'
    cases hfound'
    rw [hsplit, walkWith_last follow hnode hlink] at hwalk
    split at hwalk
    next =>
      -- what the system finds resolves, since more links are followed then
      rw [evalSymlinks, walk_found_mono (by decide) hwalk] at heval
      cases heval
    next hmissing => exact ⟨hwalk, by simpa using hmissing⟩
  · exact absurd hfound (hnone dir)

/-- It leads nowhere if there is no such directory. -/
theorem touch_eq_some_iff {a : FileName} (heval : evalSymlinks fs path = none)
    (hend : ¬ DanglingEnd fs path) (hlast : (steps path).getLast? = some (.name a)) :
    touch fs path = some loc ↔ ∃ dir, ParentDir fs path dir ∧ loc = dir ++ [a] := by
  constructor
  · intro htouch
    have hsplit := List.dropLast_append_getLast? _ hlast
    obtain ⟨dir, follow, hfound, hwalk⟩ | ⟨-, hfailed⟩ :=
      goesOn_walk fs.root (List.cons_ne_nil (.name a) []) openLinkLimit []
        (steps path).dropLast
    · rw [hsplit] at hwalk
      cases hnode : fs.root.node dir with
      | none => simp [touch, hwalk, walkWith, hnode] at htouch
      | some sub =>
        cases sub with
        | file | link rooted target => simp [touch, hwalk, walkWith, hnode] at htouch
        | dir entries =>
          have hdir : ParentDir fs path dir := ⟨hfound, entries, hnode⟩
          rw [touch, (walk_eq_last heval hend hlast hdir).1] at htouch
          exact ⟨dir, hdir, (Option.some.inj htouch).symm⟩
    · rw [hsplit] at hfailed
      simp [touch, hfailed] at htouch
  · rintro ⟨dir, hdir, rfl⟩
    rw [touch, (walk_eq_last heval hend hlast hdir).1]

/-- A path that `SafeJoinPath` accepts at level L2 or above, and that does not end in a dangling
link, stays inside the base directory exactly if the joined path resolves, or else the directory
that its parent leads to is inside. -/
theorem safeJoinPath_contained_iff {host : PathHost} {level : SecurityLevel} {fs : FileSystem}
    {baseDir userPath absBase p : Str} (hlevel : level.atLeast .l2 = true)
    (hbase : host.abs baseDir = .ok absBase)
    (h : safeJoinPath host level fs baseDir userPath = .ok p)
    (hend : ¬ DanglingEnd fs (join absBase (clean userPath))) :
    Contained fs absBase p ↔
      (evalSymlinks fs (join absBase (clean userPath))).isSome = true ∨
        ∀ dir, ParentDir fs (join absBase (clean userPath)) dir → Inside fs absBase dir := by
  obtain ⟨home, rfl⟩ := exists_abs_eq_pathText hbase
  rcases safeJoinPath_cases hlevel hbase h with ⟨heval, hdown⟩ | ⟨heval, rfl⟩
  · rw [heval]
    exact iff_of_true (contained_of_resolved heval hdown) (.inl rfl)
  · obtain ⟨full, hfull⟩ :=
      Filepath.exists_join_eq_pathText (Filepath.isAbs_pathText home) (clean userPath)
    rw [hfull] at heval hend ⊢
    rw [heval]
    -- the root resolves, so that the path has a last name
    obtain ⟨init, a, rfl⟩ : ∃ init a, full = init ++ [a] := by
      rcases List.eq_nil_or_concat full with rfl | ⟨init, a, rfl⟩
      · rw [evalSymlinks, walk_pathText evalLinkLimit (plain_root fs)] at heval
        cases heval
      · exact ⟨init, a, List.concat_eq_append⟩
    have hlast : (steps (pathText (init ++ [a]))).getLast? = some (.name a) := by
      rw [Filepath.steps_pathText, if_neg (by simp), List.map_append]
      simp [List.getLast?_cons]
    simp only [Contained, touch_eq_some_iff heval hend hlast, Option.isSome_none,
      Bool.false_eq_true, false_or]
    constructor
    · intro hcontained dir hdir
      obtain ⟨base, hwalk, hprefix⟩ := hcontained _ ⟨dir, hdir, rfl⟩
      rcases List.prefix_concat_iff.mp hprefix with rfl | hprefix
      · -- the base exists, and the last name of the path does not
        obtain ⟨sub, hsub, -⟩ := plain_of_walk rfl (plain_root fs) hwalk
        rw [(walk_eq_last heval hend hlast hdir).2] at hsub
        cases hsub
      · exact ⟨base, hwalk, hprefix⟩
    · rintro hinside _ ⟨dir, hdir, rfl⟩
      obtain ⟨base, hwalk, hprefix⟩ := hinside dir hdir
      exact ⟨base, hwalk, hprefix.trans (List.prefix_append dir [a])⟩

def rootHost : PathHost where
  getwd := .ok (str "/")
  isAbs_getwd := by
    rintro wd ⟨⟩
    rfl
  toLower := asciiLower

/-- A base directory `/base` with a file in `sub`, a link `inner` to `sub` and a link `outer` to
the directory `/outside`. -/
def linkedTree : FileSystem where
  entries :=
    [(⟨str "base", by decide⟩, .dir
      [(⟨str "sub", by decide⟩, .dir [(⟨str "a.txt", by decide⟩, .file)]),
        (⟨str "inner", by decide⟩, linkTo (str "sub")),
        (⟨str "outer", by decide⟩, linkTo (str "/outside"))]),
      (⟨str "outside", by decide⟩, .dir [])]

/-- A file behind the inner link resolves and is opened inside the base. -/
theorem safeJoinPath_contained_inner :
    safeJoinPath rootHost .l3 linkedTree (str "/base") (str "inner/a.txt") =
        .ok (str "/base/sub/a.txt") ∧
      Contained linkedTree (str "/base") (str "/base/sub/a.txt") := by
  have hsafe : safeJoinPath rootHost .l3 linkedTree (str "/base") (str "inner/a.txt") =
      .ok (str "/base/sub/a.txt") := by decide +kernel
  have hbase : rootHost.abs (str "/base") = .ok (str "/base") := by decide +kernel
  have hresolves : (evalSymlinks linkedTree
      (join (str "/base") (clean (str "inner/a.txt")))).isSome = true := by decide +kernel
  refine ⟨hsafe, (safeJoinPath_contained_iff (by decide) hbase hsafe ?_).mpr (.inl hresolves)⟩
  rintro ⟨hnone, -⟩
  rw [hnone] at hresolves
  cases hresolves

/-- A new file behind the outer link is accepted at level L3 and created outside the base. -/
theorem not_safeJoinPath_contained :
    validateWritePathIn rootHost .l3 linkedTree (str "/base") (str "outer/new.txt") =
        .ok (str "/base/outer/new.txt") ∧
      safeJoinPath rootHost .l3 linkedTree (str "/base") (str "outer/new.txt") =
        .ok (str "/base/outer/new.txt") ∧
      touch linkedTree (str "/base/outer/new.txt") =
        some [⟨str "outside", by decide⟩, ⟨str "new.txt", by decide⟩] ∧
      ¬ Contained linkedTree (str "/base") (str "/base/outer/new.txt") := by
  have htouch : touch linkedTree (str "/base/outer/new.txt") =
      some [⟨str "outside", by decide⟩, ⟨str "new.txt", by decide⟩] := by decide +kernel
  have hhome : linkedTree.root.walk openLinkLimit [] (steps (str "/base")) =
      .found [⟨str "base", by decide⟩] := by decide +kernel
  refine ⟨by decide +kernel, by decide +kernel, htouch, ?_⟩
  intro hcontained
  obtain ⟨home, hwalk, hprefix⟩ := hcontained _ htouch
  rw [hhome] at hwalk
  cases hwalk
  exact absurd hprefix (by decide)

end Nodes
