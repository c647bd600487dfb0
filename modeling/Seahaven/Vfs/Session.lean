import Seahaven.Lossy
import Seahaven.Vfs.Fs

/-!
# Sessions

A session is one namespace and one working directory. A child of the program is lent the mounts of
its parent's session: where each lies, what it permits and a handle on its directory, from which it
builds a table of its own.
-/

namespace Seahaven

open Vfs in
/-- One sandboxed execution context. -/
structure Session [Unicode] where
  vfs : Vfs
  cwd : VirtualPath

namespace Session

open Vfs OsStr Host Op

variable [Unicode] (s : Session)

/-- A session rooted at `/`. -/
def new (vfs : Vfs) : Session := ⟨vfs, .root⟩

def resolve (path : OsStr) : Except PathError VirtualPath := s.cwd.resolve path

def notADirectory (target : VirtualPath) : IoError :=
  .custom .notADirectory (os "not a directory: " ++ target.asStr)

def admitCwd (target : VirtualPath) : Option FileFacts → Except IoError Unit
  | some facts => if facts.isDir then .ok () else .error (notADirectory target)
  | none => .error (notFound target)

def setCwd (path : OsStr) : Op Host IoError Session := do
  let target ← Op.check ((s.resolve path).mapError invalidPath)
  let facts ← s.vfs.facts target true
  Op.check (admitCwd target facts)
  pure { s with cwd := target }

def isDirectory (path : VirtualPath) (h : Host) : Bool :=
  match (s.vfs.facts path true h).1 with
  | .ok (some facts) => facts.isDir
  | _ => false

/-- **What can be a working directory becomes it**, however the path is written. -/
theorem setCwd_ok {path : OsStr} {target : VirtualPath} {h : Host}
    (hp : s.resolve path = .ok target) (hd : s.isDirectory target h = true) :
    (s.setCwd path h).1 = .ok { s with cwd := target } := by
  unfold isDirectory at hd
  split at hd
  · rename_i facts hfacts
    have hread : s.vfs.facts target true h = (.ok (some facts), (s.vfs.facts target true h).2) :=
      Prod.ext hfacts rfl
    unfold setCwd
    rw [hp]
    simp only [Except.mapError, check_ok_bind]
    rw [bind_ok hread]
    simp only [admitCwd, if_pos hd, check_ok_bind, pure_apply]
  · cases hd

end Session

namespace Vfs

open OsStr Host

variable [Unicode]

/-! ## Texts of a table's errors -/

/-- `Path::display`. -/
def displayPath (p : PathBuf) : OsStr :=
  OsStr.toStringLossy <| match p with
    | first :: rest => if first = [slash] then slash :: join rest else join (first :: rest)
    | [] => []

def displayHostPath (p : HostPath) : OsStr := displayPath ([slash] :: p)

def MountError.message : MountError → OsStr
  | .path e => os "invalid mount point: " ++ e.message
  | .hostDir host source =>
    os "cannot open host directory " ++ displayPath host ++ os ": " ++ source.toStr
  | .duplicateMountPoint at' => os "duplicate mount point: " ++ at'
  | .collidingMountPoints first second =>
    os "mount points " ++ first ++ os " and " ++ second ++ os " collide when case-folded"
  | .overlappingHostDirs inner outer => os "host directory " ++ displayHostPath inner ++
    os " lies inside " ++ displayHostPath outer ++ os "; mounts must be disjoint"

namespace MountTable

/-! ## Lending a table -/

/-- One mount's capability, borrowed for handing to a child process. -/
structure MountLoan where
  mountPoint : VirtualPath
  access : Access
  handle : CapDir

def lendToChild (t : MountTable) : List MountLoan :=
  t.mounts.map fun m => ⟨m.at, m.access, m.dir⟩

abbrev ChildEntry := OsStr × Access × CapDir

/-- The first loop of `from_child_handles`. -/
def parsePoints : List ChildEntry → Except MountError (List (VirtualPath × Access × CapDir))
  | [] => .ok []
  | (at', access, handle) :: rest =>
    match VirtualPath.new at' with
    | .error e => .error (.path e)
    | .ok p =>
      match parsePoints rest with
      | .error e => .error e
      | .ok parsed => .ok ((p, access, handle) :: parsed)

def childMount (e : VirtualPath × Access × CapDir) : Mount :=
  ⟨e.1, e.2.2, none, none, e.2.1, false⟩

theorem points_of_parsed {parsed : List (VirtualPath × Access × CapDir)}
    (h : checkMountPoints (parsed.map Prod.fst) = .ok ()) :
    (parsed.map childMount).Pairwise fun m m' => m.at ≠ m'.at := by
  rw [List.pairwise_map]
  exact List.pairwise_map.1 (checkMountPoints_ok h)

/-- Rebuilds a table from handles received from a parent process. -/
def fromChildHandles (entries : List ChildEntry) : Except MountError MountTable :=
  match parsePoints entries with
  | .error e => .error e
  | .ok parsed =>
    match hc : checkMountPoints (parsed.map Prod.fst) with
    | .error e => .error e
    | .ok () => .ok (fromMounts (parsed.map childMount) (points_of_parsed hc))

theorem parsePoints_handles {entries : List ChildEntry}
    {parsed : List (VirtualPath × Access × CapDir)} (h : parsePoints entries = .ok parsed) :
    parsed.map (fun e => e.2.2) = entries.map fun e => e.2.2 := by
  induction entries generalizing parsed with
  | nil =>
    obtain rfl : [] = parsed := by simpa [parsePoints] using h
    rfl
  | cons e rest ih =>
    unfold parsePoints at h
    split at h
    · cases h
    · split at h
      · cases h
      · rename_i ps hps
        obtain rfl := Except.ok.inj h
        simp [ih hps]

theorem dirs_fromChildHandles {entries : List ChildEntry} {t : MountTable}
    (h : fromChildHandles entries = .ok t) :
    (t.mounts.map Mount.dir).Perm (entries.map fun e => e.2.2) := by
  unfold fromChildHandles at h
  split at h
  · cases h
  rename_i parsed hparsed
  split at h
  · cases h
  obtain rfl := Except.ok.inj h
  have hperm := (List.perm_insertionSort Deeper (parsed.map childMount)).map Mount.dir
  rw [← parsePoints_handles hparsed]
  rw [List.map_map] at hperm
  simp only [fromMounts, recordNesting, List.map_map]
  exact hperm

end MountTable

end Vfs

end Seahaven
