import Seahaven.Lib.Memo
import Seahaven.Shell.WorkingDir

/-!
# The program location cache

The cache keeps the path a command name was first found at. `PATH`, the working directory and the
namespace can change without its being told.

1. `findFirstExecutableInPath`, with and without the cache, and `searchForExecutable`.
2. `transparent_iff`: the runs in which the three agree throughout.
-/

namespace Seahaven.Shell

open OsStr Vfs Host Lib

/-- `PathBuf::from` of a text. -/
def ofText (s : List Char) : OsStr := s.map .chr

def pathName : List Char := "PATH".toList

/-- `sys::fs::split_paths`. -/
def splitPaths (s : OsStr) : List OsStr := s.splitOn (.chr ':')

/-! ## Two searches of one list -/

/-- `a` is the first element that passes a test. -/
def IsFirst {α : Type} (p : α → Bool) (l : List α) (a : α) : Prop :=
  ∃ passed rest, l = passed ++ a :: rest ∧ p a = true ∧ ∀ b ∈ passed, p b = false

theorem isFirst_iff {α : Type} {p : α → Bool} {l : List α} {a : α} :
    IsFirst p l a ↔ l.find? p = some a := by
  rw [List.find?_eq_some_iff_append]
  constructor
  · rintro ⟨passed, rest, hl, ha, hpassed⟩
    exact ⟨ha, passed, rest, hl, fun b hb => by simp [hpassed b hb]⟩
  · rintro ⟨ha, passed, rest, hl, hpassed⟩
    exact ⟨passed, rest, hl, ha, fun b hb => by simpa using hpassed b hb⟩

theorem find?_eq_find?_iff {α : Type} (p q : α → Bool) (l : List α) :
    l.find? p = l.find? q ↔
      ∀ a, (l.find? fun a => p a || q a) = some a → p a = true ∧ q a = true := by
  induction l with
  | nil => simp
  | cons x l ih =>
    rw [List.find?_cons, List.find?_cons, List.find?_cons]
    cases hp : p x with
    | true =>
      cases hq : q x with
      | true => simp [hp, hq]
      | false =>
        -- Only the first search stops at `x`.
        have hne : some x ≠ l.find? q := fun h => by
          have hx := List.find?_some h.symm
          rw [hq] at hx
          cases hx
        simpa [hp, hq] using hne
    | false =>
      cases hq : q x with
      | true =>
        have hne : l.find? p ≠ some x := fun h => by
          have hx := List.find?_some h
          rw [hp] at hx
          cases hx
        simpa [hp, hq] using hne
      | false => simpa using ih

/-! ## The searches and the cache -/

section

variable [Unicode]

/-- `namespace::is_executable`. -/
def isExecutable (session : Session) (path : OsStr) (h : Host) : Bool :=
  match toVirtualPath session path with
  | .ok p =>
    match (session.vfs.access p ⟨false, false, true⟩ h).1 with
    | .ok permitted => permitted
    | .error _ => false
  | .error _ => false

/-- `namespace::is_dir`. -/
def isDir (session : Session) (path : OsStr) (h : Host) : Bool :=
  match toVirtualPath session path with
  | .ok p => session.isDirectory p h
  | .error _ => false

namespace DirShell

variable (s : DirShell)

/-- The paths a name is looked for at: `PATH`'s directories, each with the name. -/
def candidates (name : OsStr) : List OsStr :=
  let path := (s.env.get pathName).map fun r => r.2.value.toStrWithoutDynamicSupport
  (splitPaths (ofText (path.getD []))).map fun dir => joinPath dir name

/-- `Shell::is_executable_in_namespace`. -/
def isExecutableInNamespace (path : OsStr) (h : Host) : Bool :=
  isExecutable s.session (s.absolutePath path) h

/-- `Shell::find_first_executable_in_path`. -/
def findFirstExecutableInPath (name : OsStr) (h : Host) : Option OsStr :=
  (s.candidates name).find? fun path => s.isExecutableInNamespace path h

/-- The test of `ExecutablePathSearch::next`. On Unix a name is its own only candidate. -/
def isFound (path : OsStr) (h : Host) : Bool :=
  !isDir s.session path h && isExecutable s.session path h

/-- `find_executables_in_path(name).next()`, the first result of `search_for_executable`. -/
def searchForExecutable (name : OsStr) (h : Host) : Option OsStr :=
  (s.candidates name).find? fun path => s.isFound path h

end DirShell

/-- A shell with its `program_location_cache`. -/
abbrev HashShell := Memoized DirShell OsStr OsStr

namespace HashShell

variable (m : HashShell)

/-- `Shell::find_first_executable_in_path_using_cache`. -/
def findFirstExecutableInPathUsingCache (name : OsStr) (h : Host) : Option OsStr × HashShell :=
  match m.table name with
  | some cachedPath => (some cachedPath, m)
  | none =>
    match m.state.findFirstExecutableInPath name h with
    | some foundPath =>
      (some foundPath, { m with table := Function.update m.table name (some foundPath) })
    | none => (none, m)

def new (s : DirShell) : HashShell := ⟨s, fun _ => none⟩

/-- Every lookup answers the same: with the cache, without it, and as the search of `PATH` does. -/
def Transparent (h : Host) : Prop := ∀ name,
  (m.findFirstExecutableInPathUsingCache name h).1 = m.state.findFirstExecutableInPath name h ∧
    m.state.findFirstExecutableInPath name h = m.state.searchForExecutable name h

variable [Casing]

def after (h : Host) (uses : List (Use OsStr DirStep)) : HashShell :=
  m.run (fun s name => s.findFirstExecutableInPath name h) (fun step s => (step.run h s).2) uses

end HashShell

/-! ## When the cache is transparent -/

namespace DirShell

variable (s : DirShell) (name : OsStr) (h : Host)

/-- `path` is where `PATH` names an executable first. -/
def Names (path : OsStr) : Prop :=
  IsFirst (fun path => s.isExecutableInNamespace path h) (s.candidates name) path

/-- Where either search of `PATH` would stop first, both do. -/
def FirstPasses : Prop := ∀ path,
  IsFirst (fun path => s.isExecutableInNamespace path h || s.isFound path h)
      (s.candidates name) path →
    s.isExecutableInNamespace path h = true ∧ s.isFound path h = true

variable {s name h}

theorem names_iff {path : OsStr} :
    s.Names name h path ↔ s.findFirstExecutableInPath name h = some path :=
  isFirst_iff

theorem searches_agree_iff : s.findFirstExecutableInPath name h = s.searchForExecutable name h ↔
      s.FirstPasses name h := by
  unfold findFirstExecutableInPath searchForExecutable FirstPasses
  simp only [isFirst_iff]
  exact find?_eq_find?_iff _ _ _

end DirShell

namespace HashShell

variable {m : HashShell} {h : Host}

theorem findFirstExecutableInPathUsingCache_eq (name : OsStr) :
    m.findFirstExecutableInPathUsingCache name h =
      m.ask (fun s name => s.findFirstExecutableInPath name h) name := by
  unfold findFirstExecutableInPathUsingCache Memoized.ask
  cases m.table name with
  | some _ => rfl
  | none =>
    dsimp only
    cases m.state.findFirstExecutableInPath name h <;> rfl

theorem transparent_iff_faithful :
    m.Transparent h ↔ m.Faithful (fun s name => s.findFirstExecutableInPath name h) ∧
      ∀ name, m.state.FirstPasses name h := by
  unfold Transparent Memoized.Faithful
  simp only [findFirstExecutableInPathUsingCache_eq, DirShell.searches_agree_iff]
  exact forall_and

end HashShell

variable [Casing]

/-- **When the cache is transparent.** Throughout a run, exactly where `PATH` still names what a
lookup has found, and the two searches of `PATH` would stop at the same place. -/
theorem transparent_iff (h : Host) (s : DirShell) (uses : List (Use OsStr DirStep)) :
    (∀ pre, pre <+: uses → ((HashShell.new s).after h pre).Transparent h) ↔
      (∀ before name after, before ++ .ask name :: after <+: uses → ∀ path,
        ((HashShell.new s).after h before).state.Names name h path →
        ((HashShell.new s).after h (before ++ .ask name :: after)).state.Names name h path) ∧
      ∀ pre, pre <+: uses → ∀ name, ((HashShell.new s).after h pre).state.FirstPasses name h := by
  have hfaithful := @Memoized.faithfulAlong_iff DirShell OsStr OsStr DirStep _
    (fun s name => s.findFirstExecutableInPath name h) (fun step s => (step.run h s).2)
    (HashShell.new s) (fun _ => rfl) uses
  simp only [HashShell.transparent_iff_faithful, DirShell.names_iff]
  constructor
  · intro htransparent
    exact ⟨hfaithful.1 fun pre hpre => (htransparent pre hpre).1,
      fun pre hpre => (htransparent pre hpre).2⟩
  · rintro ⟨hnames, hfirst⟩ pre hpre
    exact ⟨hfaithful.2 hnames pre hpre, hfirst pre hpre⟩

end

section Fixture

attribute [local instance] composed asciiCasing

/-- A host with a program `x` in each of `/a` and `/b`. -/
def twoPrograms : Host := .ofTrees [.ofEntries [([os "a"], .dir), ([os "a", os "x"], .file),
  ([os "b"], .dir), ([os "b", os "x"], .file)]]

/-- `PATH=text`. -/
def setPath (text : String) : Use OsStr DirStep :=
  .act (.edit fun env => (DirShell.assignText env pathName text.toList).2)

/-- `PATH=/a; x; PATH=/b`. -/
def movedPath : List (Use OsStr DirStep) := [setPath "/a", .ask (os "x"), setPath "/b"]

/-- A shell that has started at `/` of that host, with nothing cached. -/
def freshShell : HashShell := .new (.new (mountedAt .root) (os "/") [] twoPrograms)

/-- **A stale hit.** With `PATH=/b` the cache still answers the program of `/a`. -/
theorem not_transparent_stale :
    ((freshShell.after twoPrograms movedPath).findFirstExecutableInPathUsingCache (os "x")
      twoPrograms).1 = some (os "/a/x") ∧
    (freshShell.after twoPrograms movedPath).state.findFirstExecutableInPath (os "x")
      twoPrograms = some (os "/b/x") ∧
    ¬ (freshShell.after twoPrograms movedPath).Transparent twoPrograms := by
  have hcached : ((freshShell.after twoPrograms movedPath).findFirstExecutableInPathUsingCache
      (os "x") twoPrograms).1 = some (os "/a/x") := by decide +kernel
  have hfound : (freshShell.after twoPrograms movedPath).state.findFirstExecutableInPath (os "x")
      twoPrograms = some (os "/b/x") := by decide +kernel
  refine ⟨hcached, hfound, fun h => ?_⟩
  have hx := (h (os "x")).1
  rw [hcached, hfound] at hx
  exact absurd hx (by decide)

end Fixture

end Seahaven.Shell
