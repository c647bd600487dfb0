import Seahaven.Host.Walk
import Seahaven.Lib.Op

/-!
# Calls beneath an open directory

What `cap-std` asks of the operating system beneath a directory handle. A call looks at the tree and
either fails or decides on one edit; a call that only answers decides on none. The process may read
and write everything beneath its directories, so what a call is refused for is the tree's shape.
-/

namespace Seahaven.Host

open OsStr

/-! ## Edits -/

/-- One change of a tree. -/
inductive Edit
  /-- A new object at the entry. -/
  | add (dir : HostPath) (name : OsStr) (kind : Kind) (a : Attr)
  /-- A further name for what is at `src`. -/
  | alias (src dir : HostPath) (name : OsStr)
  | prune (dir : HostPath) (name : OsStr)
  | move (src dir : HostPath) (name : OsStr)
  | set (ino : Nat) (a : Attr)
  deriving DecidableEq

def Edit.Plain : Edit → Prop
  | .add _ _ (.link _) _ => False
  | .add _ _ _ _ => True
  | .set _ _ => True
  | _ => False

variable {n : Node}

namespace Tree

def CanAlias (t : Tree) (src dir : HostPath) (name : OsStr) (n : Node) : Prop :=
  t.CanInsert dir name ∧ t.node src = some n ∧ n.kind ≠ .dir

instance (t : Tree) (src dir : HostPath) (name : OsStr) (n : Node) :
    Decidable (t.CanAlias src dir name n) := inferInstanceAs (Decidable (_ ∧ _ ∧ _))

theorem fits_new (t : Tree) {kind : Kind} : t.Fits ⟨t.next, kind⟩ := .inl rfl

theorem fits_alias (t : Tree) {src dir : HostPath} {name : OsStr}
    (h : t.CanAlias src dir name n) : t.Fits n := .inr ⟨src, h.2⟩

/-- The tree after an edit. A name no directory can hold is refused. -/
def apply (t : Tree) : Edit → Except IoError Tree
  | .add dir name kind a =>
    if h : t.CanInsert dir name then
      .ok ((t.insert dir name ⟨t.next, kind⟩ h t.fits_new).setAttr t.next a)
    else .error (.os .inval)
  | .alias src dir name =>
    match t.node src with
    | none => .error (.os .noent)
    | some n =>
      if h : t.CanAlias src dir name n then .ok (t.insert dir name n h.1 (t.fits_alias h))
      else .error (.os .inval)
  | .prune dir name => .ok (t.prune (dir ++ [name]) (by simp))
  | .move src dir name =>
    if h : t.CanMove src dir name then .ok (t.move src dir name h) else .error (.os .inval)
  | .set i a => .ok (t.setAttr i a)

def applyAll (t : Tree) (es : List Edit) : Tree :=
  es.foldl (fun t e => (t.apply e).toOption.getD t) t

/-- A tree of these entries, each listed after the directory it is in. Its files are empty. -/
def ofEntries (entries : List (HostPath × Kind)) : Tree :=
  bare.applyAll <| entries.map fun (p, kind) =>
    .add p.dropLast (p.getLast?.getD []) kind ⟨[], 0o644, 0, 0, 0, 0⟩

section Apply

variable {t t' : Tree} {src dir : HostPath} {name : OsStr}

theorem apply_add {kind : Kind} {a : Attr} (h : t.apply (.add dir name kind a) = .ok t') :
    t.CanInsert dir name ∧
      (∀ q, t'.node q = if q = dir ++ [name] then some ⟨t.next, kind⟩ else t.node q) ∧
      ∀ i, t'.attr i = if i = t.next then a else t.attr i := by
  simp only [apply] at h
  split_ifs at h with hc
  obtain rfl := Except.ok.inj h
  exact ⟨hc, fun _ => rfl, fun _ => rfl⟩

theorem apply_alias (h : t.apply (.alias src dir name) = .ok t') :
    ∃ n, t.node src = some n ∧ n.kind ≠ .dir ∧ t.CanInsert dir name ∧
      (∀ q, t'.node q = if q = dir ++ [name] then some n else t.node q) ∧ t'.attr = t.attr := by
  simp only [apply] at h
  split at h
  · cases h
  · rename_i n hn
    split_ifs at h with hc
    obtain rfl := Except.ok.inj h
    exact ⟨n, hn, hc.2.2, hc.1, fun _ => rfl, rfl⟩

theorem apply_prune (h : t.apply (.prune dir name) = .ok t') :
    (∀ q, t'.node q = if dir ++ [name] <+: q then none else t.node q) ∧ t'.attr = t.attr := by
  obtain rfl := Except.ok.inj h
  exact ⟨fun _ => rfl, rfl⟩

theorem apply_move (h : t.apply (.move src dir name) = .ok t') : t.CanMove src dir name ∧
    (∀ q, t'.node q = (origin src (dir ++ [name]) q).bind t.node) ∧ t'.attr = t.attr := by
  simp only [apply] at h
  split_ifs at h with hc
  obtain rfl := Except.ok.inj h
  exact ⟨hc, fun _ => rfl, rfl⟩

theorem apply_set {i : Nat} {a : Attr} (h : t.apply (.set i a) = .ok t') :
    t'.node = t.node ∧ ∀ j, t'.attr j = if j = i then a else t.attr j := by
  obtain rfl := Except.ok.inj h
  exact ⟨rfl, fun _ => rfl⟩

end Apply

/-! ## Answers -/

/-- The object a path leads to. -/
def stat (t : Tree) (root : HostPath) (follow : Bool) (rel : List OsStr) :
    Except IoError (HostPath × Node) :=
  match t.lookup root follow rel with
  | .error e => .error e
  | .ok p =>
    match t.node p with
    | some n => .ok (p, n)
    | none => .error (.os .noent)

/-- The directory a path's last component is to be looked up in, and that component. -/
def lookupEntry (t : Tree) (root : HostPath) (rel : List OsStr) :
    Except IoError (HostPath × OsStr) :=
  match t.lookup root false rel with
  | .error e => .error e
  | .ok p =>
    match p.getLast? with
    | some name => .ok (p.dropLast, name)
    | none => .error (.os .inval)

/-- `open_dir`: the directory a path leads to. -/
def openDir (t : Tree) (root : HostPath) (rel : List OsStr) : Except IoError Nat :=
  match t.stat root true rel with
  | .error e => .error e
  | .ok (_, n) => if n.kind = .dir then .ok n.ino else .error (.os .notdir)

/-- `read_link_contents`: what the link at a path holds. -/
def readLink (t : Tree) (root : HostPath) (rel : List OsStr) : Except IoError OsStr :=
  match t.stat root false rel with
  | .error e => .error e
  | .ok (_, ⟨_, .link target⟩) => .ok target
  | .ok _ => .error (.os .inval)

/-! ## Calls that edit -/

end Tree

/-- What the process gives to the objects it makes. -/
structure Proc where
  uid : Nat
  gid : Nat
  umask : Nat
  now : Int

/-- What a new object of this mode carries. -/
def Proc.attr (proc : Proc) (mode : Nat) : Attr where
  content := []
  mode := (mode &&& 0o7777) ^^^ (mode &&& 0o7777 &&& proc.umask)
  uid := proc.uid
  gid := proc.gid
  atime := proc.now
  mtime := proc.now

namespace Tree

/-- `mkdirat(2)`. -/
def mkdir (t : Tree) (proc : Proc) (root : HostPath) (rel : List OsStr) (mode : Nat) :
    Except IoError Edit :=
  match t.lookupEntry root rel with
  | .error e => .error e
  | .ok (dir, name) =>
    if t.isPresent (dir ++ [name]) then .error (.os .exist)
    else .ok (.add dir name .dir (proc.attr mode))

/-- `unlinkat(2)` on anything but a directory. -/
def unlink (t : Tree) (root : HostPath) (rel : List OsStr) : Except IoError Edit :=
  match t.lookupEntry root rel with
  | .error e => .error e
  | .ok (dir, name) =>
    match t.node (dir ++ [name]) with
    | none => .error (.os .noent)
    | some n => if n.kind = .dir then .error (.os .isdir) else .ok (.prune dir name)

/-- `unlinkat(2)` on an empty directory. -/
def rmdir (t : Tree) (root : HostPath) (rel : List OsStr) : Except IoError Edit :=
  match t.lookupEntry root rel with
  | .error e => .error e
  | .ok (dir, name) =>
    match t.node (dir ++ [name]) with
    | none => .error (.os .noent)
    | some n =>
      if n.kind = .dir then
        if t.names (dir ++ [name]) = [] then .ok (.prune dir name) else .error (.os .notempty)
      else .error (.os .notdir)

/-- `remove_dir_all`: a link is removed itself, a directory with all it holds. -/
def removeTree (t : Tree) (root : HostPath) (rel : List OsStr) : Except IoError Edit :=
  match t.lookupEntry root rel with
  | .error e => .error e
  | .ok (dir, name) =>
    match t.node (dir ++ [name]) with
    | none => .error (.os .noent)
    | some ⟨_, .dir⟩ => .ok (.prune dir name)
    | some ⟨_, .link _⟩ => .ok (.prune dir name)
    | some _ => .error (.os .notdir)

/-- What `renameat(2)` does once `n` is found at `src` and the new entry's directory is known. Two
names of one object are left as they are. -/
def renameFound (t : Tree) (src : HostPath) (n : Node) (dir : HostPath) (name : OsStr) :
    Except IoError (Option Edit) :=
  match t.node (dir ++ [name]) with
  | none => .ok (some (.move src dir name))
  | some m =>
    if m.ino = n.ino then .ok none
    else if n.kind = .dir ∧ m.kind ≠ .dir then .error (.os .notdir)
    else if n.kind ≠ .dir ∧ m.kind = .dir then .error (.os .isdir)
    else if m.kind = .dir ∧ t.names (dir ++ [name]) ≠ [] then .error (.os .notempty)
    else .ok (some (.move src dir name))

/-- `renameat(2)`. -/
def rename (t : Tree) (root : HostPath) (src dst : List OsStr) : Except IoError (Option Edit) :=
  match t.lookupEntry root src with
  | .error e => .error e
  | .ok (sdir, sname) =>
    match t.lookupEntry root dst with
    | .error e => .error e
    | .ok (ddir, dname) =>
      match t.node (sdir ++ [sname]) with
      | none => .error (.os .noent)
      | some n =>
        if (sdir ++ [sname]).isPrefixOf ddir then .error (.os .inval)
        else if (ddir ++ [dname]).isPrefixOf sdir then .error (.os .notempty)
        else t.renameFound (sdir ++ [sname]) n ddir dname

/-- `linkat(2)`, which names a final link itself. -/
def link (t : Tree) (root : HostPath) (src dst : List OsStr) : Except IoError Edit :=
  match t.stat root false src with
  | .error e => .error e
  | .ok (p, n) =>
    match t.lookupEntry root dst with
    | .error e => .error e
    | .ok (dir, name) =>
      if t.isPresent (dir ++ [name]) then .error (.os .exist)
      else if n.kind = .dir then .error (.os .perm)
      else .ok (.alias p dir name)

/-- `symlinkat(2)`. An absolute target is refused before the call. -/
def symlink (t : Tree) (proc : Proc) (root : HostPath) (target : OsStr) (rel : List OsStr) :
    Except IoError Edit :=
  if target.isAbsolute then .error escapeAttempt
  else
    match t.lookupEntry root rel with
    | .error e => .error e
    | .ok (dir, name) =>
      if t.isPresent (dir ++ [name]) then .error (.os .exist)
      else .ok (.add dir name (.link target) (proc.attr 0o777))

/-- `fchmod(2)` on what a path leads to. -/
def chmod (t : Tree) (root : HostPath) (rel : List OsStr) (mode : Nat) : Except IoError Edit :=
  match t.stat root true rel with
  | .error e => .error e
  | .ok (_, n) => .ok (.set n.ino { t.attr n.ino with mode := mode })

/-- `utimensat(2)`. -/
def utimes (t : Tree) (root : HostPath) (follow : Bool) (rel : List OsStr) (atime mtime : Int) :
    Except IoError Edit :=
  match t.stat root follow rel with
  | .error e => .error e
  | .ok (_, n) => .ok (.set n.ino { t.attr n.ino with atime := atime, mtime := mtime })

end Tree

/-! ## `openat2(2)` -/

abbrev OFlags := BitVec 32

namespace OFlags

def accmode : OFlags := 0o3
def wronly : OFlags := 0o1
def rdwr : OFlags := 0o2
def creat : OFlags := 0o100
def excl : OFlags := 0o200
def trunc : OFlags := 0o1000
def append : OFlags := 0o2000
def nonblock : OFlags := 0o4000
def directory : OFlags := 0o200000
def nofollow : OFlags := 0o400000
def cloexec : OFlags := 0o2000000
def path : OFlags := 0o10000000
def tmpfile : OFlags := 0o20000000

def valid : OFlags := 0o37777703

/-- The flags that may stand beside `path`. -/
def pathFlags : OFlags := path ||| directory ||| nofollow ||| cloexec

def has (flags flag : OFlags) : Bool := flags &&& flag ≠ 0

def writes (flags : OFlags) : Bool := flags.has (wronly ||| rdwr)

/-- The combinations `openat2` takes. -/
def accepted (flags : OFlags) : Bool :=
  !flags.has (~~~valid) && !(flags.has path && flags.has (~~~pathFlags)) &&
    !(flags.has creat && flags.has directory) &&
    !(flags.has tmpfile && !(flags.has directory && flags.writes))

end OFlags

namespace Tree

open OFlags

/-- Opens what is there. -/
def openFound (t : Tree) (flags : OFlags) (n : Node) : Except IoError (Node × Option Edit) :=
  if flags.has creat && flags.has excl then .error (.os .exist)
  else
    match n.kind with
    | .dir =>
      -- an unnamed file changes no directory
      if flags.has tmpfile then .ok (⟨t.next, .file⟩, none)
      else if flags.has creat || flags.has trunc || flags.writes then .error (.os .isdir)
      else .ok (n, none)
    | .link _ => if flags.has path then .ok (n, none) else .error (.os .loop)
    | .file =>
      if flags.has directory then .error (.os .notdir)
      else if flags.has trunc then .ok (n, some (.set n.ino { t.attr n.ino with content := [] }))
      else .ok (n, none)
    | .special kind =>
      if flags.has directory then .error (.os .notdir)
      else if kind = .socket ∧ flags.has path = false then .error (.os .nxio)
      else .ok (n, none)

/-- Opens what is missing, where the flags ask for it to be made. -/
def openMissing (t : Tree) (proc : Proc) (p : HostPath) (flags : OFlags) (mode : Nat) :
    Except IoError (Node × Option Edit) :=
  if flags.has creat then
    match p.getLast? with
    | some name => .ok (⟨t.next, .file⟩, some (.add p.dropLast name .file (proc.attr mode)))
    | none => .error (.os .isdir)
  else .error (.os .noent)

def followsFinal (flags : OFlags) : Bool :=
  !flags.has nofollow && !(flags.has creat && flags.has excl)

/-- Opens what a path leads to, with what the flag word does on the way. -/
def openat (t : Tree) (proc : Proc) (root : HostPath) (rel : List OsStr) (flags : OFlags)
    (mode : Nat) : Except IoError (Node × Option Edit) :=
  if !flags.accepted then .error (.os .inval)
  else
    match t.lookup root (followsFinal flags) rel with
    | .error e => .error e
    | .ok p =>
      match t.node p with
      | none => t.openMissing proc p flags mode
      | some n => t.openFound flags n

end Tree

/-! ## What a call decides on

Each call that succeeds found what it needed where its path leads, and says which edit it makes. -/

namespace Tree

variable {t : Tree} {proc : Proc} {root : HostPath} {rel : List OsStr} {e : Edit}

theorem stat_eq_ok {follow : Bool} {p : HostPath} :
    t.stat root follow rel = .ok (p, n) ↔
      t.lookup root follow rel = .ok p ∧ t.node p = some n := by
  unfold stat
  cases hl : t.lookup root follow rel with
  | error err => simp
  | ok q =>
    dsimp only
    cases hn : t.node q with
    | none =>
      simp only [reduceCtorEq, Except.ok.injEq, false_iff, not_and]
      rintro rfl
      simp [hn]
    | some m =>
      simp only [Except.ok.injEq, Prod.mk.injEq]
      constructor
      · rintro ⟨rfl, rfl⟩
        exact ⟨rfl, hn⟩
      · rintro ⟨rfl, hm⟩
        exact ⟨rfl, Option.some.inj (hn.symm.trans hm)⟩

theorem openDir_eq_ok {i : Nat} : t.openDir root rel = .ok i ↔
    ∃ p, t.lookup root true rel = .ok p ∧ t.node p = some ⟨i, .dir⟩ := by
  unfold openDir
  cases hs : t.stat root true rel with
  | error err =>
    simp only [reduceCtorEq, false_iff, not_exists, not_and]
    intro p hp hn
    rw [stat_eq_ok.2 ⟨hp, hn⟩] at hs
    cases hs
  | ok x =>
    obtain ⟨p, ⟨j, k⟩⟩ := x
    obtain ⟨hp, hn⟩ := stat_eq_ok.1 hs
    dsimp only
    rw [hp]
    split_ifs with hk
    · subst hk
      simp [hn]
    · simp [hn, hk]

theorem lookupEntry_eq_ok {dir : HostPath} {name : OsStr} :
    t.lookupEntry root rel = .ok (dir, name) ↔ t.lookup root false rel = .ok (dir ++ [name]) := by
  unfold lookupEntry
  cases hl : t.lookup root false rel with
  | error err => simp
  | ok p =>
    cases hp : p.getLast? with
    | none =>
      obtain rfl := List.getLast?_eq_none_iff.1 hp
      simp
    | some c =>
      obtain ⟨q, rfl⟩ := List.getLast?_eq_some_iff.1 hp
      simp

variable {mode : Nat}

theorem mkdir_eq_ok (h : t.mkdir proc root rel mode = .ok e) :
    ∃ dir name, t.lookup root false rel = .ok (dir ++ [name]) ∧
      e = .add dir name .dir (proc.attr mode) := by
  unfold mkdir at h
  split at h
  · cases h
  · rename_i dir name hentry
    split_ifs at h
    exact ⟨dir, name, lookupEntry_eq_ok.1 hentry, (Except.ok.inj h).symm⟩

theorem unlink_eq_ok (h : t.unlink root rel = .ok e) :
    ∃ dir name n, t.lookup root false rel = .ok (dir ++ [name]) ∧
      t.node (dir ++ [name]) = some n ∧ n.kind ≠ .dir ∧ e = .prune dir name := by
  unfold unlink at h
  split at h
  · cases h
  · rename_i dir name hentry
    split at h
    · cases h
    · rename_i n hn
      split_ifs at h with hk
      exact ⟨dir, name, n, lookupEntry_eq_ok.1 hentry, hn, hk, (Except.ok.inj h).symm⟩

theorem rmdir_eq_ok (h : t.rmdir root rel = .ok e) :
    ∃ dir name, t.lookup root false rel = .ok (dir ++ [name]) ∧
      t.names (dir ++ [name]) = [] ∧ e = .prune dir name := by
  unfold rmdir at h
  split at h
  · cases h
  · rename_i dir name hentry
    split at h
    · cases h
    · split_ifs at h with hk hnames
      exact ⟨dir, name, lookupEntry_eq_ok.1 hentry, hnames, (Except.ok.inj h).symm⟩

theorem removeTree_eq_ok (h : t.removeTree root rel = .ok e) :
    ∃ dir name, t.lookup root false rel = .ok (dir ++ [name]) ∧ e = .prune dir name := by
  unfold removeTree at h
  split at h
  · cases h
  · rename_i dir name hentry
    refine ⟨dir, name, lookupEntry_eq_ok.1 hentry, ?_⟩
    split at h
    · cases h
    · exact (Except.ok.inj h).symm
    · exact (Except.ok.inj h).symm
    · cases h

theorem renameFound_eq_ok {src dir : HostPath} {name : OsStr}
    (h : t.renameFound src n dir name = .ok (some e)) :
    (∀ m, t.node (dir ++ [name]) = some m → m.kind = .dir → t.names (dir ++ [name]) = []) ∧
      e = .move src dir name := by
  unfold renameFound at h
  split at h
  · rename_i hnone
    refine ⟨fun m hm => ?_, (Option.some.inj (Except.ok.inj h)).symm⟩
    rw [hnone] at hm
    cases hm
  · rename_i m hm
    split_ifs at h with _ _ _ hempty
    · cases h
    · refine ⟨fun m' hm' hk => ?_, (Option.some.inj (Except.ok.inj h)).symm⟩
      obtain rfl := Option.some.inj (hm.symm.trans hm')
      by_contra hne
      exact hempty ⟨hk, hne⟩

theorem rename_eq_ok {src dst : List OsStr} (h : t.rename root src dst = .ok (some e)) :
    ∃ sdir sname ddir dname n, t.lookup root false src = .ok (sdir ++ [sname]) ∧
      t.lookup root false dst = .ok (ddir ++ [dname]) ∧ t.node (sdir ++ [sname]) = some n ∧
      (∀ m, t.node (ddir ++ [dname]) = some m → m.kind = .dir →
        t.names (ddir ++ [dname]) = []) ∧
      e = .move (sdir ++ [sname]) ddir dname := by
  unfold rename at h
  split at h
  · cases h
  · rename_i sdir sname hsrc
    split at h
    · cases h
    · rename_i ddir dname hdst
      split at h
      · cases h
      · rename_i n hn
        split_ifs at h
        obtain ⟨hempty, he⟩ := renameFound_eq_ok h
        exact ⟨sdir, sname, ddir, dname, n, lookupEntry_eq_ok.1 hsrc, lookupEntry_eq_ok.1 hdst, hn,
          hempty, he⟩

theorem link_eq_ok {src dst : List OsStr} (h : t.link root src dst = .ok e) :
    ∃ p n dir name, t.lookup root false src = .ok p ∧ t.node p = some n ∧ n.kind ≠ .dir ∧
      t.lookup root false dst = .ok (dir ++ [name]) ∧ e = .alias p dir name := by
  unfold link at h
  split at h
  · cases h
  · rename_i p n hsrc
    obtain ⟨hp, hn⟩ := stat_eq_ok.1 hsrc
    split at h
    · cases h
    · rename_i dir name hentry
      split_ifs at h with _ hk
      exact ⟨p, n, dir, name, hp, hn, hk, lookupEntry_eq_ok.1 hentry, (Except.ok.inj h).symm⟩

theorem symlink_eq_ok {target : OsStr} (h : t.symlink proc root target rel = .ok e) :
    ∃ dir name, t.lookup root false rel = .ok (dir ++ [name]) ∧
      e = .add dir name (.link target) (proc.attr 0o777) := by
  unfold symlink at h
  split_ifs at h
  split at h
  · cases h
  · rename_i dir name hentry
    split_ifs at h
    exact ⟨dir, name, lookupEntry_eq_ok.1 hentry, (Except.ok.inj h).symm⟩

theorem chmod_eq_ok (h : t.chmod root rel mode = .ok e) :
    ∃ p n a, t.lookup root true rel = .ok p ∧ t.node p = some n ∧ e = .set n.ino a := by
  unfold chmod at h
  split at h
  · cases h
  · rename_i p n hstat
    obtain ⟨hp, hn⟩ := stat_eq_ok.1 hstat
    exact ⟨p, n, _, hp, hn, (Except.ok.inj h).symm⟩

theorem utimes_eq_ok {follow : Bool} {atime mtime : Int}
    (h : t.utimes root follow rel atime mtime = .ok e) :
    ∃ p n a, t.lookup root follow rel = .ok p ∧ t.node p = some n ∧ e = .set n.ino a := by
  unfold utimes at h
  split at h
  · cases h
  · rename_i p n hstat
    obtain ⟨hp, hn⟩ := stat_eq_ok.1 hstat
    exact ⟨p, n, _, hp, hn, (Except.ok.inj h).symm⟩

open OFlags

variable {flags : OFlags}

theorem openFound_eq_ok {m : Node}
    (h : t.openFound flags m = .ok (n, some e)) : flags.has trunc = true ∧
      (flags.has creat && flags.has excl) = false ∧ flags.has directory = false ∧ n = m ∧
      m.kind = .file ∧ e = .set m.ino { t.attr m.ino with content := [] } := by
  unfold openFound at h
  split at h
  · cases h
  · rename_i hexcl
    split at h
    · split_ifs at h <;> cases h
    · split_ifs at h
      cases h
    · rename_i hkind
      split_ifs at h with hdir htrunc
      · obtain ⟨rfl, he⟩ := Prod.mk.inj (Except.ok.inj h)
        exact ⟨htrunc, by simpa using hexcl, by simpa using hdir, rfl, hkind,
          (Option.some.inj he).symm⟩
      · cases h
    · split_ifs at h
      cases h

theorem openMissing_eq_ok {p : HostPath}
    (h : t.openMissing proc p flags mode = .ok (n, some e)) : flags.has creat = true ∧
      ∃ dir name, p = dir ++ [name] ∧ e = .add dir name .file (proc.attr mode) := by
  unfold openMissing at h
  split at h
  · rename_i hcreat
    split at h
    · rename_i name hname
      obtain ⟨dir, rfl⟩ := List.getLast?_eq_some_iff.1 hname
      rw [List.dropLast_concat] at h
      exact ⟨hcreat, dir, name, rfl, (Option.some.inj (Prod.mk.inj (Except.ok.inj h)).2).symm⟩
    · cases h
  · cases h

theorem openat_node {e : Option Edit}
    (h : t.openat proc root rel flags mode = .ok (n, e)) : n.ino = t.next ∨
      ∃ p, t.lookup root (followsFinal flags) rel = .ok p ∧ t.node p = some n := by
  unfold openat at h
  split at h
  · cases h
  · split at h
    · cases h
    · rename_i p hp
      split at h
      · unfold openMissing at h
        split at h
        · split at h
          · exact Or.inl (congrArg Node.ino (Prod.mk.inj (Except.ok.inj h)).1).symm
          · cases h
        · cases h
      · rename_i m hm
        have hn : n = m ∨ n = ⟨t.next, .file⟩ := by
          unfold openFound at h
          grind
        rcases hn with rfl | rfl
        · exact Or.inr ⟨p, hp, hm⟩
        · exact Or.inl rfl

theorem openat_eq_ok
    (h : t.openat proc root rel flags mode = .ok (n, some e)) : flags.accepted = true ∧
      ∃ p, t.lookup root (followsFinal flags) rel = .ok p ∧
        ((flags.has creat = true ∧ t.node p = none ∧
            ∃ dir name, p = dir ++ [name] ∧ e = .add dir name .file (proc.attr mode)) ∨
          (flags.has trunc = true ∧ (flags.has creat && flags.has excl) = false ∧
            flags.has directory = false ∧ t.node p = some n ∧ n.kind = .file ∧
            e = .set n.ino { t.attr n.ino with content := [] })) := by
  unfold openat at h
  split at h
  · cases h
  · rename_i hacc
    refine ⟨by simpa using hacc, ?_⟩
    split at h
    · cases h
    · rename_i p hp
      refine ⟨p, hp, ?_⟩
      split at h
      · rename_i hnone
        obtain ⟨hcreat, dir, name, hd, he⟩ := openMissing_eq_ok h
        exact Or.inl ⟨hcreat, hnone, dir, name, hd, he⟩
      · rename_i m hm
        obtain ⟨htrunc, hexcl, hdir, rfl, hkind, he⟩ := openFound_eq_ok h
        exact Or.inr ⟨htrunc, hexcl, hdir, hm, hkind, he⟩

theorem openFound_named {m : Node} {e : Option Edit}
    (htmp : flags.has tmpfile = false) (hpath : flags.has path = false)
    (h : t.openFound flags m = .ok (n, e)) : n = m ∧ (∀ target, m.kind ≠ .link target) ∧
      (e = none ∨ ∃ a, e = some (.set m.ino a)) := by
  unfold openFound at h
  split at h
  · cases h
  · split at h
    · rename_i hkind
      rw [htmp, if_neg (by simp)] at h
      split_ifs at h
      obtain ⟨rfl, rfl⟩ := Prod.mk.inj (Except.ok.inj h)
      exact ⟨rfl, by simp [hkind], Or.inl rfl⟩
    · rw [hpath] at h
      cases h
    · rename_i hkind
      split_ifs at h
      · obtain ⟨rfl, rfl⟩ := Prod.mk.inj (Except.ok.inj h)
        exact ⟨rfl, by simp [hkind], Or.inr ⟨_, rfl⟩⟩
      · obtain ⟨rfl, rfl⟩ := Prod.mk.inj (Except.ok.inj h)
        exact ⟨rfl, by simp [hkind], Or.inl rfl⟩
    · rename_i hkind
      split_ifs at h
      obtain ⟨rfl, rfl⟩ := Prod.mk.inj (Except.ok.inj h)
      exact ⟨rfl, by simp [hkind], Or.inl rfl⟩

/-- **What an open opens**, other than a bare reference and an unnamed file: what its path leads to
through a final link, or a new file there. -/
theorem openat_named {e : Option Edit}
    (htmp : flags.has tmpfile = false) (hpath : flags.has path = false)
    (h : t.openat proc root rel flags mode = .ok (n, e)) :
    ∃ p, t.lookup root (followsFinal flags) rel = .ok p ∧ t.lookup root true rel = .ok p ∧
      ((t.node p = some n ∧ (e = none ∨ ∃ a, e = some (.set n.ino a))) ∨
        (t.node p = none ∧ n = ⟨t.next, .file⟩ ∧
          ∃ dir name a, p = dir ++ [name] ∧ e = some (.add dir name .file a))) := by
  unfold openat at h
  split at h
  · cases h
  split at h
  · cases h
  rename_i p hp
  have hlook : t.linkAt p = none → t.lookup root true rel = .ok p := fun hlink => by
    cases hf : followsFinal flags with
    | true => rwa [hf] at hp
    | false =>
      rw [hf] at hp
      exact lookup_unlinked hp hlink
  split at h
  · rename_i hnone
    refine ⟨p, hp, hlook (by rw [linkAt, hnone]), Or.inr ⟨hnone, ?_⟩⟩
    unfold openMissing at h
    split at h
    · split at h
      · rename_i name hname
        obtain ⟨dir, rfl⟩ := List.getLast?_eq_some_iff.1 hname
        rw [List.dropLast_concat] at h
        obtain ⟨rfl, rfl⟩ := Prod.mk.inj (Except.ok.inj h)
        exact ⟨rfl, dir, name, _, rfl, rfl⟩
      · cases h
    · cases h
  · rename_i m hm
    obtain ⟨rfl, hkind, he⟩ := openFound_named htmp hpath h
    refine ⟨p, hp, hlook ?_, Or.inl ⟨hm, he⟩⟩
    by_contra hne
    obtain ⟨target, ht⟩ := Option.ne_none_iff_exists'.1 hne
    obtain ⟨i, hi⟩ := linkAt_eq_some.1 ht
    exact hkind target (congrArg Node.kind (Option.some.inj (hm.symm.trans hi)))

end Tree

/-! ## The host -/

/-- What `access(2)` is asked. -/
structure AccessModes where
  readable : Bool
  writable : Bool
  executable : Bool
  deriving DecidableEq

end Seahaven.Host

namespace Seahaven

open Host in
/-- The trees beneath the directories the process holds open, none of which shares an object with
another, and the process itself. -/
structure Host where
  tree : Nat → Tree
  proc : Proc
  /-- The kernel's answer to `access(2)` on an object. -/
  permits : Kind → Attr → AccessModes → Bool

namespace Host

def set (h : Host) (i : Nat) (t : Tree) : Host := { h with tree := Function.update h.tree i t }

def ofTrees (trees : List Tree) : Host where
  tree i := trees.getD i .bare
  proc := ⟨0, 0, 0, 0⟩
  permits _ _ _ := true

variable {h : Host} {i j : Nat} {t : Tree}

@[simp] theorem tree_set_self : (h.set i t).tree i = t := by
  simp [set]

theorem tree_set_of_ne (hj : j ≠ i) : (h.set i t).tree j = h.tree j := by
  simp [set, hj]

@[simp] theorem permits_set : (h.set i t).permits = h.permits := rfl

@[simp] theorem proc_set : (h.set i t).proc = h.proc := rfl

end Host

end Seahaven
