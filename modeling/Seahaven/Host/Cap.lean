import Seahaven.Host.Call

/-!
# Directory handles

`cap_std::fs::Dir`: the calls a program makes beneath a directory it holds open. A handle follows
its directory when that is moved, and answers that nothing is there once it has been removed. Every
call changes at most the tree the handle is in.
-/

namespace Seahaven.Host

open OsStr

/-- `std::fs::Metadata`. -/
structure Metadata where
  dev : Nat
  ino : Nat
  kind : Kind
  attr : Attr
  deriving DecidableEq

namespace Metadata

def isDir (m : Metadata) : Bool := m.kind = .dir

def isFile (m : Metadata) : Bool := m.kind = .file

def isSymlink (m : Metadata) : Bool :=
  match m.kind with
  | .link _ => true
  | _ => false

theorem isSymlink_iff {m : Metadata} : m.isSymlink = true ↔ ∃ target, m.kind = .link target := by
  obtain ⟨dev, ino, kind, attr⟩ := m
  cases kind <;> simp [isSymlink]

def len (m : Metadata) : Nat :=
  match m.kind with
  | .link target => target.bytes.length
  | _ => m.attr.content.length

end Metadata

/-- An open file. -/
structure File where
  dev : Nat
  node : Node
  readable : Bool
  writable : Bool
  deriving DecidableEq

/-- `fstat(2)` on an open file. -/
def File.metadata (f : File) (h : Host) : Metadata :=
  ⟨f.dev, f.node.ino, f.node.kind, (h.tree f.dev).attr f.node.ino⟩

/-- `cap_std::fs::OpenOptions`. -/
structure OpenOptions where
  read : Bool
  write : Bool
  append : Bool
  create : Bool
  createNew : Bool
  truncate : Bool
  customFlags : OFlags
  mode : Nat
  deriving DecidableEq

variable {o : OpenOptions}

namespace OpenOptions

open OFlags

/-- The access mode of the flag word. -/
def accessMode (o : OpenOptions) : Option OFlags :=
  match o.read, o.write, o.append with
  | true, false, false => some 0
  | false, true, false => some wronly
  | true, true, false => some rdwr
  | false, _, true => some (wronly ||| OFlags.append)
  | true, _, true => some (rdwr ||| OFlags.append)
  | false, false, false => none

/-- The creation flags of the flag word. -/
def creationMode (o : OpenOptions) : Option OFlags :=
  if (!o.write && !o.append && (o.truncate || o.create || o.createNew)) ||
      (o.append && o.truncate && !o.createNew) then
    none
  else
    match o.create, o.truncate, o.createNew with
    | false, false, false => some 0
    | true, false, false => some creat
    | false, true, false => some trunc
    | true, true, false => some (creat ||| trunc)
    | _, _, true => some (creat ||| excl)

/-- The flag word of an open: the caller's own flags may add to it, but not to how the file may be
accessed. -/
def oflags (o : OpenOptions) : Except IoError OFlags :=
  match o.accessMode, o.creationMode with
  | some access, some creation =>
    .ok (cloexec ||| access ||| creation ||| (o.customFlags &&& ~~~accmode))
  | _, _ => .error (.os .inval)

theorem has_oflags {flags flag : OFlags} (ho : o.oflags = .ok flags)
    (hflag : flag = .path ∨ flag = .tmpfile) : flags.has flag = o.customFlags.has flag := by
  have hbits : ∀ a c : OFlags, (.cloexec ||| a ||| c) &&& flag = 0 →
      OFlags.has (.cloexec ||| a ||| c ||| (o.customFlags &&& ~~~.accmode)) flag =
        o.customFlags.has flag := by
    intro a c hac
    have hmask : (~~~OFlags.accmode) &&& flag = flag := by
      rcases hflag with rfl | rfl <;> decide
    have hzero : 0 ||| (o.customFlags &&& flag) = o.customFlags &&& flag := BitVec.zero_or
    rw [OFlags.has, OFlags.has, BitVec.and_or_distrib_right, hac, BitVec.and_assoc, hmask, hzero]
  unfold OpenOptions.oflags OpenOptions.accessMode OpenOptions.creationMode at ho
  split at ho
  · rename_i access creation haccess hcreation
    obtain rfl := Except.ok.inj ho
    refine hbits access creation ?_
    have ha : access = 0 ∨ access = .wronly ∨ access = .rdwr ∨ access = .wronly ||| .append ∨
        access = .rdwr ||| .append := by
      split at haccess <;> simp_all
    have hc : creation = 0 ∨ creation = .creat ∨ creation = .trunc ∨ creation = .creat ||| .trunc ∨
        creation = .creat ||| .excl := by
      split_ifs at hcreation
      split at hcreation <;> simp_all
    rcases hflag with rfl | rfl <;> rcases ha with rfl | rfl | rfl | rfl | rfl <;>
      rcases hc with rfl | rfl | rfl | rfl | rfl <;> decide
  · cases ho

end OpenOptions

namespace CapDir

variable {α : Type}

def ask (d : CapDir) (f : Tree → HostPath → Except IoError α) (h : Host) : Except IoError α :=
  match (h.tree d.tree).pathOf d.ino with
  | none => .error (.os .noent)
  | some root => f (h.tree d.tree) root

/-- The host after the edit a call has decided on. -/
def commit (d : CapDir) (h : Host) (a : α) : Option Edit → Except IoError (α × Host)
  | none => .ok (a, h)
  | some e =>
    match (h.tree d.tree).apply e with
    | .error e => .error e
    | .ok t => .ok (a, h.set d.tree t)

/-- A call that may edit. -/
def call (d : CapDir) (f : Proc → Tree → HostPath → Except IoError (α × Option Edit)) :
    Op Host IoError α :=
  .change fun h =>
    match d.ask (f h.proc) h with
    | .error e => .error e
    | .ok (a, e) => d.commit h a e

def edit (d : CapDir) (f : Proc → Tree → HostPath → Except IoError Edit) : Op Host IoError Unit :=
  d.call fun proc t root => (f proc t root).map fun e => ((), some e)

/-! ## Answers -/

def statWith (d : CapDir) (follow : Bool) (rel : List OsStr) (h : Host) :
    Except IoError Metadata :=
  d.ask (fun t root => (t.stat root follow rel).map fun (_, n) =>
    ⟨d.tree, n.ino, n.kind, t.attr n.ino⟩) h

def metadata (d : CapDir) : List OsStr → Host → Except IoError Metadata := d.statWith true

def symlinkMetadata (d : CapDir) : List OsStr → Host → Except IoError Metadata := d.statWith false

/-- `fstat(2)` on the handle. -/
def dirMetadata (d : CapDir) (h : Host) : Metadata :=
  ⟨d.tree, d.ino, .dir, (h.tree d.tree).attr d.ino⟩

def openDir (d : CapDir) (rel : List OsStr) (h : Host) : Except IoError CapDir :=
  d.ask (fun t root => (t.openDir root rel).map fun i => ⟨d.tree, i⟩) h

/-- `cap_primitives::fs::read_link_contents`. -/
def readLinkContents (d : CapDir) (rel : List OsStr) (h : Host) : Except IoError OsStr :=
  d.ask (fun t root => t.readLink root rel) h

def entries (d : CapDir) (h : Host) : Except IoError (List OsStr) :=
  d.ask (fun t root => .ok (t.names root)) h

/-- `cap_primitives::fs::access`, following a final link. -/
def access (d : CapDir) (rel : List OsStr) (modes : AccessModes) (h : Host) :
    Except IoError Unit :=
  d.ask (fun t root =>
    match t.stat root true rel with
    | .error e => .error e
    | .ok (_, n) =>
      if h.permits n.kind (t.attr n.ino) modes then .ok () else .error (.os .acces)) h

/-! ## Calls -/

def createDir (d : CapDir) (mode : Nat) (rel : List OsStr) : Op Host IoError Unit :=
  d.edit fun proc t root => t.mkdir proc root rel mode

def isDir (d : CapDir) (rel : List OsStr) (h : Host) : Bool :=
  match d.metadata rel h with
  | .ok m => m.isDir
  | .error _ => false

def orIsDir (d : CapDir) (rel : List OsStr) (e : IoError) : Op Host IoError Unit :=
  .read fun h => if d.isDir rel h then .ok () else .error e

/-- `create_dir_all` of the path whose components, last first, are given. -/
def createDirAllRev (d : CapDir) (mode : Nat) : List OsStr → Op Host IoError Unit
  | [] => pure ()
  | c :: parent => do
    let path := (c :: parent).reverse
    match ← (d.createDir mode path).attempt with
    | .ok () => pure ()
    | .error e =>
      if e.kind = .notFound then do
        d.createDirAllRev mode parent
        match ← (d.createDir mode path).attempt with
        | .ok () => pure ()
        | .error e => d.orIsDir path e
      else d.orIsDir path e

/-- `create_dir_all`: the directory, and before it whatever is missing above it. -/
def createDirAll (d : CapDir) (mode : Nat) (rel : List OsStr) : Op Host IoError Unit :=
  d.createDirAllRev mode rel.reverse

def removeFile (d : CapDir) (rel : List OsStr) : Op Host IoError Unit :=
  d.edit fun _ t root => t.unlink root rel

def removeDir (d : CapDir) (rel : List OsStr) : Op Host IoError Unit :=
  d.edit fun _ t root => t.rmdir root rel

def removeDirAll (d : CapDir) (rel : List OsStr) : Op Host IoError Unit :=
  d.edit fun _ t root => t.removeTree root rel

def rename (d : CapDir) (src dst : List OsStr) : Op Host IoError Unit :=
  d.call fun _ t root => (t.rename root src dst).map fun e => ((), e)

def hardLink (d : CapDir) (src dst : List OsStr) : Op Host IoError Unit :=
  d.edit fun _ t root => t.link root src dst

def symlink (d : CapDir) (target : OsStr) (rel : List OsStr) : Op Host IoError Unit :=
  d.edit fun proc t root => t.symlink proc root target rel

def setPermissions (d : CapDir) (rel : List OsStr) (mode : Nat) : Op Host IoError Unit :=
  d.edit fun _ t root => t.chmod root rel mode

def setTimes (d : CapDir) (follow : Bool) (rel : List OsStr) (atime mtime : Int) :
    Op Host IoError Unit :=
  d.edit fun _ t root => t.utimes root follow rel atime mtime

def openAs (d : CapDir) (rel : List OsStr) (flags : OFlags) (mode : Nat) : Op Host IoError File :=
  d.call fun proc t root => (t.openat proc root rel flags mode).map fun (n, e) =>
    (⟨d.tree, n, !flags.has .path && !flags.has .wronly, !flags.has .path && flags.writes⟩, e)

def openWith (d : CapDir) (rel : List OsStr) (o : OpenOptions) : Op Host IoError File :=
  .check o.oflags >>= fun flags => d.openAs rel flags o.mode

def setFile (f : File) (g : Attr → Attr) : Op Host IoError Unit :=
  .change fun h => .ok ((), h.set f.dev
    ((h.tree f.dev).setAttr f.node.ino (g ((h.tree f.dev).attr f.node.ino))))

def copyFrom : OpenOptions := ⟨true, false, false, false, false, false, 0, 0o666⟩

def copyTo (mode : Nat) : OpenOptions := ⟨false, true, false, true, false, true, 0, mode⟩

/-- `cap_primitives::fs::copy`: the content and the permissions of a regular file, through a final
link at either end. -/
def copy (src : CapDir) (rel : List OsStr) (dst : CapDir) (rel' : List OsStr) :
    Op Host IoError Nat := do
  let reader ← src.openWith rel copyFrom
  let attr ← Op.read fun h => .ok (reader.metadata h).attr
  if reader.node.kind ≠ .file then
    .check (.error (.custom .invalidInput (os "the source path is not an existing regular file")))
  else do
    let writer ← dst.openWith rel' (copyTo attr.mode)
    if writer.node.kind ≠ .file then
      pure attr.content.length
    else do
      setFile writer fun a => { a with mode := attr.mode }
      -- the source is read after the destination has been truncated: they may be one file
      let content ← Op.read fun h => .ok (reader.metadata h).attr.content
      setFile writer fun a => { a with content := content }
      pure content.length

/-! ## What a call changes -/

open Op

variable {d : CapDir} {h : Host} {R : Host → Host → Prop}

variable {a : α}

theorem ask_eq_ok {f : Tree → HostPath → Except IoError α} : d.ask f h = .ok a ↔
    ∃ root, (h.tree d.tree).pathOf d.ino = some root ∧ f (h.tree d.tree) root = .ok a := by
  unfold ask
  cases (h.tree d.tree).pathOf d.ino with
  | none => simp
  | some root => simp

theorem ask_map_eq_ok {β : Type} {f : Tree → HostPath → Except IoError α} {g : Tree → α → β}
    {b : β} : d.ask (fun t root => (f t root).map (g t)) h = .ok b ↔
      ∃ a, d.ask f h = .ok a ∧ g (h.tree d.tree) a = b := by
  unfold ask
  cases (h.tree d.tree).pathOf d.ino with
  | none => simp
  | some root => cases hf : f (h.tree d.tree) root <;> simp [Except.map, hf]

variable {h' : Host}

theorem commit_eq_ok {b : α} {e : Option Edit}
    (hc : d.commit h a e = .ok (b, h')) : a = b ∧ ((e = none ∧ h' = h) ∨
      ∃ e' t, e = some e' ∧ (h.tree d.tree).apply e' = .ok t ∧ h' = h.set d.tree t) := by
  cases e with
  | none =>
    obtain ⟨rfl, rfl⟩ := Prod.mk.inj (Except.ok.inj hc)
    exact ⟨rfl, Or.inl ⟨rfl, rfl⟩⟩
  | some e =>
    cases ht : (h.tree d.tree).apply e with
    | error err =>
      dsimp only [commit] at hc
      rw [ht] at hc
      cases hc
    | ok t =>
      dsimp only [commit] at hc
      rw [ht] at hc
      obtain ⟨rfl, rfl⟩ := Prod.mk.inj (Except.ok.inj hc)
      exact ⟨rfl, Or.inr ⟨e, t, rfl, ht, rfl⟩⟩

variable {rel : List OsStr}

theorem statWith_eq_ok {follow : Bool} {m : Metadata} :
    d.statWith follow rel h = .ok m ↔ ∃ root p n, (h.tree d.tree).pathOf d.ino = some root ∧
      (h.tree d.tree).lookup root follow rel = .ok p ∧ (h.tree d.tree).node p = some n ∧
      m = ⟨d.tree, n.ino, n.kind, (h.tree d.tree).attr n.ino⟩ := by
  unfold statWith
  rw [ask_map_eq_ok]
  constructor
  · rintro ⟨⟨p, n⟩, hstat, rfl⟩
    obtain ⟨root, hroot, hstat⟩ := ask_eq_ok.1 hstat
    obtain ⟨hp, hn⟩ := Tree.stat_eq_ok.1 hstat
    exact ⟨root, p, n, hroot, hp, hn, rfl⟩
  · rintro ⟨root, p, n, hroot, hp, hn, rfl⟩
    exact ⟨(p, n), ask_eq_ok.2 ⟨root, hroot, Tree.stat_eq_ok.2 ⟨hp, hn⟩⟩, rfl⟩

theorem openDir_eq_ok {d' : CapDir} : d.openDir rel h = .ok d' ↔
    ∃ root p i, (h.tree d.tree).pathOf d.ino = some root ∧
      (h.tree d.tree).lookup root true rel = .ok p ∧
      (h.tree d.tree).node p = some ⟨i, .dir⟩ ∧ d' = ⟨d.tree, i⟩ := by
  unfold openDir
  rw [ask_map_eq_ok]
  constructor
  · rintro ⟨i, hask, rfl⟩
    obtain ⟨root, hroot, hi⟩ := ask_eq_ok.1 hask
    obtain ⟨p, hp, hn⟩ := Tree.openDir_eq_ok.1 hi
    exact ⟨root, p, i, hroot, hp, hn, rfl⟩
  · rintro ⟨root, p, i, hroot, hp, hn, rfl⟩
    exact ⟨i, ask_eq_ok.2 ⟨root, hroot, Tree.openDir_eq_ok.2 ⟨p, hp, hn⟩⟩, rfl⟩

theorem keepsAt_call [Std.Refl R] {f : Proc → Tree → HostPath → Except IoError (α × Option Edit)}
    (hf : ∀ a e t, d.ask (f h.proc) h = .ok (a, some e) → (h.tree d.tree).apply e = .ok t →
      R h (h.set d.tree t)) : KeepsAt R (d.call f) h := by
  refine keepsAt_change fun b h' hb => ?_
  cases ha : d.ask (f h.proc) h with
  | error e =>
    rw [ha] at hb
    cases hb
  | ok x =>
    obtain ⟨a, e⟩ := x
    rw [ha] at hb
    rcases (commit_eq_ok hb).2 with ⟨rfl, rfl⟩ | ⟨e', t, rfl, ht, rfl⟩
    · exact refl_of R _
    · exact hf a e' t ha ht

variable {f : Proc → Tree → HostPath → Except IoError Edit}

theorem keepsAt_edit [Std.Refl R]
    (hf : ∀ e t, d.ask (f h.proc) h = .ok e → (h.tree d.tree).apply e = .ok t →
      R h (h.set d.tree t)) : KeepsAt R (d.edit f) h := by
  refine keepsAt_call fun a e t ha ht => hf e t ?_ ht
  obtain ⟨e', he', heq⟩ := ask_map_eq_ok.1 ha
  rwa [← Option.some.inj (Prod.mk.inj heq).2]

theorem call_eq_ok {f : Proc → Tree → HostPath → Except IoError (α × Option Edit)}
    (ha : d.call f h = (.ok a, h')) : ∃ e, d.ask (f h.proc) h = .ok (a, e) ∧
      ((e = none ∧ h' = h) ∨
        ∃ e' t, e = some e' ∧ (h.tree d.tree).apply e' = .ok t ∧ h' = h.set d.tree t) := by
  have ha := change_eq_ok.1 ha
  cases hask : d.ask (f h.proc) h with
  | error e =>
    rw [hask] at ha
    cases ha
  | ok x =>
    obtain ⟨b, e⟩ := x
    rw [hask] at ha
    obtain ⟨rfl, hc⟩ := commit_eq_ok ha
    exact ⟨e, rfl, hc⟩

theorem edit_eq_ok
    (ha : d.edit f h = (.ok (), h')) : ∃ root e t, (h.tree d.tree).pathOf d.ino = some root ∧
      f h.proc (h.tree d.tree) root = .ok e ∧ (h.tree d.tree).apply e = .ok t ∧
      h' = h.set d.tree t := by
  obtain ⟨e, hask, hc⟩ := call_eq_ok ha
  obtain ⟨e', he', heq⟩ := ask_map_eq_ok.1 hask
  obtain ⟨root, hroot, hf⟩ := ask_eq_ok.1 he'
  obtain rfl := (Prod.mk.inj heq).2
  obtain ⟨hnone, -⟩ | ⟨e₁, t, he₁, ht, rfl⟩ := hc
  · cases hnone
  · obtain rfl := Option.some.inj he₁
    exact ⟨root, e', t, hroot, hf, ht, rfl⟩

variable {e : IoError}

theorem edit_eq_error
    (he : (d.edit f h).1 = .error e) : (h.tree d.tree).pathOf d.ino = none ∧ e = .os .noent ∨
      ∃ root, (h.tree d.tree).pathOf d.ino = some root ∧
        (f h.proc (h.tree d.tree) root = .error e ∨
          ∃ e', f h.proc (h.tree d.tree) root = .ok e' ∧ (h.tree d.tree).apply e' = .error e) := by
  unfold edit call Op.change ask at he
  cases hroot : (h.tree d.tree).pathOf d.ino with
  | none =>
    simp only [hroot] at he
    exact Or.inl ⟨rfl, (Except.error.inj he).symm⟩
  | some root =>
    refine Or.inr ⟨root, rfl, ?_⟩
    simp only [hroot] at he
    cases hf : f h.proc (h.tree d.tree) root with
    | error err =>
      simp only [hf, Except.map] at he
      exact Or.inl (congrArg _ (Except.error.inj he))
    | ok e' =>
      refine Or.inr ⟨e', rfl, ?_⟩
      simp only [hf, Except.map, commit] at he
      cases ht : (h.tree d.tree).apply e' with
      | error err =>
        simp only [ht] at he
        exact congrArg _ (Except.error.inj he)
      | ok t =>
        simp only [ht] at he
        cases he

theorem call_error {f : Proc → Tree → HostPath → Except IoError (α × Option Edit)}
    (he : (d.call f h).1 = .error e) : (d.call f h).2 = h := by
  unfold call Op.change at he ⊢
  split at he
  · cases he
  · rfl

theorem edit_error (he : (d.edit f h).1 = .error e) : (d.edit f h).2 = h := call_error he

theorem keepsAt_openWith [Std.Refl R]
    (hf : ∀ flags n e t, o.oflags = .ok flags →
      d.ask (fun t root => t.openat h.proc root rel flags o.mode) h = .ok (n, some e) →
      (h.tree d.tree).apply e = .ok t → R h (h.set d.tree t)) : KeepsAt R (d.openWith rel o) h := by
  refine keepsAt_check_bind fun flags hflags => keepsAt_call fun f e t hopen ht => ?_
  obtain ⟨⟨n, e'⟩, hn, heq⟩ := ask_map_eq_ok.1 hopen
  obtain rfl : e' = some e := (Prod.mk.inj heq).2
  exact hf flags n e t hflags hn ht

theorem openWith_unchanged
    (hflags : ∀ flags, o.oflags = .ok flags → flags.has .creat = false ∧ flags.has .trunc = false) :
    (d.openWith rel o h).2 = h := by
  have hkeep : KeepsAt (fun h h' : Host => h' = h) (d.openWith rel o) h := by
    have : Std.Refl fun h h' : Host => h' = h := ⟨fun _ => rfl⟩
    refine keepsAt_openWith fun flags n e t ho hopen _ => ?_
    obtain ⟨root, -, hopen⟩ := ask_eq_ok.1 hopen
    obtain ⟨hcreat, htrunc⟩ := hflags flags ho
    obtain ⟨-, p, -, ⟨hc, -⟩ | ⟨ht, -⟩⟩ := Tree.openat_eq_ok hopen
    · rw [hcreat] at hc
      cases hc
    · rw [htrunc] at ht
      cases ht
  exact hkeep

theorem openWith_error (he : (d.openWith rel o h).1 = .error e) : (d.openWith rel o h).2 = h := by
  unfold openWith at he ⊢
  cases ho : o.oflags with
  | error e => rfl
  | ok flags =>
    rw [ho, check_ok_bind] at he
    rw [check_ok_bind]
    exact call_error he

theorem openWith_eq_ok {f : File}
    (hf : d.openWith rel o h = (.ok f, h')) : f.dev = d.tree ∧ ∃ flags root,
      o.oflags = .ok flags ∧ (h.tree d.tree).pathOf d.ino = some root ∧
      (f.node.ino = (h.tree d.tree).next ∨
        ∃ p, (h.tree d.tree).lookup root (Tree.followsFinal flags) rel = .ok p ∧
          (h.tree d.tree).node p = some f.node) := by
  unfold openWith at hf
  cases ho : o.oflags with
  | error e =>
    rw [ho] at hf
    cases hf
  | ok flags =>
    rw [ho, check_ok_bind] at hf
    obtain ⟨e, hask, -⟩ := call_eq_ok hf
    obtain ⟨⟨n, e'⟩, hn, heq⟩ := ask_map_eq_ok.1 hask
    obtain ⟨root, hroot, hopen⟩ := ask_eq_ok.1 hn
    obtain ⟨rfl, -⟩ := Prod.mk.inj heq
    exact ⟨rfl, flags, root, rfl, hroot, Tree.openat_node hopen⟩

section Compound

variable [Std.Refl R] [IsTrans Host R]

theorem keeps_createDirAllRev {mode : Nat} (hmk : ∀ rel, Keeps R (d.createDir mode rel))
    (rev : List OsStr) : Keeps R (d.createDirAllRev mode rev) := by
  induction rev with
  | nil => exact fun _ => keepsAt_pure _
  | cons c parent ih =>
    intro h
    refine keepsAt_bind (hmk _ h) fun r h' _ => ?_
    cases r with
    | ok u => exact keepsAt_pure _
    | error e =>
      dsimp only
      split_ifs with hk
      · refine keepsAt_bind (ih h') fun _ h'' _ => keepsAt_bind (hmk _ h'') fun r h₃ _ => ?_
        cases r with
        | ok u => exact keepsAt_pure _
        | error e => exact keepsAt_read _
      · exact keepsAt_read _

theorem keeps_createDirAll {mode : Nat} (hmk : ∀ rel, Keeps R (d.createDir mode rel))
    (rel : List OsStr) : Keeps R (d.createDirAll mode rel) :=
  keeps_createDirAllRev hmk rel.reverse

theorem keepsAt_copy {src dst : CapDir} {rel' : List OsStr}
    (hopen : ∀ mode, KeepsAt R (dst.openWith rel' (copyTo mode)) h)
    (hset : ∀ mode f h', dst.openWith rel' (copyTo mode) h = (.ok f, h') →
      ∀ g, Keeps R (setFile f g)) : KeepsAt R (src.copy rel dst rel') h := by
  have hread : ∀ h : Host, (src.openWith rel copyFrom h).2 = h := fun h =>
    openWith_unchanged fun flags hflags => by
      obtain rfl : _ = flags := Except.ok.inj hflags
      decide
  have hfrom : KeepsAt R (src.openWith rel copyFrom) h := by
    rw [KeepsAt, hread]
    exact refl_of R h
  refine keepsAt_bind hfrom fun reader h₁ hr => keepsAt_read_bind fun attr _ => ?_
  obtain rfl : h = h₁ := by rw [← hread h, hr]
  split_ifs
  · exact keepsAt_check _
  · refine keepsAt_bind (hopen _) fun writer h₂ hw => ?_
    split_ifs
    · exact keepsAt_pure _
    · refine keepsAt_bind (hset _ writer h₂ hw _ h₂) fun _ h₃ _ => keepsAt_read_bind fun c _ => ?_
      exact keepsAt_bind (hset _ writer h₂ hw _ h₃) fun _ _ _ => keepsAt_pure _

end Compound

end CapDir

end Seahaven.Host
