import Seahaven.Broker.Wire
import Seahaven.Vfs.Relabel
import Seahaven.Vfs.Session

/-!
# Handing a session to a child

A child is not the parent's process, and what it knows of the namespace is one message: the payload
as bytes, and the mounts' handles as descriptors beside it. One `recvmsg` takes the message.

1. `capture`, `serve`: the parent's half. `receive`, `assemble`: the child's.
2. A parent's table, sent and rebuilt, is the table without its host paths, which resolves alike.
3. The message is read once, into a buffer of 64 KiB and with space for 64 descriptors. A session
   survives if and only if its message fits.
-/

namespace Seahaven.Broker

open Host OsStr Vfs Reader Op

/-- Descriptors lent by a namespace, on the roots of directories of their own. -/
structure Lent where
  handles : List CapDir
  roots : ∀ d ∈ handles, d.ino = 0
  apart : handles.Pairwise fun d d' => d.tree ≠ d'.tree

/-- What is in flight: bytes, and descriptors beside them. -/
structure Message where
  bytes : List UInt8
  lent : Lent

/-- A connection as the operating system has it. -/
structure Connection where
  /-- The process at the other end. -/
  peer : Nat
  /-- How many bytes of a message that carries descriptors one `recvmsg` takes. The buffer bounds
  it. -/
  window : Nat
  window_le : window ≤ 64 * 1024

/-- How many descriptors the control space of `receive` has room for. -/
def controlSpace : Nat := 64

variable [Unicode]

/-- The namespace and working directory, flattened for the wire, one entry per mount. -/
structure SessionPayload where
  cwd : OsStr
  mounts : List MountTable.ChildEntry
  roots : ∀ d ∈ mounts.map fun m => m.2.2, d.ino = 0
  apart : (mounts.map fun m => m.2.2).Pairwise fun d d' => d.tree ≠ d'.tree

/-! ## The parent's half -/

def childEntry (loan : MountTable.MountLoan) : MountTable.ChildEntry :=
  (loan.mountPoint.asStr, loan.access, loan.handle)

theorem handles_lendToChild (t : MountTable) :
    (t.lendToChild.map childEntry).map (fun m => m.2.2) = t.mounts.map Mount.dir := by
  simp only [MountTable.lendToChild, List.map_map]
  rfl

/-- Duplicates a session's mount handles for handing to a child. -/
def capture (s : Session) : SessionPayload where
  cwd := s.cwd.asStr
  mounts := s.vfs.table.lendToChild.map childEntry
  roots d hd := by
    rw [handles_lendToChild] at hd
    obtain ⟨m, hm, rfl⟩ := List.mem_map.1 hd
    exact s.vfs.roots m hm
  apart := by
    rw [handles_lendToChild, List.pairwise_map]
    exact s.vfs.apart

/-- Sends the session over a connection from `pid`. -/
def serve (pid : Nat) (c : Connection) (p : SessionPayload) : Except IoError Message :=
  if c.peer ≠ pid then
    .error (.custom .permissionDenied (os "session broker: expected a connection from pid " ++
      os (toString pid) ++ os ", got " ++ os (toString c.peer)))
  else .ok ⟨encode p.cwd (p.mounts.map fun m => (m.1, m.2.1)), ⟨_, p.roots, p.apart⟩⟩

/-! ## The child's half -/

omit [Unicode] in
theorem handles_zip {decoded : Decoded} {handles : List CapDir} :
    (decoded.mounts.zip handles |>.map fun m => (m.1.1, m.1.2, m.2)).map
      (fun m : MountTable.ChildEntry => m.2.2) <+: handles := by
  rw [List.map_map]
  exact map_snd_zip_initial decoded.mounts handles

/-- Builds a session from what the handshake delivered. -/
def assemble (decoded : Decoded) (lent : Lent) : Op Host IoError Session :=
  if decoded.mounts.length ≠ lent.handles.length then
    .check (.error (malformed
      "session payload describes a different number of mounts than it delivered"))
  else
    match h : MountTable.fromChildHandles
      (decoded.mounts.zip lent.handles |>.map fun m => (m.1.1, m.1.2, m.2)) with
    | .error e => .check (.error (.custom .other e.message))
    | .ok table =>
      have hroots : ∀ m ∈ table.mounts, m.dir.ino = 0 := fun _ hm =>
        lent.roots _ (handles_zip.subset
          ((MountTable.dirs_fromChildHandles h).subset (List.mem_map_of_mem hm)))
      have hapart : table.mounts.Pairwise fun m m' => m.dir.tree ≠ m'.dir.tree :=
        (List.pairwise_map (R := fun d d' : CapDir => d.tree ≠ d'.tree)).1
          ((MountTable.dirs_fromChildHandles h).symm.pairwise
            (lent.apart.sublist handles_zip.sublist) fun h => Ne.symm h)
      (Session.new ⟨table, hroots, hapart⟩).setCwd decoded.cwd

/-- The error of asking for the control messages when descriptors had to be dropped, `ENOBUFS`. -/
def noBufferSpace : IoError :=
  .custom .uncategorized (os "No buffer space available (os error 105)")

def receive (c : Connection) (m : Message) : Op Host IoError Session :=
  if controlSpace < m.lent.handles.length then .check (.error noBufferSpace)
  else Op.check (decode (m.bytes.take c.window)) >>= fun decoded => assemble decoded m.lent

def handoff (c : Connection) (s : Session) : Op Host IoError Session :=
  Op.check (serve c.peer c (capture s)) >>= receive c

/-! ## A table that was lent -/

def lent (m : Mount) : Mount := { m with hostPath := none, canonicalHostPath := none }

theorem relabel_lent : Relabel lent := ⟨fun _ => rfl, fun _ => rfl, fun _ => rfl⟩

theorem parsePoints_lent (mounts : List Mount) :
    MountTable.parsePoints (mounts.map fun m => (m.at.asStr, m.access, m.dir)) =
      .ok (mounts.map fun m => (m.at, m.access, m.dir)) := by
  induction mounts with
  | nil => rfl
  | cons m rest ih =>
    have hpoint : VirtualPath.new m.at.asStr = .ok m.at := VirtualPath.resolve_asStr _ _
    rw [List.map_cons, MountTable.parsePoints, hpoint]
    dsimp only
    rw [ih]
    rfl

theorem rebuilt (t : MountTable) : MountTable.recordNesting ((t.mounts.map fun m =>
    MountTable.childMount (m.at, m.access, m.dir)).insertionSort MountTable.Deeper) =
      t.mounts.map lent := by
  have hsorted : (t.mounts.map fun m =>
      MountTable.childMount (m.at, m.access, m.dir)).Pairwise MountTable.Deeper :=
    List.pairwise_map.2 t.sorted
  rw [hsorted.insertionSort_eq, MountTable.recordNesting, List.map_map]
  refine List.map_congr_left fun m hm => ?_
  have hbelow : hasPointBelow (t.mounts.map fun m =>
      MountTable.childMount (m.at, m.access, m.dir)) m.at = m.shadowsNested := by
    rw [t.nesting m hm]
    simp only [hasPointBelow, List.any_map]
    rfl
  simp only [Function.comp_apply, MountTable.childMount, lent]
  rw [← hbelow]
  rfl

/-- **A table that was lent.** A child builds its parent's table, without the host paths. -/
theorem fromChildHandles_lent {t : MountTable}
    (hc : MountTable.checkMountPoints (t.mounts.map Mount.at) = .ok ()) :
    MountTable.fromChildHandles (t.lendToChild.map childEntry) =
      .ok (t.relabel relabel_lent) := by
  have hentries : t.lendToChild.map childEntry =
      t.mounts.map fun m => (m.at.asStr, m.access, m.dir) := by
    simp only [MountTable.lendToChild, List.map_map]
    rfl
  have hparsed := parsePoints_lent t.mounts
  rw [← hentries] at hparsed
  unfold MountTable.fromChildHandles
  split
  · rename_i e he
    rw [he] at hparsed
    cases hparsed
  · rename_i parsed hok
    obtain rfl := Except.ok.inj (hok.symm.trans hparsed)
    split
    · rename_i e he
      rw [List.map_map] at he
      exact absurd (he.symm.trans hc) (by simp)
    · refine congrArg Except.ok (MountTable.ext_mounts ?_)
      simp only [MountTable.fromMounts, List.map_map]
      exact rebuilt t

/-! ## What survives -/

/-- What a path resolves to: where its mount lies, what that permits, the descriptor it is bound to,
whether it shadows another, and what is left of the path. -/
def seen (x : Mount × List OsStr) : VirtualPath × Access × CapDir × Bool × List OsStr :=
  (x.1.at, x.1.access, x.1.dir, x.1.shadowsNested, x.2)

/-- The child's session is the parent's. -/
structure Same (s child : Session) : Prop where
  cwd : child.cwd = s.cwd
  resolve : ∀ p, (child.vfs.table.resolve p).map seen = (s.vfs.table.resolve p).map seen

def Survives (c : Connection) (s : Session) (h : Host) : Prop :=
  ∃ child, (handoff c s h).1 = .ok child ∧ Same s child

/-- A session as a program holds it: no two mount points of its table collide, and paths are
text. -/
structure Parent extends Session where
  checked : MountTable.checkMountPoints (vfs.table.mounts.map Mount.at) = .ok ()
  points_text : ∀ m ∈ vfs.table.mounts, m.at.asStr.isUtf8 = true
  cwd_text : cwd.asStr.isUtf8 = true

def wireLength (s : Session) : Nat :=
  12 + s.cwd.asStr.bytes.length +
    (s.vfs.table.mounts.map fun m => 5 + m.at.asStr.bytes.length).sum

def lentVfs (v : Vfs) : Vfs := v.relabel relabel_lent

theorem facts_lent (v : Vfs) (path : VirtualPath) (follow : Bool) :
    (lentVfs v).facts path follow = v.facts path follow := by
  rw [Vfs.facts, Vfs.facts]
  congr 1
  exact at_relabel relabel_lent fun _ => rfl

theorem zip_entries (s : Session) :
    (((capture s).mounts.map fun m => (m.1, m.2.1)).zip ((capture s).mounts.map fun m => m.2.2)).map
      (fun m => (m.1.1, m.1.2, m.2)) = s.vfs.table.lendToChild.map childEntry := by
  rw [List.zip_map', List.map_map]
  exact List.map_id _

theorem assemble_eq {decoded : Decoded} {lent : Lent} {v : Vfs}
    (hlen : decoded.mounts.length = lent.handles.length)
    (ht : MountTable.fromChildHandles
      (decoded.mounts.zip lent.handles |>.map fun m => (m.1.1, m.1.2, m.2)) = .ok v.table) :
    assemble decoded lent = (Session.new v).setCwd decoded.cwd := by
  unfold assemble
  rw [if_neg (not_not_intro hlen)]
  split
  · rename_i e he
    exact absurd (he.symm.trans ht) (by simp)
  · rename_i table htable
    obtain rfl := Except.ok.inj (htable.symm.trans ht)
    rfl

theorem assemble_lent {s : Parent} {h : Host} (hcwd : s.isDirectory s.cwd h = true) :
    (assemble ⟨s.cwd.asStr, (capture s.toSession).mounts.map fun m => (m.1, m.2.1)⟩
      ⟨_, (capture s.toSession).roots, (capture s.toSession).apart⟩ h).1 =
        .ok ⟨lentVfs s.vfs, s.cwd⟩ := by
  have hbuilt := fromChildHandles_lent s.checked
  rw [← zip_entries] at hbuilt
  rw [assemble_eq (v := lentVfs s.vfs) (by simp) hbuilt]
  refine Session.setCwd_ok _ (VirtualPath.resolve_asStr _ _) ?_
  rw [Session.isDirectory] at hcwd ⊢
  rwa [show (Session.new (lentVfs s.vfs)).vfs.facts s.cwd true = s.vfs.facts s.cwd true from
    facts_lent s.vfs s.cwd true]

theorem same_lent (s : Session) : Same s ⟨lentVfs s.vfs, s.cwd⟩ where
  cwd := rfl
  resolve p := by
    change ((s.vfs.table.relabel relabel_lent).resolve p).map seen = _
    rw [MountTable.resolve_relabel, Option.map_map]
    rfl

theorem serve_self (c : Connection) (s : Session) : serve c.peer c (capture s) =
    .ok ⟨encode s.cwd.asStr ((capture s).mounts.map fun m => (m.1, m.2.1)),
      ⟨_, (capture s).roots, (capture s).apart⟩⟩ := if_neg (not_not_intro rfl)

theorem length_capture (s : Session) :
    ((capture s).mounts.map fun m => m.2.2).length = s.vfs.table.mounts.length := by
  simp [capture, MountTable.lendToChild]

theorem wireLength_eq (s : Session) :
    (encode s.cwd.asStr ((capture s).mounts.map fun m => (m.1, m.2.1))).length = wireLength s := by
  rw [length_encode, wireLength]
  simp only [capture, MountTable.lendToChild, List.map_map]
  rfl

theorem handoff_of_many {c : Connection} {s : Session}
    (hmany : controlSpace < s.vfs.table.mounts.length) :
    handoff c s = .check (.error noBufferSpace) := by
  unfold handoff
  rw [serve_self, check_ok_bind, receive, if_pos (by rwa [length_capture])]

theorem handoff_of_few {c : Connection} {s : Session}
    (hfew : ¬ controlSpace < s.vfs.table.mounts.length) :
    handoff c s = Op.check (decode ((encode s.cwd.asStr
      ((capture s).mounts.map fun m => (m.1, m.2.1))).take c.window)) >>= fun decoded =>
        assemble decoded ⟨_, (capture s).roots, (capture s).apart⟩ := by
  unfold handoff
  rw [serve_self, check_ok_bind, receive, if_neg (by rwa [length_capture])]

/-- **A session survives if and only if its message fits**: its descriptors in the control space and
its bytes in what one `recvmsg` takes. -/
theorem survives_iff (c : Connection) (s : Parent) (h : Host)
    (hcwd : s.isDirectory s.cwd h = true) : Survives c s.toSession h ↔
      s.vfs.table.mounts.length ≤ controlSpace ∧ wireLength s.toSession ≤ c.window := by
  have htext : ∀ m ∈ (capture s.toSession).mounts.map fun m => (m.1, m.2.1),
      m.1.isUtf8 = true := by
    intro m hm
    simp only [capture, MountTable.lendToChild, List.map_map, List.mem_map] at hm
    obtain ⟨m₀, hm₀, rfl⟩ := hm
    exact s.points_text m₀ hm₀
  rcases Nat.lt_or_ge controlSpace s.vfs.table.mounts.length with hmany | hfew
  · have hno : ¬ Survives c s.toSession h := by
      rintro ⟨child, hok, -⟩
      rw [handoff_of_many hmany] at hok
      cases hok
    simp [hno, Nat.not_le.2 hmany]
  · have hcount : ((capture s.toSession).mounts.map fun m => (m.1, m.2.1)).length < 2 ^ 32 := by
      have := length_capture s.toSession
      rw [List.length_map] at this ⊢
      rw [controlSpace] at hfew
      omega
    obtain ⟨hwhole, hshort⟩ := decode_take c.window_le s.cwd_text htext hcount
    rw [wireLength_eq] at hwhole hshort
    have hrun := handoff_of_few (c := c) (Nat.not_lt.2 hfew)
    refine ⟨fun ⟨child, hok, _⟩ => ⟨hfew, ?_⟩, fun ⟨_, hfits⟩ => ?_⟩
    · by_contra hlong
      obtain ⟨e, he⟩ := hshort (by omega)
      rw [hrun, he] at hok
      cases hok
    · refine ⟨_, ?_, same_lent s.toSession⟩
      rw [hrun, hwhole hfits, check_ok_bind]
      exact assemble_lent hcwd

end Seahaven.Broker

namespace Seahaven.Broker

open Host Vfs

section Fixture

attribute [local instance] composed

/-- The mount point of the `i`-th of many mounts, of one character. -/
def manyPoint (i : Fin 65) : VirtualPath :=
  ⟨[[.chr (Char.ofNat (0x4E00 + i))]], by revert i; decide +kernel⟩

def manyMounts : List Mount :=
  (List.finRange 65).map fun i => ⟨manyPoint i, ⟨i, 0⟩, none, none, .readWrite, false⟩

theorem manyPoint_ne {i j : Fin 65} (h : i ≠ j) : manyPoint i ≠ manyPoint j := by
  have hcode : ∀ k : Fin 65, (Char.ofNat (0x4E00 + k)).toNat = 0x4E00 + k := by decide +kernel
  intro heq
  have hchar := OsChar.chr.inj (List.cons.inj (List.cons.inj
    (congrArg VirtualPath.components heq)).1).1
  have hsame := congrArg Char.toNat hchar
  rw [hcode, hcode] at hsame
  exact h (Fin.ext (by omega))

theorem many_pairwise {R : Mount → Mount → Prop} (h : ∀ {i j : Fin 65}, i ≠ j →
    R ⟨manyPoint i, ⟨i, 0⟩, none, none, .readWrite, false⟩
      ⟨manyPoint j, ⟨j, 0⟩, none, none, .readWrite, false⟩) : manyMounts.Pairwise R :=
  List.pairwise_map.2 ((List.nodup_finRange 65).imp h)

/-- None of the points lies beneath another. -/
theorem hasPointBelow_many (i : Fin 65) :
    hasPointBelow manyMounts (manyPoint i) = false := by
  refine List.any_eq_false.2 (List.forall_mem_map.2 fun j _ hbelow => ?_)
  obtain ⟨hne, hpre⟩ := Bool.and_eq_true_iff.1 hbelow
  have heq := (List.isPrefixOf_iff_prefix.1 hpre).eq_of_length rfl
  exact of_decide_eq_true hne (VirtualPath.ext heq.symm)

def manyVfs : Vfs where
  table := ⟨manyMounts, many_pairwise fun _ => Nat.le_refl 1, many_pairwise manyPoint_ne,
    List.forall_mem_map.2 fun i _ => (hasPointBelow_many i).symm⟩
  roots := List.forall_mem_map.2 fun _ _ => rfl
  apart := many_pairwise Fin.val_ne_of_ne

/-- A session in the first of them. -/
def manySession : Parent where
  vfs := manyVfs
  cwd := manyPoint 0
  checked := by decide +kernel
  points_text := by decide +kernel
  cwd_text := by decide

def wideConnection : Connection := ⟨7, 64 * 1024, by decide⟩

/-- **Sixty-five mounts.** The working directory is a directory, and the child is not handed the
session. -/
theorem many_not_survives : manySession.isDirectory manySession.cwd (.ofTrees []) = true ∧
      ¬ Survives wideConnection manySession.toSession (.ofTrees []) := by
  refine ⟨by decide +kernel, ?_⟩
  rintro ⟨child, hok, -⟩
  rw [handoff_of_many (by decide +kernel)] at hok
  cases hok

/-- A session in the only mount of its table. -/
def oneSession : Parent where
  vfs := ⟨⟨[⟨manyPoint 0, ⟨0, 0⟩, none, none, .readOnly, false⟩], by simp, by simp, by decide⟩,
    by decide, by simp⟩
  cwd := manyPoint 0
  checked := by decide
  points_text := by decide
  cwd_text := by decide

theorem one_survives : Survives wideConnection oneSession.toSession (.ofTrees []) :=
  (survives_iff wideConnection oneSession (.ofTrees []) (by decide)).2
    ⟨by decide, by decide +kernel⟩

end Fixture

end Seahaven.Broker
