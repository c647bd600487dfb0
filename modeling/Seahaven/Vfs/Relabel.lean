import Seahaven.Vfs.Fs

/-!
# Namespaces that differ in what resolution does not look at

Resolution asks of a mount where it lies, which directory it is and whether it shadows another. Two
namespaces whose mounts agree in these, whatever else they record, resolve alike: an operation that
does the same at either's locations does the same over either.
-/

namespace Seahaven.Vfs

open Host OsStr Op

variable [Unicode]

/-- A change of what a mount records besides its point, its directory and its nesting. -/
structure Relabel (f : Mount → Mount) : Prop where
  «at» : ∀ m, (f m).at = m.at
  dir : ∀ m, (f m).dir = m.dir
  shadowsNested : ∀ m, (f m).shadowsNested = m.shadowsNested

def Located.relabel (f : Mount → Mount) (l : Located) : Located := { l with mount := f l.mount }

def Scanned.relabel (f : Mount → Mount) : Scanned → Scanned
  | .reached p => .reached p
  | .failed e => .failed e
  | .atLink l rest => .atLink (l.relabel f) rest

variable {f : Mount → Mount} {α : Type}

variable {path : VirtualPath}

theorem hasPointBelow_relabel (hf : Relabel f) {mounts : List Mount} :
    hasPointBelow (mounts.map f) path = hasPointBelow mounts path := by
  simp only [hasPointBelow, List.any_map, Function.comp_def, hf.at]

/-- The table of the changed mounts. -/
def MountTable.relabel (t : MountTable) (hf : Relabel f) : MountTable where
  mounts := t.mounts.map f
  sorted := List.pairwise_map.2 (by simpa only [hf.at] using t.sorted)
  points := List.pairwise_map.2 (by simpa only [hf.at] using t.points)
  nesting m hm := by
    obtain ⟨m₀, hm₀, rfl⟩ := List.mem_map.1 hm
    rw [hasPointBelow_relabel hf, hf.at, hf.shadowsNested]
    exact t.nesting m₀ hm₀

def relabel (v : Vfs) (hf : Relabel f) : Vfs where
  table := v.table.relabel hf
  roots m hm := by
    obtain ⟨m₀, hm₀, rfl⟩ := List.mem_map.1 hm
    rw [hf.dir]
    exact v.roots m₀ hm₀
  apart := List.pairwise_map.2 (by simpa only [hf.dir] using v.apart)

theorem MountTable.resolve_relabel (hf : Relabel f) {t : MountTable} {p : VirtualPath} :
    (t.relabel hf).resolve p = (t.resolve p).map fun x => (f x.1, x.2) := by
  simp only [resolve, relabel, List.findSome?_map, List.map_findSome?]
  congr 1
  funext m
  simp [hf.at, Function.comp_def]

variable {v : Vfs} (hf : Relabel f)

include hf

theorem locateExact_relabel {p : VirtualPath} :
    (v.relabel hf).locateExact p = (v.locateExact p).map (Located.relabel f) := by
  unfold locateExact
  rw [show (v.relabel hf).table.resolve p = _ from MountTable.resolve_relabel hf]
  cases v.table.resolve p with
  | none => rfl
  | some x => rfl

variable {h : Host} {l : Located}

theorem probe_relabel {dir : Option CapDir}
    {component : OsStr} :
    probe h dir component (l.relabel f) = probe h dir component l := by
  cases dir with
  | none => simp [probe, Located.relabel, hf.dir]
  | some d => rfl

theorem descent_relabel {cursor : Option (Mount × CapDir)} {m : Mount} :
    descent (cursor.map fun c => (f c.1, c.2)) (f m) = descent cursor m := by
  cases cursor with
  | none => rfl
  | some c => by_cases hc : c.1.at = m.at <;> simp [descent, hc, hf.at, Option.filter]

theorem advance_relabel {dir : Option CapDir} {component : OsStr} :
    advance h dir component (l.relabel f) =
      (advance h dir component l).map fun c => (f c.1, c.2) := by
  cases dir <;> simp [advance, Located.relabel, hf.dir, Function.comp_def]

variable {followFinal : Bool}

theorem scan_relabel (cursor : Option (Mount × CapDir))
    {resolved : VirtualPath} {pending : List OsStr} :
    (v.relabel hf).scan h followFinal (cursor.map fun c => (f c.1, c.2)) resolved pending =
      (v.scan h followFinal cursor resolved pending).relabel f := by
  induction pending generalizing cursor resolved with
  | nil => rfl
  | cons component pending ih =>
    unfold scan
    cases resolved.resolve component with
    | error e => rfl
    | ok candidate =>
      dsimp only
      rw [locateExact_relabel hf]
      cases v.locateExact candidate with
      | error e =>
        have hbelow : (v.relabel hf).table.hasMountBelow candidate =
            v.table.hasMountBelow candidate := hasPointBelow_relabel hf
        simp only [Except.map, hbelow]
        split_ifs
        · exact ih none
        · rfl
      | ok l =>
        have hdir : descent (cursor.map fun c => (f c.1, c.2)) (l.relabel f).mount =
            descent cursor l.mount := descent_relabel hf
        simp only [Except.map, hdir]
        rw [probe_relabel hf, advance_relabel hf]
        split_ifs
        · rfl
        · exact ih none
        · exact ih _

theorem linkTarget_relabel : linkTarget h path (l.relabel f) = linkTarget h path l := by
  simp only [linkTarget, Located.relabel, hf.dir]

theorem follow_relabel {hops : Nat}
    {resolved : VirtualPath} {pending : List OsStr} :
    (v.relabel hf).follow h path followFinal hops resolved pending =
      (v.follow h path followFinal hops resolved pending).map (Located.relabel f) := by
  have hscan : (v.relabel hf).scan h followFinal none resolved pending =
      (v.scan h followFinal none resolved pending).relabel f := scan_relabel hf none
  induction hops generalizing resolved pending with
  | zero =>
    rw [follow, follow, hscan]
    cases v.scan h followFinal none resolved pending with
    | reached p => exact locateExact_relabel hf
    | failed e => rfl
    | atLink l rest => rfl
  | succ hops ih =>
    rw [follow, follow, hscan]
    cases v.scan h followFinal none resolved pending with
    | reached p => exact locateExact_relabel hf
    | failed e => rfl
    | atLink l rest =>
      dsimp only [Scanned.relabel]
      rw [linkTarget_relabel hf]
      cases linkTarget h path l with
      | error e => rfl
      | ok target => exact ih (scan_relabel hf none)

/-- **Resolution looks at nothing else.** -/
theorem locate_relabel : (v.relabel hf).locate path followFinal h =
      (v.locate path followFinal h).map (Located.relabel f) :=
  follow_relabel hf

theorem careful_relabel
    {op op' : Located → Op Host IoError α} (hop : ∀ l, op (l.relabel f) = op' l) :
    (v.relabel hf).careful path followFinal op = v.careful path followFinal op' := by
  funext h
  unfold careful
  cases hl : v.locate path followFinal h with
  | error e =>
    rw [read_bind_error hl, read_bind_error (by rw [locate_relabel hf, hl]; rfl)]
  | ok l =>
    rw [read_bind_ok hl, read_bind_ok (a := l.relabel f) (by rw [locate_relabel hf, hl]; rfl), hop]

/-- **Operations.** What does the same at the locations of both does the same over both. -/
theorem at_relabel {op op' : Located → Op Host IoError α} (hop : ∀ l, op (l.relabel f) = op' l) :
    (v.relabel hf).at path followFinal op = v.at path followFinal op' := by
  unfold Vfs.at
  rw [locateExact_relabel hf]
  cases v.locateExact path with
  | error e => rfl
  | ok l =>
    simp only [Except.map, check_ok_bind]
    rw [careful_relabel hf hop, hop, show (l.relabel f).mount.shadowsNested = l.mount.shadowsNested
      from hf.shadowsNested l.mount]

end Seahaven.Vfs
