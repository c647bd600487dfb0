import Seahaven.Vfs.Names
import Seahaven.Vfs.Walk

/-!
# Listing and lookup

A listing answers the names of a host directory's entries that are text. A lookup takes a name
through the path grammar first, which refuses some names and replaces others by their normal form,
and a mount may lie where the entry does.

1. `answer`: what an operation that only reads answers, by where it is run.
2. `entry_child`: what the paths beneath a listed directory name.
3. Listing and lookup agree if and only if every name listed is one the grammar keeps and no mount
   lies at an entry.
-/

namespace Seahaven.Vfs

open Host OsStr Op

variable [Unicode] {α : Type}

/-! ## Questions -/

/-- What `at` answers for an operation that only reads. -/
def answer (v : Vfs) (path : VirtualPath) (followFinal : Bool)
    (ask : Located → Host → Except IoError α) (h : Host) : Except IoError α :=
  (v.at path followFinal (fun l => .read (ask l)) h).1

/-- Where a question is answered: at the path as it stands, or where the walk leads when the first
try was refused or the mount shadows another. -/
inductive AnsweredAt (v : Vfs) (h : Host) (path : VirtualPath) (followFinal : Bool)
    (ask : Located → Host → Except IoError α) (l : Located) : Prop
  | direct (hl : v.locateExact path = .ok l) (hs : l.mount.shadowsNested = false)
      (hk : ∀ e, ask l h = .error e → e.kind ≠ .permissionDenied)
  | walked (d : Located) (hd : v.locateExact path = .ok d)
      (hs : d.mount.shadowsNested = true ∨ ∃ e, ask d h = .error e ∧ e.kind = .permissionDenied)
      (hl : v.locate path followFinal h = .ok l)

variable {v : Vfs} {h : Host} {path : VirtualPath} {followFinal : Bool}
  {ask : Located → Host → Except IoError α}

theorem careful_read : (v.careful path followFinal (fun l => .read (ask l)) h).1 =
    v.locate path followFinal h >>= fun l => ask l h := by
  unfold careful
  cases hl : v.locate path followFinal h with
  | error e => rw [read_bind_error hl]; rfl
  | ok l => rw [read_bind_ok hl]; rfl

theorem answer_eq : v.answer path followFinal ask h =
    v.locateExact path >>= fun l =>
      if l.mount.shadowsNested then v.locate path followFinal h >>= fun l => ask l h
      else match ask l h with
        | .ok a => .ok a
        | .error e =>
          if e.kind = .permissionDenied then v.locate path followFinal h >>= fun l => ask l h
          else .error e := by
  unfold answer Vfs.at
  cases hd : v.locateExact path with
  | error e => rfl
  | ok l =>
    simp only [check_ok_bind]
    cases hs : l.mount.shadowsNested with
    | true =>
      simp only [if_true]
      rw [careful_read]
      simp [bind, Except.bind, hs]
    | false =>
      simp only [Bool.false_eq_true, if_false]
      cases ha : ask l h with
      | ok a =>
        rw [bind_ok (by rw [attempt_apply, read_apply, ha])]
        simp [bind, Except.bind, hs, ha]
      | error e =>
        rw [bind_ok (by rw [attempt_apply, read_apply, ha])]
        simp only [bind, Except.bind, hs, ha, Bool.false_eq_true, if_false]
        split_ifs
        · exact careful_read
        · rfl

/-- **An answer is given at a location.** -/
theorem answer_eq_ok {a : α} : v.answer path followFinal ask h = .ok a ↔
    ∃ l, v.AnsweredAt h path followFinal ask l ∧ ask l h = .ok a := by
  rw [answer_eq, except_bind_eq_ok]
  constructor
  · rintro ⟨d, hd, ha⟩
    split_ifs at ha with hs
    · obtain ⟨l, hl, ha⟩ := except_bind_eq_ok.1 ha
      exact ⟨l, .walked d hd (Or.inl hs) hl, ha⟩
    · cases hask : ask d h with
      | ok b =>
        rw [hask] at ha
        refine ⟨d, .direct hd (by simpa using hs) ?_, hask.trans ha⟩
        simp [hask]
      | error e =>
        rw [hask] at ha
        dsimp only at ha
        split_ifs at ha with hk
        obtain ⟨l, hl, ha⟩ := except_bind_eq_ok.1 ha
        exact ⟨l, .walked d hd (Or.inr ⟨e, hask, hk⟩) hl, ha⟩
  · rintro ⟨l, hl, ha⟩
    cases hl with
    | direct hd hs hk => exact ⟨l, hd, by simp [hs, ha]⟩
    | walked d hd hs hl =>
      refine ⟨d, hd, ?_⟩
      have hwalk : (v.locate path followFinal h >>= fun l => ask l h) = .ok a :=
        except_bind_eq_ok.2 ⟨l, hl, ha⟩
      rcases hs with hs | ⟨e, he, hk⟩
      · rw [if_pos hs, hwalk]
      · split_ifs
        · exact hwalk
        · rw [he]
          dsimp only
          rw [if_pos hk, hwalk]

theorem answer_map {β : Type} {ask' : Located → Host → Except IoError β} {f : α → β}
    (hask : ∀ l, l.mount ∈ v.table.mounts → ask' l h = (ask l h).map f) :
    v.answer path followFinal ask' h = (v.answer path followFinal ask h).map f := by
  have hwalk : (v.locate path followFinal h >>= fun l => ask' l h) =
      (v.locate path followFinal h >>= fun l => ask l h).map f := by
    cases hl : v.locate path followFinal h with
    | error e => rfl
    | ok l => exact hask l (mem_of_locateExact (exact_of_locate hl))
  rw [answer_eq, answer_eq, hwalk]
  cases hl : v.locateExact path with
  | error e => rfl
  | ok l =>
    simp only [bind, Except.bind]
    split_ifs
    · rfl
    · rw [hask l (mem_of_locateExact hl)]
      cases ask l h with
      | ok a => rfl
      | error e =>
        simp only [Except.map]
        split_ifs
        · rfl
        · rfl

/-! ## Beneath a path that was walked -/

section Push

variable {p r : VirtualPath} {l : Located} {d : OsStr} {hd : IsComponent d}

theorem exists_exact_push (hd : IsComponent d) (hr : v.locateExact r = .ok l) :
    ∃ l', v.locateExact (r.push d hd) = .ok l' := by
  cases hl : v.locateExact (r.push d hd) with
  | ok l' => exact ⟨l', rfl⟩
  | error e =>
    have hnone := MountTable.resolve_eq_none.1 (locateExact_eq_error.1 hl).1 _
      (mem_of_locateExact hr)
    rw [VirtualPath.components_push, components_of_locateExact hr, List.append_assoc] at hnone
    exact absurd (List.prefix_append _ _) hnone

theorem scan_last (hr : v.locateExact r = .ok l) (cursor : Option (Mount × CapDir)) :
    v.scan h false cursor r [d] = .reached (r.push d hd) := by
  obtain ⟨l', hl'⟩ := exists_exact_push hd hr
  rw [scan, VirtualPath.resolve_component r hd]
  dsimp only
  rw [hl']
  dsimp only
  rw [if_neg (by simp), if_pos rfl, scan]

variable {resolved : VirtualPath} {pending rest : List OsStr}

theorem scan_push (cursor : Option (Mount × CapDir)) (hr : v.locateExact r = .ok l)
    (hs : v.scan h true cursor resolved pending = .reached r) :
    v.scan h false cursor resolved (pending ++ [d]) = .reached (r.push d hd) := by
  induction pending generalizing cursor resolved with
  | nil =>
    obtain rfl := Scanned.reached.inj hs
    exact scan_last hr cursor
  | cons c pending ih =>
    rw [scan] at hs
    rw [List.cons_append, scan]
    cases hq : resolved.resolve c with
    | error e =>
      rw [hq] at hs
      cases hs
    | ok q =>
      rw [hq] at hs
      dsimp only at hs ⊢
      cases hl : v.locateExact q with
      | error e =>
        rw [hl] at hs
        dsimp only at hs ⊢
        split_ifs at hs with hshape
        rw [if_pos ⟨by simp, hshape.2⟩]
        exact ih none hs
      | ok l' =>
        rw [hl] at hs
        dsimp only at hs ⊢
        split_ifs at hs with hlink hnil
        all_goals
          have hno : ¬ isLink (probe h (descent cursor l'.mount) c l') = true :=
            fun h => hlink ⟨h, Or.inr rfl⟩
          rw [if_neg fun h => hno h.1, if_neg (by simp)]
        · subst hnil
          obtain rfl := Scanned.reached.inj hs
          exact scan_last hr _
        · exact ih _ hs

theorem scan_push_link (cursor : Option (Mount × CapDir))
    (hs : v.scan h true cursor resolved pending = .atLink l rest) :
    v.scan h false cursor resolved (pending ++ [d]) = .atLink l (rest ++ [d]) := by
  induction pending generalizing cursor resolved with
  | nil => cases hs
  | cons c pending ih =>
    rw [scan] at hs
    rw [List.cons_append, scan]
    cases hq : resolved.resolve c with
    | error e =>
      rw [hq] at hs
      cases hs
    | ok q =>
      rw [hq] at hs
      dsimp only at hs ⊢
      cases hl : v.locateExact q with
      | error e =>
        rw [hl] at hs
        dsimp only at hs ⊢
        split_ifs at hs with hshape
        rw [if_pos ⟨by simp, hshape.2⟩]
        exact ih none hs
      | ok l' =>
        rw [hl] at hs
        dsimp only at hs ⊢
        split_ifs at hs with hlink hnil
        · obtain ⟨rfl, rfl⟩ := Scanned.atLink.inj hs
          rw [if_pos ⟨hlink.1, Or.inl (by simp)⟩]
        · rw [hnil] at hs
          cases hs
        · have hno : ¬ isLink (probe h (descent cursor l'.mount) c l') = true :=
            fun h => hlink ⟨h, Or.inr rfl⟩
          rw [if_neg fun h => hno h.1, if_neg (by simp)]
          exact ih _ hs

/-- **One component further.** A component beneath a path that was walked to is named by where the
walk led. -/
theorem follow_push {path path' : VirtualPath} {hops : Nat}
    (hl : v.follow h path true hops resolved pending = .ok l) :
    v.follow h path' false hops resolved (pending ++ [d]) =
      v.locateExact (l.virtualPath.push d hd) := by
  induction hops generalizing resolved pending with
  | zero =>
    cases hs : v.scan h true none resolved pending with
    | reached r =>
      rw [follow_reached hs] at hl
      rw [follow_reached (scan_push none hl hs), (locateExact_eq_ok.1 hl).2]
    | failed e =>
      rw [follow_failed hs] at hl
      cases hl
    | atLink l' rest =>
      rw [follow_atLink_zero hs] at hl
      cases hl
  | succ hops ih =>
    cases hs : v.scan h true none resolved pending with
    | reached r =>
      rw [follow_reached hs] at hl
      rw [follow_reached (scan_push none hl hs), (locateExact_eq_ok.1 hl).2]
    | failed e =>
      rw [follow_failed hs] at hl
      cases hl
    | atLink l' rest =>
      rw [follow_atLink_succ hs] at hl
      rw [follow_atLink_succ (scan_push_link none hs)]
      cases ht : linkTarget h path l' with
      | error e =>
        rw [ht] at hl
        cases hl
      | ok target =>
        rw [ht] at hl
        have ht' : linkTarget h path' l' = .ok target := by
          unfold linkTarget at ht ⊢
          split at ht
          · cases ht
          · split_ifs at ht ⊢
            exact ht
        rw [ht']
        dsimp only
        rw [← List.append_assoc]
        exact ih hl

theorem locate_push (hl : v.locate p true h = .ok l) :
    v.locate (p.push d hd) false h = v.locateExact (l.virtualPath.push d hd) := follow_push hl

end Push

/-! ## What a listing reads -/

/-- A directory as it was listed: where the listing was run, the handle and the host path of the
directory, and the names answered. -/
structure Listed where
  located : Located
  dir : CapDir
  path : HostPath
  names : List OsStr

def listedAt (l : Located) (h : Host) : Except IoError Listed := do
  let dir ← dirAt l h
  dir.ask (fun t root => .ok ⟨l, dir, root, (t.names root).filter isUtf8⟩) h

/-- What `readDirNames` lists. -/
def listed (v : Vfs) (p : VirtualPath) (h : Host) : Except IoError Listed := v.answer p true listedAt h

theorem readDirNamesAt_eq (l : Located) :
    readDirNamesAt l = .read fun h => (listedAt l h).map Listed.names := by
  funext h
  unfold readDirNamesAt listedAt
  cases hd : dirAt l h with
  | error e => rw [read_bind_error hd]; simp [hd, bind, Except.bind, Except.map]
  | ok dir =>
    rw [read_bind_ok hd]
    simp only [read_apply, CapDir.entries, CapDir.ask, hd, bind, Except.bind]
    cases (h.tree dir.tree).pathOf dir.ino <;> rfl

/-- **What is listed.** The names answered are those of the directory listed. -/
theorem readDirNames_eq {p : VirtualPath} :
    (v.readDirNames p h).1 = (v.listed p h).map Listed.names := by
  unfold readDirNames
  rw [show readDirNamesAt = fun l => .read fun h => (listedAt l h).map Listed.names from
    funext readDirNamesAt_eq]
  exact answer_map fun _ _ => rfl

/-- The entry a location names, by the tree it is in and its path there. A final link is not
followed. -/
def entryAt (l : Located) (h : Host) : Except IoError (Nat × HostPath) :=
  l.mount.dir.ask (fun t root =>
    if l.relative = [] then .ok (l.mount.dir.tree, root)
    else (t.lookup root false l.relative).map (l.mount.dir.tree, ·)) h

def entry (v : Vfs) (q : VirtualPath) (h : Host) : Except IoError (Nat × HostPath) :=
  v.answer q false entryAt h

/-! ### The directory listed -/

section Child

variable {l l' : Located} {p q : VirtualPath} {d : OsStr} {s : Listed}

theorem listedAt_eq_ok : listedAt l h = .ok s ↔ s.located = l ∧ dirAt l h = .ok s.dir ∧
    (h.tree s.dir.tree).pathOf s.dir.ino = some s.path ∧
      s.names = ((h.tree s.dir.tree).names s.path).filter isUtf8 := by
  unfold listedAt
  rw [except_bind_eq_ok]
  constructor
  · rintro ⟨dir, hdir, hask⟩
    obtain ⟨root, hroot, heq⟩ := CapDir.ask_eq_ok.1 hask
    obtain rfl := Except.ok.inj heq
    exact ⟨rfl, hdir, hroot, rfl⟩
  · obtain ⟨l', dir, path, names⟩ := s
    dsimp only
    rintro ⟨rfl, hdir, hroot, rfl⟩
    exact ⟨dir, hdir, CapDir.ask_eq_ok.2 ⟨path, hroot, rfl⟩⟩

theorem dirAt_path (hl : v.locateExact q = .ok l) {dir : CapDir} {path : HostPath}
    (hdir : dirAt l h = .ok dir) (hpath : (h.tree dir.tree).pathOf dir.ino = some path) :
    dir.tree = l.mount.dir.tree ∧ (h.tree dir.tree).isDir path = true ∧
      ((l.relative = [] ∧ path = []) ∨
        (h.tree dir.tree).lookup [] true l.relative = .ok path) := by
  have hnode := Tree.pathOf_eq_some.1 hpath
  have hroot := pathOf_root (h := h) hl
  unfold dirAt at hdir
  split_ifs at hdir with hnil
  · obtain rfl := Except.ok.inj hdir
    exact ⟨rfl, Tree.isDir_iff.2 ⟨_, hnode⟩, Or.inl ⟨hnil, Option.some.inj (hpath.symm.trans hroot)⟩⟩
  · obtain ⟨root, r, i, hr, hlook, hn, rfl⟩ := CapDir.openDir_eq_ok.1 hdir
    obtain rfl := Option.some.inj (hr.symm.trans hroot)
    obtain rfl : path = r := Option.some.inj (hpath.symm.trans (Tree.pathOf_eq_some.2 hn))
    exact ⟨rfl, Tree.isDir_iff.2 ⟨_, hnode⟩, Or.inr hlook⟩

/-- **A name in a directory.** The location beneath the location of a directory names the entry of
that name in it. -/
theorem entryAt_child (hl : v.locateExact q = .ok l) {dir : CapDir} {path : HostPath}
    (hdir : dirAt l h = .ok dir) (hpath : (h.tree dir.tree).pathOf dir.ino = some path)
    (hd : IsComponent d) (hm : l'.mount = l.mount) (hr : l'.relative = l.relative ++ [d]) :
    entryAt l' h = .ok (dir.tree, path ++ [d]) := by
  obtain ⟨ht, hisDir, hwhere⟩ := dirAt_path hl hdir hpath
  have hlook : (h.tree dir.tree).lookup [] false (l.relative ++ [d]) = .ok (path ++ [d]) := by
    rcases hwhere with ⟨hnil, rfl⟩ | hlook
    · rw [hnil]
      exact Tree.lookup_eq_ok.2 ⟨by simp, by simpa using hd.no_nul, Tree.walk_name hd.isPlain⟩
    · obtain ⟨-, hnul, hwalk⟩ := Tree.lookup_eq_ok.1 hlook
      refine Tree.lookup_eq_ok.2 ⟨by simp, ?_, ?_⟩
      · rintro ⟨c, hc, hn⟩
        rcases List.mem_append.1 hc with hc | hc
        · exact hnul ⟨c, hc, hn⟩
        · exact hd.no_nul (List.mem_singleton.1 hc ▸ hn)
      · obtain ⟨b, -, hb⟩ := Tree.walk_append hwalk hisDir
          (show false = true ∨ [d] ≠ [] from Or.inr (by simp))
        rw [hb, Tree.walk_name hd.isPlain]
  refine CapDir.ask_eq_ok.2 ⟨[], hm ▸ pathOf_root hl, ?_⟩
  rw [if_neg (by simp [hr]), hm, hr, ← ht, hlook]
  rfl

theorem entryAt_root (hl : v.locateExact q = .ok l) (hnil : l.relative = []) :
    entryAt l h = .ok (l.mount.dir.tree, []) :=
  CapDir.ask_eq_ok.2 ⟨[], pathOf_root hl, by rw [if_pos hnil]⟩

theorem entryAt_denied (hl : v.locateExact q = .ok l) (hd : IsComponent d)
    (hm : l'.mount = l.mount) (hr : l'.relative = l.relative ++ [d]) {e : IoError}
    (he : listedAt l h = .error e) (hk : e.kind = .permissionDenied) :
    entryAt l' h = .error e := by
  have hroot := pathOf_root (h := h) hl
  have hdirAt : dirAt l h = .error e := by
    unfold listedAt at he
    cases hdir : dirAt l h with
    | error e' =>
      rw [hdir] at he
      exact congrArg _ (Except.error.inj he)
    | ok dir =>
      rw [hdir] at he
      simp only [bind, Except.bind, CapDir.ask] at he
      split at he
      · obtain rfl := Except.error.inj he
        cases hk
      · cases he
  unfold dirAt at hdirAt
  split_ifs at hdirAt with hnil
  simp only [CapDir.openDir, CapDir.ask, hroot, Tree.openDir, Tree.stat] at hdirAt
  cases hlook : (h.tree l.mount.dir.tree).lookup [] true l.relative with
  | ok path =>
    rw [hlook] at hdirAt
    dsimp only at hdirAt
    cases hn : (h.tree l.mount.dir.tree).node path with
    | none =>
      rw [hn] at hdirAt
      obtain rfl := Except.error.inj hdirAt
      cases hk
    | some n =>
      rw [hn] at hdirAt
      dsimp only at hdirAt
      split_ifs at hdirAt
      · cases hdirAt
      · obtain rfl := Except.error.inj hdirAt
        cases hk
  | error e' =>
    rw [hlook] at hdirAt
    obtain rfl : e' = e := Except.error.inj hdirAt
    unfold Tree.lookup at hlook
    split_ifs at hlook with hnul
    · obtain rfl := Except.error.inj hlook
      cases hk
    · have hwalk := Tree.walk_append_error hlook (show false = true ∨ [d] ≠ [] from
        Or.inr (by simp))
      have hlook' : (h.tree l.mount.dir.tree).lookup [] false (l.relative ++ [d]) = .error e' := by
        rw [Tree.lookup, if_neg (by simp), if_neg, hwalk]
        rintro ⟨c, hc, hn⟩
        rcases List.mem_append.1 hc with hc | hc
        · exact hnul ⟨c, hc, hn⟩
        · exact hd.no_nul (List.mem_singleton.1 hc ▸ hn)
      unfold entryAt CapDir.ask
      rw [hm, hroot, hr]
      dsimp only
      rw [if_neg (by simp), hlook']
      rfl

theorem exact_push_cases {hd : IsComponent d} (hp : v.locateExact p = .ok l)
    (hq : v.locateExact (p.push d hd) = .ok l') :
    (l'.mount.at = p.push d hd ∧ l'.relative = []) ∨
      (l'.mount = l.mount ∧ l'.relative = l.relative ++ [d]) := by
  have hcomp := components_of_locateExact hq
  rw [VirtualPath.components_push] at hcomp
  rcases List.eq_nil_or_concat l'.relative with hnil | ⟨r, c, hr⟩
  · rw [hnil, List.append_nil] at hcomp
    exact Or.inl ⟨VirtualPath.ext hcomp.symm, hnil⟩
  · rw [List.concat_eq_append] at hr
    rw [hr, ← List.append_assoc] at hcomp
    obtain ⟨hcomp, hc⟩ := List.append_inj' hcomp rfl
    have hl : v.locateExact p = .ok ⟨l'.mount, r, p⟩ :=
      exact_above (q := p) hq (hr ▸ List.prefix_append _ _) hcomp
    obtain rfl := Except.ok.inj (hp.symm.trans hl)
    exact Or.inr ⟨rfl, by rw [hr, List.singleton_inj.1 hc]⟩

/-! ### What lies beneath a listed path -/

variable (v p) in
/-- Whether a mount lies where a name of the directory listed at `located` would be: at the path as
it is written, unless that is walked anyway, or where the walk leads. -/
def Overmounted (located : VirtualPath) (d : OsStr) : Prop :=
  (∃ m ∈ v.table.mounts, m.at.components = p.components ++ [d] ∧ m.shadowsNested = false) ∨
    ∃ m ∈ v.table.mounts, m.at.components = located.components ++ [d]

theorem listed_eq_ok : v.listed p h = .ok s ↔
    v.AnsweredAt h p true listedAt s.located ∧ listedAt s.located h = .ok s := by
  rw [listed, answer_eq_ok]
  constructor
  · rintro ⟨l, hl, hs⟩
    obtain rfl := (listedAt_eq_ok.1 hs).1
    exact ⟨hl, hs⟩
  · exact fun ⟨hl, hs⟩ => ⟨_, hl, hs⟩

theorem answeredAt_push (hd : IsComponent d) (hs : v.listed p h = .ok s) :
    ∃ l', v.AnsweredAt h (p.push d hd) false entryAt l' ∧
      ((l'.mount.at = p.push d hd ∧ l'.mount.shadowsNested = false ∧ l'.relative = []) ∨
        v.locateExact (s.located.virtualPath.push d hd) = .ok l' ∧
          ∀ m ∈ v.table.mounts, m.at = p.push d hd → m.shadowsNested = true) := by
  obtain ⟨hat, hs⟩ := listed_eq_ok.1 hs
  obtain ⟨-, hdir, hpath, -⟩ := listedAt_eq_ok.1 hs
  cases hat with
  | direct hl hns hk =>
    -- nothing is mounted beneath a mount that shadows nothing
    obtain ⟨l', hl'⟩ := exists_exact_push hd hl
    have hnone : ∀ m ∈ v.table.mounts, m.at ≠ p.push d hd := by
      intro m hm he
      have hbelow := (MountTable.shadowsNested_iff (mem_of_locateExact hl)).2 ⟨m, hm, ?_, ?_⟩
      · rw [hns] at hbelow
        cases hbelow
      · intro he'
        have hlen := congrArg (List.length ∘ VirtualPath.components) (he.symm.trans he')
        have hcomp := congrArg List.length (components_of_locateExact hl)
        simp only [Function.comp_apply, VirtualPath.components_push, List.length_append,
          List.length_singleton] at hlen hcomp
        omega
      · rw [he, VirtualPath.components_push, components_of_locateExact hl, List.append_assoc]
        exact List.prefix_append _ _
    obtain ⟨hat, -⟩ | ⟨hm, hr⟩ := exact_push_cases hl hl'
    · exact absurd hat (hnone _ (mem_of_locateExact hl'))
    · refine ⟨l', .direct hl' (hm ▸ hns) ?_, Or.inr ⟨?_, fun m hm he => absurd he (hnone m hm)⟩⟩
      · rw [entryAt_child hl hdir hpath hd hm hr]
        exact fun e he => by cases he
      · rwa [(locateExact_eq_ok.1 hl).2]
  | walked l₀ hl₀ hs₀ hl =>
    obtain ⟨lq, hlq⟩ := exists_exact_push hd hl₀
    obtain ⟨l', hl'⟩ := exists_exact_push hd (exact_of_locate hl)
    have hwalk : v.locate (p.push d hd) false h = .ok l' := (locate_push hl).trans hl'
    by_cases hquick : lq.mount.at = p.push d hd ∧ lq.mount.shadowsNested = false
    · have hnil : lq.relative = [] := by
        have hcomp := components_of_locateExact hlq
        rw [hquick.1] at hcomp
        exact List.self_eq_append_right.1 hcomp
      refine ⟨lq, .direct hlq hquick.2 ?_, Or.inl ⟨hquick.1, hquick.2, hnil⟩⟩
      rw [entryAt_root hlq hnil]
      exact fun e he => by cases he
    · refine ⟨l', .walked lq hlq ?_ hwalk, Or.inr ⟨hl', fun m hm he => ?_⟩⟩
      · rcases exact_push_cases hl₀ hlq with ⟨hat, -⟩ | ⟨hm, hr⟩
        · exact Or.inl (by simpa [hat] using hquick)
        · rw [hm]
          refine hs₀.imp_right fun ⟨e, he, hk⟩ => ⟨e, entryAt_denied hl₀ hd hm hr he hk, hk⟩
      · have hres := MountTable.resolve_at hm
        rw [he, (locateExact_eq_ok.1 hlq).1] at hres
        obtain ⟨rfl, -⟩ := Prod.mk.inj (Option.some.inj hres)
        simpa [he] using hquick

/-- **Beneath a listed path.** The path one component further names the entry of that name in the
directory listed, unless a mount lies there, whose root it then names. -/
theorem entry_push (hd : IsComponent d) (hs : v.listed p h = .ok s) :
    (v.Overmounted p s.located.virtualPath d → ∃ t, v.entry (p.push d hd) h = .ok (t, [])) ∧
      (¬ v.Overmounted p s.located.virtualPath d →
        v.entry (p.push d hd) h = .ok (s.dir.tree, s.path ++ [d])) := by
  obtain ⟨l', hans, hwhere⟩ := answeredAt_push hd hs
  obtain ⟨hat, hs⟩ := listed_eq_ok.1 hs
  obtain ⟨-, hdir, hpath, -⟩ := listedAt_eq_ok.1 hs
  have hl : v.locateExact s.located.virtualPath = .ok s.located := by
    cases hat with
    | direct hl _ _ => rwa [(locateExact_eq_ok.1 hl).2]
    | walked _ _ _ hl => exact exact_of_locate hl
  have hentry : ∀ {x}, entryAt l' h = .ok x → v.entry (p.push d hd) h = .ok x :=
    fun hx => answer_eq_ok.2 ⟨l', hans, hx⟩
  have hl' : ∃ q, v.locateExact q = .ok l' := by
    cases hans with
    | direct hl _ _ => exact ⟨_, hl⟩
    | walked _ _ _ hl => exact ⟨_, exact_of_locate hl⟩
  obtain ⟨q', hq'⟩ := hl'
  rcases hwhere with ⟨hown, hns, hnil⟩ | ⟨hbelow, hquick⟩
  · refine ⟨fun _ => ⟨_, hentry (entryAt_root hq' hnil)⟩, fun hno => absurd ?_ hno⟩
    exact Or.inl ⟨l'.mount, mem_of_locateExact hq', by rw [hown]; rfl, hns⟩
  · rcases exact_push_cases hl hbelow with ⟨hroot, hnil⟩ | ⟨hm, hr⟩
    · refine ⟨fun _ => ⟨_, hentry (entryAt_root hq' hnil)⟩, fun hno => absurd ?_ hno⟩
      exact Or.inr ⟨l'.mount, mem_of_locateExact hq', by rw [hroot]; rfl⟩
    · have hchild := hentry (entryAt_child hl hdir hpath hd hm hr)
      refine ⟨fun hover => absurd hover ?_, fun _ => hchild⟩
      rintro (⟨m, hmem, hat, hns⟩ | ⟨m, hmem, hat⟩)
      · have hsh := hquick m hmem (VirtualPath.ext (by rw [hat]; rfl))
        rw [hns] at hsh
        cases hsh
      · -- a mount at the entry would govern it
        have hres := MountTable.resolve_at hmem
        rw [show m.at = s.located.virtualPath.push d hd from VirtualPath.ext (by rw [hat]; rfl),
          (locateExact_eq_ok.1 hbelow).1, hr] at hres
        obtain ⟨-, hnil⟩ := Prod.mk.inj (Option.some.inj hres)
        simp at hnil

end Child

/-! ## Agreement -/

/-- `ambient::DirEntry`. -/
structure AmbientEntry where
  path : VirtualPath
  name : OsStr

/-- `ReadDir::next`, for every name of a listing. -/
def readDirItems (dir : VirtualPath) (names : List OsStr) : List (Except IoError AmbientEntry) :=
  names.map fun name =>
    match dir.resolve name with
    | .ok path => .ok ⟨path, name⟩
    | .error e => .error (invalidPath e)

/-- What the host answers of a node of its tree `i`. -/
def nodeMetadata (h : Host) (i : Nat) (n : Node) : Metadata :=
  ⟨i, n.ino, n.kind, (h.tree i).attr n.ino⟩

def metadataOf (h : Host) (i : Nat) (path : HostPath) : Option Metadata :=
  ((h.tree i).node path).map (nodeMetadata h i)

variable (v h) in
/-- Listing and lookup agree on a directory `s` as it was listed at `p`. -/
structure Agreement (p : VirtualPath) (s : Listed) : Prop where
  /-- Every name resolves, to a path that names the entry listed. -/
  found : ∀ n ∈ s.names, ∃ q, p.resolve n = .ok q ∧ v.entry q h = .ok (s.dir.tree, s.path ++ [n])
  /-- No two names resolve alike. -/
  apart : ∀ n ∈ s.names, ∀ n' ∈ s.names, ∀ q, p.resolve n = .ok q → p.resolve n' = .ok q → n = n'
  /-- The ambient iterator yields no error, and paths of the entries listed. -/
  ambient : ∀ item ∈ readDirItems p s.names, ∃ e, item = .ok e ∧
    v.entry e.path h = .ok (s.dir.tree, s.path ++ [e.name])
  /-- The walk yields no error, and the entries listed. -/
  walked : ∀ frame : Frame, frame.path = p → frame.dir.inner = s.dir → ∀ depth, ∀ n ∈ s.names,
    ∃ dent, IntoIter.childOf h frame depth n = .ok dent ∧
      v.entry dent.path h = .ok (s.dir.tree, s.path ++ [n]) ∧
      metadataOf h s.dir.tree (s.path ++ [n]) = some dent.metadata

variable (v h) in
/-- Listing and lookup agree on the directory `p`, if it is listed. -/
def Agrees (p : VirtualPath) : Prop :=
  ∀ names, (v.readDirNames p h).1 = .ok names →
    ∃ s, v.listed p h = .ok s ∧ s.names = names ∧ v.Agreement h p s

variable {p : VirtualPath} {s : Listed} {n : OsStr}

theorem isName_of_listed (hs : v.listed p h = .ok s) (hn : n ∈ s.names) :
    IsName n ∧ (h.tree s.dir.tree).isPresent (s.path ++ [n]) = true := by
  obtain ⟨-, hs⟩ := listed_eq_ok.1 hs
  obtain ⟨-, -, -, hnames⟩ := listedAt_eq_ok.1 hs
  rw [hnames, List.mem_filter] at hn
  have hpres := Tree.mem_names.1 hn.1
  obtain ⟨node, hnode⟩ := Tree.isPresent_iff.1 hpres
  exact ⟨(h.tree s.dir.tree).name_ok _ _ _ hnode, hpres⟩

theorem findable_of_entry (hs : v.listed p h = .ok s) (hn : n ∈ s.names) {q : VirtualPath}
    (hq : p.resolve n = .ok q) (he : v.entry q h = .ok (s.dir.tree, s.path ++ [n])) :
    IsComponent n ∧ ¬ v.Overmounted p s.located.virtualPath n := by
  obtain ⟨hname, -⟩ := isName_of_listed hs hn
  obtain ⟨hnul, hback, d, hvalid, hcomp⟩ :=
    (VirtualPath.resolve_name hname.ne_nil hname.no_slash hname.ne_dot hname.ne_dotdot).1 hq
  have hd : IsComponent d := isComponent_of_validate hname.ne_nil hname.no_slash hback hnul hvalid
  obtain rfl : q = p.push d hd := VirtualPath.ext hcomp
  obtain ⟨hover, hfree⟩ := entry_push hd hs
  have hno : ¬ v.Overmounted p s.located.virtualPath d := by
    intro h
    obtain ⟨t, ht⟩ := hover h
    rw [ht] at he
    have := (Prod.mk.inj (Except.ok.inj he)).2
    simp at this
  have hsame := (Prod.mk.inj (Except.ok.inj ((hfree hno).symm.trans he))).2
  obtain rfl : d = n := List.singleton_inj.1 (List.append_cancel_left hsame)
  exact ⟨hd, hno⟩

theorem childOf_listed (hs : v.listed p h = .ok s) (hn : n ∈ s.names) (hc : IsComponent n)
    {frame : Frame} (hpath : frame.path = p) (hdir : frame.dir.inner = s.dir) (depth : Nat) :
    ∃ dent, IntoIter.childOf h frame depth n = .ok dent ∧ dent.path = p.push n hc ∧
      metadataOf h s.dir.tree (s.path ++ [n]) = some dent.metadata := by
  obtain ⟨hname, hpres⟩ := isName_of_listed hs hn
  obtain ⟨-, -, hroot, -⟩ := listedAt_eq_ok.1 (listed_eq_ok.1 hs).2
  obtain ⟨node, hnode⟩ := Tree.isPresent_iff.1 hpres
  have hstat : frame.dir.inner.symlinkMetadata [n] h = .ok (nodeMetadata h s.dir.tree node) := by
    rw [hdir]
    refine CapDir.statWith_eq_ok.2 ⟨s.path, s.path ++ [n], node, hroot, ?_, hnode, rfl⟩
    exact Tree.lookup_eq_ok.2 ⟨by simp, by simpa using hc.no_nul, Tree.walk_name hc.isPlain⟩
  have hcomponent : component n = .ok n := by
    rw [component, if_neg]
    simp [hc.ne_nil, hc.ne_dot, hc.ne_dotdot, hc.no_slash, hc.no_backslash]
  have hmeta : frame.dir.symlinkMetadata n h = .ok (nodeMetadata h s.dir.tree node) := by
    rw [Dir.symlinkMetadata, hcomponent]
    change symlinkMetadataAt frame.dir.inner n h = _
    rw [symlinkMetadataAt, if_neg hc.no_nul, hstat]
  have hchild : IntoIter.childOf h frame depth n = .ok ⟨p.push n hc, frame.display ++ [n], n, depth,
      nodeMetadata h s.dir.tree node, (nodeMetadata h s.dir.tree node).isSymlink, false⟩ := by
    rw [IntoIter.childOf, hpath, VirtualPath.resolve_component p hc]
    dsimp only
    rw [hmeta]
  exact ⟨_, hchild, rfl, by rw [metadataOf, hnode]; rfl⟩

/-- **Listing and lookup agree** on a directory if and only if every name listed is one the grammar
keeps as it is, and no mount lies where an entry does. -/
theorem agrees_iff (v : Vfs) (h : Host) (p : VirtualPath) : v.Agrees h p ↔
    ∀ s, v.listed p h = .ok s → ∀ n ∈ s.names,
      IsComponent n ∧ ¬ v.Overmounted p s.located.virtualPath n := by
  constructor
  · intro hagrees s hs n hn
    obtain ⟨s', hs', -, hag⟩ := hagrees s.names (by rw [readDirNames_eq, hs]; rfl)
    obtain rfl := Except.ok.inj (hs.symm.trans hs')
    obtain ⟨q, hq, he⟩ := hag.found n hn
    exact findable_of_entry hs hn hq he
  · intro hfind names hnames
    rw [readDirNames_eq] at hnames
    cases hs : v.listed p h with
    | error e =>
      rw [hs] at hnames
      cases hnames
    | ok s =>
      rw [hs] at hnames
      obtain rfl := Except.ok.inj hnames
      have hentry : ∀ n ∈ s.names, ∃ hc : IsComponent n, p.resolve n = .ok (p.push n hc) ∧
          v.entry (p.push n hc) h = .ok (s.dir.tree, s.path ++ [n]) := by
        intro n hn
        obtain ⟨hc, hno⟩ := hfind s hs n hn
        exact ⟨hc, VirtualPath.resolve_component p hc, (entry_push hc hs).2 hno⟩
      refine ⟨s, rfl, rfl, ⟨?_, ?_, ?_, ?_⟩⟩
      · intro n hn
        obtain ⟨hc, hq, he⟩ := hentry n hn
        exact ⟨_, hq, he⟩
      · intro n hn n' hn' q hq hq'
        obtain ⟨hc, hr, -⟩ := hentry n hn
        obtain ⟨hc', hr', -⟩ := hentry n' hn'
        have hsame := congrArg VirtualPath.components
          ((Except.ok.inj (hr.symm.trans hq)).trans (Except.ok.inj (hr'.symm.trans hq')).symm)
        exact List.singleton_inj.1 (List.append_cancel_left hsame)
      · intro item hitem
        obtain ⟨n, hn, rfl⟩ := List.mem_map.1 hitem
        obtain ⟨hc, hq, he⟩ := hentry n hn
        exact ⟨⟨p.push n hc, n⟩, by rw [hq], he⟩
      · intro frame hpath hdir depth n hn
        obtain ⟨hc, -, he⟩ := hentry n hn
        obtain ⟨dent, hdent, hp, hmeta⟩ := childOf_listed hs hn hc hpath hdir depth
        exact ⟨dent, hdent, hp ▸ he, hmeta⟩

end Seahaven.Vfs

namespace Seahaven.Vfs

open Host OsStr

section Fixture

attribute [local instance] composed

def colonHost : Host := .ofTrees [.ofEntries [([os "a:b"], .file)]]

/-- `/work`, writable, alone. -/
def workVfs : Vfs where
  table := .fromMounts [⟨⟨[os "work"], work_valid⟩, ⟨0, 0⟩, none, none, .readWrite, false⟩]
    (by simp)
  roots := by decide
  apart := by decide

/-- **Listed, and not found.** A name with a colon in it is listed, and no path names its entry. -/
theorem colon_not_agrees : ¬ workVfs.Agrees colonHost ⟨[os "work"], by decide⟩ := by
  intro hagrees
  obtain ⟨s, -, hnames, hag⟩ := hagrees [os "a:b"] (by decide)
  obtain ⟨q, hq, -⟩ := hag.found (os "a:b") (hnames ▸ List.mem_singleton_self _)
  have : (VirtualPath.resolve ⟨[os "work"], by decide⟩ (os "a:b")).isOk = false := by decide
  rw [hq] at this
  cases this

end Fixture

end Seahaven.Vfs
