import Mathlib.Algebra.Order.BigOperators.Group.List
import Mathlib.Algebra.Order.Ring.Nat
import Seahaven.Vfs.CourseRun
import Seahaven.Vfs.WalkRun
import Seahaven.Vfs.LocateLoop

/-!
# Following links

A walk that follows links may be led anywhere in the namespace, also into directories it is in.

1. `bounded`: a host's namespace is bounded.
2. `Reached`: the iterator in a walk over a host. `Kept`: what is kept of it.
3. `loop_iff`: when a round answers that a link leads back.
4. `follow_settles`: a walk that follows links comes to an end.
-/

namespace Seahaven.Vfs

open Host OsStr

variable [Unicode]

variable (h : Host) (v : Vfs)

def identities : List FileIdentity :=
  v.table.mounts.flatMap fun m => (h.tree m.dir.tree).keys.filterMap fun p =>
    ((h.tree m.dir.tree).node p).map fun n => ⟨m.dir.tree, n.ino⟩

def heightOf : Nat := (v.table.mounts.flatMap fun m => (h.tree m.dir.tree).keys.map List.length).sum

def IsHeld (dir : Dir) : Prop := ∃ m ∈ v.table.mounts, dir.inner.tree = m.dir.tree ∧
  ∃ p, (h.tree dir.inner.tree).pathOf dir.inner.ino = some p

def rankOf (dir : Dir) : Nat := ((h.tree dir.inner.tree).pathOf dir.inner.ino).elim 0 List.length

variable {h v} {dir sub : Dir} {c : OsStr}

theorem isHeld_openDir {p : VirtualPath} (hopen : v.openDir p h = .ok dir) : IsHeld h v dir := by
  unfold openDir locateDir at hopen
  cases hl : v.locateFollow p h with
  | error e => rw [hl] at hopen; cases hopen
  | ok l =>
    rw [hl] at hopen
    change ((dirAt l h >>= fun dir => .ok (dir, l.mount.access.isWritable)).map _) = _ at hopen
    cases hdir : dirAt l h with
    | error e => rw [hdir] at hopen; cases hopen
    | ok d =>
      rw [hdir] at hopen
      obtain rfl := Except.ok.inj hopen
      have hexact := exact_of_locate hl
      have hm := mem_of_locateExact hexact
      have hroot := pathOf_root (h := h) hexact
      unfold dirAt at hdir
      split_ifs at hdir with hnil
      · obtain rfl := Except.ok.inj hdir
        exact ⟨l.mount, hm, rfl, [], hroot⟩
      · obtain ⟨root, r, i, -, -, hn, rfl⟩ := CapDir.openDir_eq_ok.1 hdir
        exact ⟨l.mount, hm, rfl, r, Tree.pathOf_eq_some.2 hn⟩

theorem isHeld_openAt {m : Metadata} (hdir : IsHeld h v dir) (hm : dir.symlinkMetadata c h = .ok m)
    (hkind : m.isDir = true) (hopen : dir.openDir c h = .ok sub) :
    IsHeld h v sub ∧ rankOf h sub = rankOf h dir + 1 := by
  obtain ⟨mount, hmount, htree, p, hp⟩ := hdir
  unfold Dir.symlinkMetadata at hm
  unfold Dir.openDir at hopen
  cases hcomp : component c with
  | error e => rw [hcomp] at hm; cases hm
  | ok c' =>
    rw [hcomp] at hm hopen
    change symlinkMetadataAt dir.inner c' h = .ok m at hm
    change (dir.inner.openDir [c'] h).map _ = .ok sub at hopen
    unfold symlinkMetadataAt at hm
    split_ifs at hm with hnul
    obtain ⟨hname, rfl⟩ : IsName c ∧ c = c' := by
      unfold component at hcomp
      split_ifs at hcomp with hbad
      push Not at hbad
      obtain rfl := Except.ok.inj hcomp
      exact ⟨⟨hbad.1, hbad.2.2.2.1, hnul, hbad.2.1, hbad.2.2.1⟩, rfl⟩
    obtain ⟨root, r, n, hroot, hr, hn, rfl⟩ := CapDir.statWith_eq_ok.1 hm
    obtain rfl := Option.some.inj (hp.symm.trans hroot)
    obtain rfl : r = p ++ [c] := by
      rw [Site.lookup_name hname] at hr
      exact (Except.ok.inj hr).symm
    obtain ⟨ino, kind⟩ := n
    obtain rfl : kind = .dir := of_decide_eq_true hkind
    cases hsub : dir.inner.openDir [c] h with
    | error e => rw [hsub] at hopen; cases hopen
    | ok inner =>
      rw [hsub] at hopen
      obtain rfl := Except.ok.inj hopen
      obtain ⟨root', r', i, hroot', hr', hn', rfl⟩ := CapDir.openDir_eq_ok.1 hsub
      obtain rfl := Option.some.inj (hp.symm.trans hroot')
      obtain rfl : r' = p ++ [c] := by
        obtain ⟨-, -, hwalk⟩ := Tree.lookup_eq_ok.1 hr'
        rw [Tree.walk_present (by simpa using Site.isPlain_of_isName hname)
          (Tree.isPresent_iff.2 ⟨_, hn⟩) fun _ => by rw [Tree.linkAt, hn]] at hwalk
        exact (Except.ok.inj hwalk).symm
      have hpath : (h.tree dir.inner.tree).pathOf i = some (p ++ [c]) := Tree.pathOf_eq_some.2 hn'
      refine ⟨⟨mount, hmount, htree, p ++ [c], hpath⟩, ?_⟩
      unfold rankOf
      rw [hp]
      dsimp only
      rw [hpath]
      simp

theorem mem_identities (hdir : IsHeld h v dir) : dir.identity ∈ (identities h v).toFinset := by
  obtain ⟨m, hm, htree, p, hp⟩ := hdir
  have hn := Tree.pathOf_eq_some.1 hp
  refine List.mem_toFinset.2 (List.mem_flatMap.2 ⟨m, hm, List.mem_filterMap.2 ⟨p, ?_, ?_⟩⟩)
  · rw [← htree]
    exact (h.tree dir.inner.tree).mem_keys p _ hn
  · rw [← htree, hn]
    rfl

theorem rankOf_le (hdir : IsHeld h v dir) : rankOf h dir ≤ heightOf h v := by
  obtain ⟨m, hm, htree, p, hp⟩ := hdir
  have hn := Tree.pathOf_eq_some.1 hp
  have hkey := (h.tree dir.inner.tree).mem_keys p _ hn
  rw [htree] at hkey
  unfold rankOf heightOf
  rw [hp]
  exact List.single_le_sum (fun x _ => Nat.zero_le x) _
    (List.mem_flatMap.2 ⟨m, hm, List.mem_map_of_mem hkey⟩)

omit [Unicode] in
theorem nodup_entryNames {names : List OsStr} (hnames : dir.entryNames h = .ok names) :
    names.Nodup := by
  unfold Dir.entryNames CapDir.entries CapDir.ask at hnames
  cases hp : (h.tree dir.inner.tree).pathOf dir.inner.ino with
  | none => rw [hp] at hnames; cases hnames
  | some p =>
    rw [hp] at hnames
    obtain rfl := Except.ok.inj hnames
    exact (List.nodup_dedup _).filter _

variable (h v) in
/-- **A host's namespace is bounded.** -/
def bounded : Bounded (.ofHost h v) where
  Held := IsHeld h v
  rank := rankOf h
  height := heightOf h v
  ids := (identities h v).toFinset
  openDir := isHeld_openDir
  openAt := isHeld_openAt
  mem := mem_identities
  rank_le := rankOf_le
  nodup := nodup_entryNames

def IsLoop (e : WalkError) : Prop := ∃ ancestor, e.kind = .loop ancestor

namespace Course

variable {C : Course} {B : Bounded C.answers} {f : Frame} {fs stack : List Frame} {ds : List DirEntry}
  {k : Nat}

/-! ## Loop errors -/

variable (C) in
def Returns (stack : List Frame) (d : DirEntry) : Prop :=
  d.isSymlink = true ∧ ∃ m dir, C.answers.metadata d.path = .ok m ∧ m.isDir = true ∧
    C.answers.openDir d.path = .ok dir ∧ ∃ g ∈ stack, g.dir.identity = dir.identity

variable {d : DirEntry} {e : WalkError}

omit [Unicode] in
theorem not_isLoop_io {depth : Nat} {path : Option PathBuf} {e : IoError} :
    ¬IsLoop (.io depth path e) := by
  rintro ⟨ancestor, h⟩
  cases h

theorem loopsTo_of_not_followed {dir : Dir} (hd : d.followed = false) :
    C.loopsTo stack d dir = none := by
  unfold loopsTo
  rw [hd]

theorem not_crosses_of_open {g : Frame} {dir : Dir} (hs : C.Tame B stack) (hg : g ∈ stack)
    (heq : g.dir.identity = dir.identity) : C.crosses dir = false := by
  unfold crosses
  cases hsame : C.opts.sameFileSystem with
  | false => rfl
  | true =>
    rw [identity_of_sameFileSystem hsame, hs.device hsame g hg, heq]
    simp

theorem loopsTo_isSome {dir : Dir} (hs : C.Tame B stack) (hfol : C.opts.followLinks = true)
    (hd : d.followed = true) : (∃ ancestor, C.loopsTo stack d dir = some ancestor) ↔
      ∃ g ∈ stack, g.dir.identity = dir.identity := by
  have hid : ∀ g ∈ stack, g.identity = some g.dir.identity := fun g hg => by
    rw [hs.identity g hg, identity_of_follow hfol]
  unfold loopsTo
  rw [hd, identity_of_follow hfol]
  dsimp only
  constructor
  · rintro ⟨g, hg⟩
    have hmem := List.mem_of_find?_eq_some hg
    have heq := List.find?_some hg
    rw [hid g hmem] at heq
    exact ⟨g, hmem, by simpa using heq⟩
  · rintro ⟨g, hg, heq⟩
    cases hfind : stack.find? fun f => decide (f.identity = some dir.identity) with
    | some ancestor => exact ⟨ancestor, rfl⟩
    | none =>
      have hne := List.find?_eq_none.1 hfind g hg
      rw [hid g hg, heq] at hne
      simp at hne

theorem descends_loop_iff (hs : C.Tame B (f :: fs)) (hfol : C.opts.followLinks = true) :
    (∃ e, IsLoop e ∧ (C.descends (f :: fs) d = .fails e ∨ ∃ d', C.descends (f :: fs) d = .shut d' e)) ↔
      d.followed = true ∧ ∃ dir, C.answers.openDir d.path = .ok dir ∧
        ∃ g ∈ f :: fs, g.dir.identity = dir.identity := by
  constructor
  · rintro ⟨e, he, h⟩
    unfold descends enters at h
    cases hopen : C.opening (f :: fs) d with
    | error e' =>
      rw [hopen] at h
      obtain ⟨x, hx⟩ : ∃ x, e' = .io d.depth (some d.display) x := by
        unfold opening Except.mapError at hopen
        split at hopen
        · exact ⟨_, (Except.error.inj hopen).symm⟩
        · cases hopen
      obtain rfl : e' = e := by
        rcases h with h | ⟨d', h⟩
        · cases h
        · exact (Fate.shut.inj h).2
      exact (not_isLoop_io (hx ▸ he)).elim
    | ok dir =>
      rw [hopen] at h
      dsimp only at h
      split at h
      · rename_i e' heq
        split at heq
        · cases heq
        split at heq
        · cases heq
        split at heq
        · obtain rfl := Entered.refused.inj heq
          obtain rfl : WalkError.io d.depth (some d.display) _ = e := by
            rcases h with h | ⟨d', h⟩
            · cases h
            · exact (Fate.shut.inj h).2
          exact (not_isLoop_io he).elim
        · cases heq
      · rcases h with h | ⟨d', h⟩ <;> cases h
      · rename_i e' heq
        split at heq
        · cases heq
        split at heq
        · rename_i ancestor hloop
          cases hd : d.followed with
          | false =>
            rw [loopsTo_of_not_followed hd] at hloop
            cases hloop
          | true =>
            refine ⟨rfl, dir, ?_, (loopsTo_isSome hs hfol hd).1 ⟨ancestor, hloop⟩⟩
            have := opening_ok.1 hopen
            rw [hd] at this
            exact this
        split at heq <;> cases heq
      · rcases h with h | ⟨d', h⟩ <;> cases h
  · rintro ⟨hd, dir, hdir, g, hg, heq⟩
    have hopen : C.opening (f :: fs) d = .ok dir := by
      refine opening_ok.2 ?_
      rw [hd]
      exact hdir
    obtain ⟨ancestor, hloop⟩ := (loopsTo_isSome hs hfol hd).2 ⟨g, hg, heq⟩
    refine ⟨.symlinkLoop d.depth ancestor.display d.display, ⟨ancestor.display, rfl⟩, .inl ?_⟩
    unfold descends enters
    rw [hopen]
    dsimp only
    rw [not_crosses_of_open hs hg heq, Bool.and_false, if_neg Bool.false_ne_true, hloop]

/-- **Loop errors.** A name's error is that a link leads back where its entry is a link that leads
to a directory which is open. -/
theorem fate_loop_iff {c : OsStr} (hs : C.Tame B (f :: fs)) (hfol : C.opts.followLinks = true) :
    (∃ e, IsLoop e ∧ (C.fate (f :: fs) c = .fails e ∨ ∃ d, C.fate (f :: fs) c = .shut d e)) ↔
      ∃ d, C.answers.childOf f (fs.length + 1) c = .ok d ∧ C.Returns (f :: fs) d := by
  unfold fate
  dsimp only [List.length_cons]
  cases hchild : C.answers.childOf f (fs.length + 1) c with
  | error e =>
    constructor
    · rintro ⟨e', he, h | ⟨d, h⟩⟩
      · obtain rfl := Fate.fails.inj h
        unfold Answers.childOf at hchild
        split at hchild
        · obtain rfl := Except.error.inj hchild
          exact (not_isLoop_io he).elim
        split at hchild
        · obtain rfl := Except.error.inj hchild
          exact (not_isLoop_io he).elim
        · cases hchild
      · cases h
    · rintro ⟨d, hd, -⟩
      cases hd
  | ok d =>
    obtain ⟨path, m₀, -, -, hd⟩ := childOf_eq_ok hchild
    have hfol' : d.followed = false := by rw [hd]
    simp only [Except.ok.injEq, exists_eq_left']
    unfold fateOf
    cases hlink : d.isSymlink with
    | false =>
      rw [Bool.and_false, if_neg Bool.false_ne_true]
      refine iff_of_false ?_ fun h => absurd (hlink.symm.trans h.1) Bool.false_ne_true
      rintro ⟨e, he, h⟩
      split at h
      · have := (descends_loop_iff hs hfol).1 ⟨e, he, h⟩
        rw [hfol'] at this
        exact Bool.false_ne_true this.1
      · rcases h with h | ⟨d', h⟩ <;> cases h
    | true =>
      rw [hfol, Bool.and_true, if_pos rfl]
      constructor
      · rintro ⟨e, he, h⟩
        cases hstat : C.stat d.path with
        | error x =>
          rw [hstat] at h
          rcases h with h | ⟨d', h⟩ <;> cases h
          exact (not_isLoop_io he).elim
        | ok m =>
          rw [hstat] at h
          dsimp only at h
          cases hmeta : C.answers.metadata d.path with
          | error x =>
            rw [hmeta] at h
            rcases h with h | ⟨d', h⟩ <;> cases h
            exact (not_isLoop_io he).elim
          | ok m' =>
            rw [hmeta] at h
            dsimp only at h
            obtain rfl : m' = m := by
              rcases C.told d.path with heq | ⟨m₁, x, -, -, hx⟩
              · exact Except.ok.inj (hmeta.symm.trans (heq.trans hstat))
              · rw [hmeta] at hx
                cases hx
            split at h
            · rename_i hdir
              obtain ⟨-, dir, hopen, hg⟩ := (descends_loop_iff hs hfol).1 ⟨e, he, h⟩
              simp only [IntoIter.isNormalDir, target, Bool.and_eq_true] at hdir
              exact ⟨hlink, m', dir, hmeta, hdir.2, hopen, hg⟩
            · rcases h with h | ⟨d', h⟩ <;> cases h
      · rintro ⟨-, m, dir, hmeta, hdir, hopen, hg⟩
        have hstat : C.stat d.path = .ok m := by
          rcases C.told d.path with heq | ⟨m₁, x, -, -, hx⟩
          · exact heq.symm.trans hmeta
          · rw [hmeta] at hx
            cases hx
        rw [hstat]
        dsimp only
        rw [hmeta]
        dsimp only
        rw [if_pos (show IntoIter.isNormalDir (target d m) = true from by
          simp [IntoIter.isNormalDir, target, hdir])]
        exact (descends_loop_iff hs hfol).2 ⟨rfl, dir, hopen, hg⟩

/-! ## Rounds -/

variable {v : Vfs}

theorem turn_running (f : Frame) (fs : List Frame) (ds : List DirEntry) (k : Nat) :
    ∃ due ds', ({ C.running v (f :: fs) ds k with depth := fs.length + 1 } :
        IntoIter).getDeferredDir = (due, C.running v (f :: fs) ds' (fs.length + 1)) ∧
      C.answers.turn (C.running v (f :: fs) ds k) =
        match due with
        | some d => (some (.ok d), C.running v (f :: fs) ds' (fs.length + 1))
        | none =>
          if C.opts.maxDepth < fs.length + 1 then (none, C.running v fs ds' (fs.length + 1))
          else
            match f.entries with
            | [] => (none, C.running v fs ds' (fs.length + 1))
            | c :: l => C.does v ({ f with entries := l } :: fs) ds' (fs.length + 1)
                (C.fate (f :: fs) c) := by
  obtain ⟨due, ds', hdue⟩ : ∃ due ds', (C.running v (f :: fs) ds (fs.length + 1)).getDeferredDir =
      (due, C.running v (f :: fs) ds' (fs.length + 1)) := by
    unfold IntoIter.getDeferredDir
    split
    · split
      · exact ⟨none, ds, rfl⟩
      · rename_i d rest _
        exact ⟨_, rest, rfl⟩
    · exact ⟨none, ds, rfl⟩
  refine ⟨due, ds', hdue, ?_⟩
  rw [Answers.turn]
  erw [hdue]
  cases due with
  | some d => rfl
  | none =>
    dsimp only
    unfold Answers.resume
    change (if C.opts.maxDepth < fs.length + 1 then _ else _) = _
    by_cases hmax : C.opts.maxDepth < fs.length + 1
    · rw [if_pos hmax, if_pos hmax]
      rfl
    · rw [if_neg hmax, if_neg hmax]
      unfold Answers.advance
      simp only [running]
      cases hent : f.entries with
      | nil => rfl
      | cons c l =>
        dsimp only
        rw [← fate_entries f fs l c]
        dsimp only [Answers.childEntry]
        unfold fate
        dsimp only [List.length_cons]
        cases hchild : C.answers.childOf { f with entries := l } (fs.length + 1) c with
        | error e => rfl
        | ok d =>
          obtain ⟨path, m, -, -, hd⟩ := childOf_eq_ok hchild
          exact handleEntry_eq (C := C) (by rw [hd]; simp)

variable (C v B) in
def Kept (it : IntoIter) : Prop := it.stack = [] ∨ ∃ f fs ds k, it = C.running v (f :: fs) ds k ∧
  C.Tame B (f :: fs)

theorem kept_running (hs : C.Tame B stack) : C.Kept B v (C.running v stack ds k) := by
  cases stack with
  | nil => exact .inl rfl
  | cons f fs => exact .inr ⟨f, fs, ds, k, rfl, hs⟩

theorem kept_settle (hs : C.Tame B stack) :
    C.Kept B v (IntoIter.settle d (C.running v stack ds k)).2 := by
  unfold IntoIter.settle
  split_ifs
  · exact kept_running hs
  · exact kept_running hs
  · exact kept_running hs

/-- **A round keeps to the walk's stacks.** -/
theorem kept_turn {it : IntoIter} (hk : C.Kept B v it) (hne : it.stack ≠ []) :
    C.Kept B v (C.answers.turn it).2 := by
  obtain ⟨f, fs, ds, k, rfl, hs⟩ := hk.resolve_left hne
  obtain ⟨due, ds', -, hturn⟩ := turn_running (C := C) (v := v) f fs ds k
  rw [hturn]
  cases due with
  | some d => exact kept_running hs
  | none =>
    dsimp only
    split
    · exact kept_running hs.tail
    split
    · exact kept_running hs.tail
    · rename_i c l _
      have hl := hs.entries l
      cases hfate : C.fate (f :: fs) c with
      | fails e => exact kept_running hl
      | shut d e => exact kept_running hl
      | stays d => exact kept_settle hl
      | opens d f' =>
        exact kept_settle (tame_opens hl ((fate_entries f fs l c).trans hfate))

theorem kept_root {device : Option Nat}
    (hd : C.answers.rootEntry C.root C.display = .ok d) :
    C.Kept B v (C.doesRoot v device (C.rootFate d)).2 := by
  cases hfate : C.rootFate d with
  | fails e => exact .inl rfl
  | shut d e => exact .inl rfl
  | stays d => exact .inl rfl
  | opens d' f => exact kept_settle (tame_root hd hfate)

def Takes (C : Course) (it : IntoIter) (d : DirEntry) : Prop :=
  ({ it with depth := it.stack.length } : IntoIter).getDeferredDir.1 = none ∧
    ¬C.opts.maxDepth < it.stack.length ∧
    ∃ f fs c l, it.stack = f :: fs ∧ f.entries = c :: l ∧
      C.answers.childOf f it.stack.length c = .ok d

/-- **When a loop is reported.** A round answers that a link leads back just if the name it takes
is a link to a directory that is open. -/
theorem turn_loop_iff {it : IntoIter} (hfol : C.opts.followLinks = true) (hk : C.Kept B v it)
    (hne : it.stack ≠ []) :
    (∃ e, IsLoop e ∧ (C.answers.turn it).1 = some (.error e)) ↔
      ∃ d, C.Takes it d ∧ C.Returns it.stack d := by
  obtain ⟨f, fs, ds, k, rfl, hs⟩ := hk.resolve_left hne
  obtain ⟨due, ds', hdue, hturn⟩ := turn_running (C := C) (v := v) f fs ds k
  have htakes : ∀ d, C.Takes (C.running v (f :: fs) ds k) d ↔ due = none ∧
      ¬C.opts.maxDepth < fs.length + 1 ∧ ∃ c l, f.entries = c :: l ∧
        C.answers.childOf f (fs.length + 1) c = .ok d := by
    intro d
    unfold Takes
    rw [show ({ C.running v (f :: fs) ds k with
      depth := (C.running v (f :: fs) ds k).stack.length } : IntoIter).getDeferredDir =
        (due, C.running v (f :: fs) ds' (fs.length + 1)) from hdue]
    refine and_congr_right fun _ => and_congr_right fun _ => ⟨?_, ?_⟩
    · rintro ⟨f', fs', c, l, heq, hent, hchild⟩
      obtain ⟨rfl, rfl⟩ := List.cons.inj heq
      exact ⟨c, l, hent, hchild⟩
    · rintro ⟨c, l, hent, hchild⟩
      exact ⟨f, fs, c, l, rfl, hent, hchild⟩
  have hsettle : ∀ (d : DirEntry) (it : IntoIter) (e : WalkError),
      (IntoIter.settle d it).1 ≠ some (.error e) := by
    intro d it e
    unfold IntoIter.settle
    split_ifs <;> nofun
  rw [hturn]
  cases due with
  | some d =>
    refine iff_of_false ?_ ?_
    · rintro ⟨e, -, h⟩
      cases h
    · rintro ⟨d', hd', -⟩
      cases ((htakes d').1 hd').1
  | none =>
    dsimp only
    by_cases hmax : C.opts.maxDepth < fs.length + 1
    · rw [if_pos hmax]
      refine iff_of_false ?_ ?_
      · rintro ⟨e, -, h⟩
        cases h
      · rintro ⟨d', hd', -⟩
        exact ((htakes d').1 hd').2.1 hmax
    · rw [if_neg hmax]
      cases hent : f.entries with
      | nil =>
        refine iff_of_false ?_ ?_
        · rintro ⟨e, -, h⟩
          cases h
        · rintro ⟨d', hd', -⟩
          obtain ⟨c, l, hcl, -⟩ := ((htakes d').1 hd').2.2
          rw [hent] at hcl
          cases hcl
      | cons c l =>
        dsimp only
        have hloop : (∃ e, IsLoop e ∧ (C.does v ({ f with entries := l } :: fs) ds' (fs.length + 1)
            (C.fate (f :: fs) c)).1 = some (.error e)) ↔
            ∃ e, IsLoop e ∧ (C.fate (f :: fs) c = .fails e ∨
              ∃ d, C.fate (f :: fs) c = .shut d e) := by
          refine exists_congr fun e => and_congr_right fun _ => ?_
          cases C.fate (f :: fs) c with
          | fails e' => simp [does]
          | shut d' e' => simp [does]
          | stays d' => exact iff_of_false (hsettle _ _ _) (by simp)
          | opens d' f' => exact iff_of_false (hsettle _ _ _) (by simp)
        rw [hloop, fate_loop_iff hs hfol]
        refine exists_congr fun d => ?_
        rw [htakes]
        constructor
        · rintro ⟨hchild, hret⟩
          exact ⟨⟨rfl, hmax, c, l, hent, hchild⟩, hret⟩
        · rintro ⟨⟨-, -, c', l', hcl, hchild⟩, hret⟩
          obtain ⟨rfl, rfl⟩ := List.cons.inj (hent.symm.trans hcl)
          exact ⟨hchild, hret⟩

/-! ## Endless descents -/

variable (C) in
/-- The directory a name in the one on top leads to, by itself or as a link that is followed,
whether or not it is open. -/
def Leads (stack : List Frame) (c : OsStr) (f' : Frame) : Prop :=
  ∃ f fs d d' dir names, stack = f :: fs ∧ C.answers.childOf f stack.length c = .ok d ∧
    ((d.isSymlink = false ∧ d' = d) ∨
      (d.isSymlink = true ∧ ∃ m, C.answers.metadata d.path = .ok m ∧ d' = target d m)) ∧
    IntoIter.isNormalDir d' = true ∧ C.opening stack d' = .ok dir ∧ C.crosses dir = false ∧
    C.answers.entryNames dir = .ok names ∧
    f' = ⟨dir, d'.path, d'.display, C.opts.order d' names, C.identity dir⟩

theorem fate_of_leads {c : OsStr} {f' : Frame} (hfol : C.opts.followLinks = true)
    (h : C.Leads stack c f') : (∃ d, C.fate stack c = .opens d f') ∨
      ∃ e, IsLoop e ∧ C.fate stack c = .fails e := by
  obtain ⟨f, fs, d, d', dir, names, rfl, hchild, hd, hdir, hopen, hcross, hnames, rfl⟩ := h
  have hdesc : (∃ x, C.descends (f :: fs) d' = .opens x
      ⟨dir, d'.path, d'.display, C.opts.order d' names, C.identity dir⟩) ∨
      ∃ e, IsLoop e ∧ C.descends (f :: fs) d' = .fails e := by
    unfold descends enters
    rw [hopen]
    dsimp only
    rw [hcross, Bool.and_false, if_neg Bool.false_ne_true]
    cases C.loopsTo (f :: fs) d' dir with
    | some ancestor => exact .inr ⟨_, ⟨ancestor.display, rfl⟩, rfl⟩
    | none =>
      dsimp only
      rw [hnames]
      exact .inl ⟨d', rfl⟩
  have hfate : C.fate (f :: fs) c = C.descends (f :: fs) d' := by
    unfold fate
    dsimp only
    rw [hchild]
    dsimp only
    unfold fateOf
    rcases hd with ⟨hlink, rfl⟩ | ⟨hlink, m, hmeta, rfl⟩
    · rw [hlink, Bool.and_false, if_neg Bool.false_ne_true, if_pos hdir]
    · have hstat : C.stat d.path = .ok m := by
        rcases C.told d.path with heq | ⟨m₁, x, -, -, hx⟩
        · exact heq.symm.trans hmeta
        · rw [hmeta] at hx
          cases hx
      rw [hlink, hfol, Bool.and_true, if_pos rfl, hstat]
      dsimp only
      rw [hmeta]
      dsimp only
      rw [if_pos hdir]
  rwa [hfate]

def along (g : Nat → Frame) : Nat → List Frame
  | 0 => [g 0]
  | n + 1 => g (n + 1) :: along g n

/-- **Endless descents are cut.** Where each directory leads to another without end, the walk
descends along them until it reports a loop. -/
theorem endless_cut {g : Nat → Frame} {c : Nat → OsStr} (hfol : C.opts.followLinks = true)
    (hroot : C.Tame B [g 0]) (hleads : ∀ n, C.Leads (along g n) (c n) (g (n + 1))) :
    ∃ n, (∀ i < n, ∃ d, C.fate (along g i) (c i) = .opens d (g (i + 1))) ∧
      ∃ e, IsLoop e ∧ C.fate (along g n) (c n) = .fails e := by
  classical
  have hcut : ∃ n, ∃ e, IsLoop e ∧ C.fate (along g n) (c n) = .fails e := by
    by_contra hnone
    push Not at hnone
    have hopens : ∀ n, ∃ d, C.fate (along g n) (c n) = .opens d (g (n + 1)) := fun n =>
      (fate_of_leads hfol (hleads n)).resolve_right fun ⟨e, he, hf⟩ => hnone n e he hf
    have htame : ∀ n, C.Tame B (along g n) ∧ (along g n).length = n + 1 := by
      intro n
      induction n with
      | zero => exact ⟨hroot, rfl⟩
      | succ n ih =>
        obtain ⟨d, hd⟩ := hopens n
        obtain ⟨f, fs, hfs⟩ := List.exists_cons_of_length_eq_add_one ih.2
        rw [along, List.length_cons, ih.2]
        refine ⟨?_, rfl⟩
        rw [hfs] at hd ih ⊢
        exact tame_opens ih.1 hd
    have hlen := (htame B.frames).1.length_le
    rw [(htame B.frames).2] at hlen
    omega
  refine ⟨Nat.find hcut, fun i hi => ?_, Nat.find_spec hcut⟩
  exact (fate_of_leads hfol (hleads i)).resolve_right (Nat.find_min hcut hi)

end Course

/-! ## A host -/

variable (h v) in
/-- A walk over a host. -/
def courseOf (root : VirtualPath) (display : PathBuf) (o : WalkOptions) : Course where
  answers := .ofHost h v
  stat path := (v.metadata path h).1
  told _ := .inl rfl
  opts := o
  root := root
  display := display

variable (h v) in
/-- The iterator in the course of a walk, from the entry of its root on. -/
inductive Reached (root : VirtualPath) (display : PathBuf) (o : WalkOptions) : IntoIter → Prop
  | root {d : DirEntry} (hd : IntoIter.rootEntry h v root display = .ok d) :
    Reached root display o (IntoIter.handleEntry h v d
      { IntoIter.rooted v root display o with start := none }).2
  | turn {it : IntoIter} (hr : Reached root display o it) (hs : it.stack ≠ []) :
    Reached root display o (it.turn h v).2

variable {root : VirtualPath} {display : PathBuf} {o : WalkOptions}

theorem kept_of_reached {it : IntoIter} (hr : Reached h v root display o it) :
    (courseOf h v root display o).Kept (bounded h v) v it := by
  induction hr with
  | root hd =>
    obtain ⟨device, hroot⟩ := Course.handleEntry_root (C := courseOf h v root display o) (v := v) hd
    rw [← Answers.handleEntry_ofHost]
    change (courseOf h v root display o).Kept (bounded h v) v
      ((courseOf h v root display o).answers.handleEntry _
        ((courseOf h v root display o).begun v none)).2
    rw [hroot]
    exact Course.kept_root hd
  | turn _ hs ih =>
    rw [← Answers.turn_ofHost]
    exact Course.kept_turn ih hs

namespace Course

variable {C : Course} {d : DirEntry} {e : WalkError}

theorem descends_nil_not_loop (he : IsLoop e) :
    C.descends [] d ≠ .fails e ∧ ∀ d', C.descends [] d ≠ .shut d' e := by
  have hloop : ∀ dir, C.loopsTo [] d dir = none := by
    intro dir
    unfold loopsTo
    split <;> rfl
  unfold descends enters
  cases hopen : C.opening [] d with
  | error x =>
    refine ⟨nofun, fun d' hx => ?_⟩
    obtain ⟨y, hy⟩ : ∃ y, x = .io d.depth (some d.display) y := by
      unfold opening Except.mapError at hopen
      split at hopen
      · exact ⟨_, (Except.error.inj hopen).symm⟩
      · cases hopen
    exact not_isLoop_io ((hy.symm.trans (Fate.shut.inj hx).2) ▸ he)
  | ok dir =>
    dsimp only
    split_ifs
    · exact ⟨nofun, nofun⟩
    · rw [hloop]
      dsimp only
      cases C.answers.entryNames dir with
      | error x => exact ⟨nofun, fun d' hx => not_isLoop_io ((Fate.shut.inj hx).2 ▸ he)⟩
      | ok names => exact ⟨nofun, nofun⟩

theorem rootFate_not_loop (he : IsLoop e) :
    C.rootFate d ≠ .fails e ∧ ∀ d', C.rootFate d ≠ .shut d' e := by
  have hio : ∀ {x : IoError} {depth : Nat} {path : Option PathBuf},
      WalkError.io depth path x ≠ e := fun hx => not_isLoop_io (hx ▸ he)
  unfold rootFate fateOf
  split
  · split
    · exact ⟨fun hx => hio (Fate.fails.inj hx), nofun⟩
    split
    · exact ⟨nofun, fun d' hx => hio (Fate.shut.inj hx).2⟩
    split
    · exact descends_nil_not_loop he
    · exact ⟨nofun, nofun⟩
  split
  · split
    · exact ⟨fun hx => hio (Fate.fails.inj hx), nofun⟩
    split
    · exact ⟨nofun, fun d' hx => hio (Fate.shut.inj hx).2⟩
    split
    · exact descends_nil_not_loop he
    · exact ⟨nofun, nofun⟩
  split
  · exact descends_nil_not_loop he
  · exact ⟨nofun, nofun⟩

theorem doesRoot_not_loop {v : Vfs} {device : Option Nat} (he : IsLoop e) :
    (C.doesRoot v device (C.rootFate d)).1 ≠ some (.error e) := by
  have hnot := rootFate_not_loop (C := C) (d := d) he
  have hsettle : ∀ (d : DirEntry) (it : IntoIter), (IntoIter.settle d it).1 ≠ some (.error e) := by
    intro d it
    unfold IntoIter.settle
    split_ifs <;> nofun
  cases hfate : C.rootFate d with
  | fails x =>
    rw [hfate] at hnot
    exact fun hx => hnot.1 (congrArg Fate.fails (Except.error.inj (Option.some.inj hx)))
  | shut d' x =>
    rw [hfate] at hnot
    exact fun hx => hnot.2 d' (congrArg (Fate.shut d') (Except.error.inj (Option.some.inj hx)))
  | stays d' =>
    unfold doesRoot
    dsimp only
    split_ifs <;> nofun
  | opens d' f => exact hsettle _ _

end Course

/-- What a walk that follows links comes to. -/
structure Settles (h : Host) (v : Vfs) (root : VirtualPath) (display : PathBuf) (o : WalkOptions) :
    Prop where
  /-- It comes to an end. -/
  ends : ∃ N items, ∀ fuel ≥ N, ∀ k ≥ N,
    (IntoIter.rooted v root display o).drive h fuel k = some items
  /-- No more frames are open than there are pairs of a directory and a depth. -/
  frames : ∀ it, Reached h v root display o it →
    it.stack.length ≤ (identities h v).toFinset.card * (heightOf h v + 1)
  /-- A loop is reported where the name that is taken is a link to a directory that is open. -/
  loops : ∀ it, Reached h v root display o it → it.stack ≠ [] →
    ((∃ e, IsLoop e ∧ (it.turn h v).1 = some (.error e)) ↔
      ∃ d, (courseOf h v root display o).Takes it d ∧
        (courseOf h v root display o).Returns it.stack d)
  /-- The root leads back to nothing. -/
  starts : ∀ d, IntoIter.rootEntry h v root display = .ok d → ∀ e, IsLoop e →
    (IntoIter.handleEntry h v d
      { IntoIter.rooted v root display o with start := none }).1 ≠ some (.error e)
  /-- An endless descent from the root is gone along until a loop is reported. -/
  cut : ∀ d d' (g : Nat → Frame) (c : Nat → OsStr),
    IntoIter.rootEntry h v root display = .ok d →
    (courseOf h v root display o).rootFate d = .opens d' (g 0) →
    (∀ n, (courseOf h v root display o).Leads (Course.along g n) (c n) (g (n + 1))) →
    ∃ n, (∀ i < n, ∃ d'', (courseOf h v root display o).fate (Course.along g i) (c i) =
        .opens d'' (g (i + 1))) ∧
      ∃ e, IsLoop e ∧ (courseOf h v root display o).fate (Course.along g n) (c n) = .fails e

/-- **Following links.** Every walk that follows links settles. -/
theorem follow_settles (h : Host) (v : Vfs) (root : VirtualPath) (display : PathBuf)
    (o : WalkOptions) (ho : o.followLinks = true) : Settles h v root display o where
  ends := by
    obtain ⟨N, hN⟩ := Course.drive_answered (C := courseOf h v root display o)
      (n := (bounded h v).frames + 1) v fun d d' f hd hfate =>
        Course.fits_of_tame (Course.tame_root (B := bounded h v) hd hfate)
          (Nat.lt_succ_of_lt (Nat.lt_succ_self _))
    refine ⟨N, (courseOf h v root display o).answered ((bounded h v).frames + 1), fun fuel hf k hk => ?_⟩
    rw [← Answers.drive_ofHost (v := v) (fun v' hv' => (Option.some.inj hv').symm)]
    exact hN fuel hf k hk
  frames it hr := by
    rcases kept_of_reached hr with hnil | ⟨f, fs, ds, k, rfl, hs⟩
    · rw [hnil]
      exact Nat.zero_le _
    · exact hs.length_le
  loops it hr hne := by
    rw [← Answers.turn_ofHost]
    exact Course.turn_loop_iff (C := courseOf h v root display o) ho (kept_of_reached hr) hne
  starts d hd e he := by
    obtain ⟨device, hroot⟩ := Course.handleEntry_root (C := courseOf h v root display o) (v := v) hd
    rw [← Answers.handleEntry_ofHost]
    exact fun hx => Course.doesRoot_not_loop he ((congrArg Prod.fst hroot).symm.trans hx)
  cut d d' g c hd hroot hleads :=
    Course.endless_cut (C := courseOf h v root display o) ho
      (Course.tame_root (B := bounded h v) hd hroot) hleads

end Seahaven.Vfs

namespace Seahaven.Vfs

open Host OsStr

section Fixture

attribute [local instance] composed

/-- A host with a link `a/back` to the directory above its own. -/
def backHost : Host := .ofTrees [.ofEntries [([os "a"], .dir), ([os "a", os "back"], .link (os ".."))]]

def following : WalkOptions := { WalkOptions.default with followLinks := true }

/-- The walk of `/work`, which holds a link back to it, settles. -/
theorem follow_back : Settles backHost ringVfs ⟨[os "work"], by decide⟩ [] following :=
  follow_settles backHost ringVfs ⟨[os "work"], by decide⟩ [] following rfl

example : ((IntoIter.rooted ringVfs ⟨[os "work"], by decide⟩ [] following).drive backHost 9 9).map
    (List.map fun item => item.map DirEntry.display) = some [.ok [], .ok [os "a"],
      .error (.symlinkLoop 2 [] [os "a", os "back"])] := by
  decide +kernel

end Fixture

end Seahaven.Vfs
