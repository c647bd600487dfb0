import Mathlib.Data.List.Sort
import Seahaven.Vfs.CourseRun
import Seahaven.Vfs.Listing

/-!
# A walk driven to its end

A walk with link following off, driven until it answers nothing. `Site.below` gives, by recursion on
the directory, the items of a directory's contents, each with its path beneath the root.

Over what its host answers such a walk is a `Course` whose frames lie on directories of one tree, so
that `below_course` has the items of a frame from those of its directory.
-/

namespace Seahaven.Vfs

open Host OsStr Op

variable [Unicode]

/-- A walk as it runs: a host, the tree and the path of the root's directory, the options and the
root's entry. -/
structure Site where
  host : Host
  tree : Nat
  dir : HostPath
  opts : WalkOptions
  root : DirEntry

namespace Site

variable (S : Site)

/-! ## The items of a directory -/

def skips (d : DirEntry) : Bool := d.depth < S.opts.minDepth || S.opts.maxDepth < d.depth

/-- The names of the directory at `r` that are text. -/
def names (r : HostPath) : List OsStr := ((S.host.tree S.tree).names (S.dir ++ r)).filter isUtf8

/-- The item of a name in a directory. -/
def child (d : DirEntry) (r : HostPath) (c : OsStr) : Item :=
  match d.path.resolve c with
  | .error e => .error (.io (d.depth + 1) (some d.display) (.custom .other e.message))
  | .ok path =>
    match metadataOf S.host S.tree (S.dir ++ r ++ [c]) with
    | none => .error (.io (d.depth + 1) (some (d.display ++ [c])) (.os .noent))
    | some m => .ok ⟨path, d.display ++ [c], c, d.depth + 1, m, m.isSymlink, false⟩

def own (d : DirEntry) (r : HostPath) : List (HostPath × Item) :=
  if S.skips d then [] else [(r, .ok d)]

def around (d : DirEntry) (r : HostPath) (contents : List (HostPath × Item)) :
    List (HostPath × Item) :=
  if S.opts.contentsFirst then contents ++ S.own d r else S.own d r ++ contents

/-- The items of a name in a directory, given those of the contents of directories. -/
def one (contents : DirEntry → HostPath → List (HostPath × Item)) (d : DirEntry) (r : HostPath)
    (c : OsStr) : List (HostPath × Item) :=
  match S.child d r c with
  | .error e => [(r ++ [c], .error e)]
  | .ok d =>
    if IntoIter.isNormalDir d then S.around d (r ++ [c]) (contents d (r ++ [c]))
    else S.own d (r ++ [c])

def below : Nat → DirEntry → HostPath → List (HostPath × Item)
  | 0, _, _ => []
  | n + 1, d, r =>
    if S.opts.maxDepth < d.depth + 1 then []
    else (S.opts.order d (S.names r)).flatMap (S.one (below n) d r)

def all (n : Nat) : List (HostPath × Item) :=
  if IntoIter.isNormalDir S.root then S.around S.root [] (S.below n S.root [])
  else S.own S.root []

/-! ## Directories and their frames -/

variable {S} {v : Vfs}

variable (S) in
/-- Whether a directory of the tree is at `r`. -/
def isPresentDir (r : HostPath) : Bool := (S.host.tree S.tree).isDir (S.dir ++ r)

variable (S) in
/-- A frame on the directory at `r`, whose entry is `d`. -/
structure On (f : Frame) (d : DirEntry) (r : HostPath) : Prop where
  tree : f.dir.inner.tree = S.tree
  path : (S.host.tree S.tree).pathOf f.dir.inner.ino = some (S.dir ++ r)
  path_eq : f.path = d.path
  display_eq : f.display = d.display

variable {f : Frame} {fs : List Frame} {d d' : DirEntry} {r : HostPath} {c : OsStr}

theorem mem_names_iff : c ∈ S.names r ↔
    (S.host.tree S.tree).isPresent (S.dir ++ r ++ [c]) = true ∧ c.isUtf8 = true := by
  rw [names, List.mem_filter, Tree.mem_names]

theorem isName_of_mem (hc : c ∈ S.names r) : IsName c := by
  obtain ⟨n, hn⟩ := Tree.isPresent_iff.1 (mem_names_iff.1 hc).1
  exact (S.host.tree S.tree).name_ok _ _ _ hn

theorem resolve_of_name {p q : VirtualPath} (hc : IsName c) : p.resolve c = .ok q ↔
    .chr '\x00' ∉ c ∧ .chr '\\' ∉ c ∧
      ∃ e, validateComponent c = .ok e ∧ q.components = p.components ++ [e] :=
  VirtualPath.resolve_name hc.ne_nil hc.no_slash hc.ne_dot hc.ne_dotdot

theorem child_eq_ok (h : S.child d r c = .ok d') : ∃ m, d.path.resolve c = .ok d'.path ∧
    metadataOf S.host S.tree (S.dir ++ r ++ [c]) = some m ∧
      d' = ⟨d'.path, d.display ++ [c], c, d.depth + 1, m, m.isSymlink, false⟩ := by
  unfold child at h
  split at h
  · cases h
  · rename_i path hp
    split at h
    · cases h
    · rename_i m hm
      obtain rfl := Except.ok.inj h
      exact ⟨m, hp, hm, rfl⟩

omit [Unicode] in
theorem isPlain_of_isName (hc : IsName c) : IsPlain c := ⟨hc.ne_nil, hc.ne_dot, hc.ne_dotdot⟩

theorem component_eq (hc : IsName c) (hback : .chr '\\' ∉ c) : component c = .ok c := by
  rw [component, if_neg]
  simp [hc.ne_nil, hc.ne_dot, hc.ne_dotdot, hc.no_slash, hback]

omit [Unicode] in
theorem lookup_name {t : Tree} {root : HostPath} (hc : IsName c) :
    t.lookup root false [c] = .ok (root ++ [c]) :=
  Tree.lookup_eq_ok.2 ⟨by simp, by simpa using hc.no_nul, Tree.walk_name (isPlain_of_isName hc)⟩

theorem childOf_eq (hf : S.On f d r) (hc : c ∈ S.names r) :
    IntoIter.childOf S.host f (d.depth + 1) c = S.child d r c := by
  have hname := isName_of_mem hc
  obtain ⟨n, hn⟩ := Tree.isPresent_iff.1 (mem_names_iff.1 hc).1
  rw [IntoIter.childOf, child, hf.path_eq, hf.display_eq]
  cases hp : d.path.resolve c with
  | error e => rfl
  | ok q =>
    dsimp only
    obtain ⟨hnul, hback, -⟩ := (resolve_of_name hname).1 hp
    have hstat : f.dir.symlinkMetadata c S.host = .ok (nodeMetadata S.host S.tree n) := by
      rw [Dir.symlinkMetadata, component_eq hname hback]
      change symlinkMetadataAt f.dir.inner c S.host = _
      rw [symlinkMetadataAt, if_neg hnul]
      refine CapDir.statWith_eq_ok.2 ⟨S.dir ++ r, S.dir ++ r ++ [c], n, ?_, ?_, ?_, ?_⟩
      · rw [hf.tree]
        exact hf.path
      · exact lookup_name hname
      · rw [hf.tree]
        exact hn
      · rw [hf.tree]
        rfl
    rw [hstat, metadataOf, hn]
    rfl

theorem node_of_normal (h : S.child d r c = .ok d') (hdir : IntoIter.isNormalDir d' = true) :
    ∃ ino, (S.host.tree S.tree).node (S.dir ++ r ++ [c]) = some ⟨ino, .dir⟩ := by
  obtain ⟨m, -, hm, he⟩ := child_eq_ok h
  obtain ⟨n, hn, rfl⟩ := Option.map_eq_some_iff.1 hm
  rw [he] at hdir
  simp only [IntoIter.isNormalDir, Bool.and_eq_true] at hdir
  obtain ⟨ino, kind⟩ := n
  obtain rfl : kind = .dir := of_decide_eq_true hdir.2
  exact ⟨ino, hn⟩

theorem openDir_child (hf : S.On f d r) (hc : c ∈ S.names r) (h : S.child d r c = .ok d')
    {ino : Nat} (hn : (S.host.tree S.tree).node (S.dir ++ r ++ [c]) = some ⟨ino, .dir⟩) :
    f.dir.openDir c S.host = .ok ⟨⟨S.tree, ino⟩, f.dir.writable⟩ := by
  have hname := isName_of_mem hc
  obtain ⟨m, hp, -, -⟩ := child_eq_ok h
  obtain ⟨hnul, hback, -⟩ := (resolve_of_name hname).1 hp
  have hopen : f.dir.inner.openDir [c] S.host = .ok ⟨S.tree, ino⟩ := by
    refine CapDir.openDir_eq_ok.2 ⟨S.dir ++ r, S.dir ++ r ++ [c], ino, ?_, ?_, ?_, ?_⟩
    · rw [hf.tree]
      exact hf.path
    · refine Tree.lookup_eq_ok.2 ⟨by simp, by simpa using hnul, ?_⟩
      rw [hf.tree]
      refine Tree.walk_present (by simpa using isPlain_of_isName hname)
        (Tree.isPresent_iff.2 ⟨_, hn⟩) fun _ => ?_
      rw [Tree.linkAt, hn]
    · rw [hf.tree]
      exact hn
    · rw [hf.tree]
  rw [Dir.openDir, component_eq hname hback]
  change (f.dir.inner.openDir [c] S.host).map _ = _
  rw [hopen]
  rfl

theorem perm_order (o : WalkOptions) (d : DirEntry) (names : List OsStr) :
    (o.order d names).Perm names := by
  unfold WalkOptions.order
  split
  · exact List.Perm.refl _
  · exact List.mergeSort_perm _ _

theorem rootEntry_eq_ok {p : VirtualPath} {display : PathBuf} {d : DirEntry}
    (h : IntoIter.rootEntry S.host v p display = .ok d) : ∃ m, v.symlinkMetadata p S.host = .ok m ∧
      d = ⟨p, display, p.fileName.getD [], 0, m, m.isSymlink, false⟩ := by
  unfold IntoIter.rootEntry at h
  split at h
  · cases h
  · rename_i m hm
    exact ⟨m, hm, (Except.ok.inj h).symm⟩

/-! ## The walk over what the host answers -/

variable (S) in
/-- The walk, over the answers of its host. -/
def course (v : Vfs) (p : VirtualPath) (display : PathBuf) : Course where
  answers := .ofHost S.host v
  stat := (Answers.ofHost S.host v).metadata
  told _ := .inl rfl
  opts := S.opts
  root := p
  display := display

theorem own_course {p : VirtualPath} {display : PathBuf} :
    (S.course v p display).own d = (S.own d r).map Prod.snd := by
  unfold Course.own own
  change (if S.skips d then [] else _) = _
  cases S.skips d <;> rfl

theorem around_course {p : VirtualPath} {display : PathBuf} {l : List (HostPath × Item)} :
    (S.course v p display).around d (l.map Prod.snd) = (S.around d r l).map Prod.snd := by
  unfold Course.around around
  rw [own_course (r := r)]
  change (if S.opts.contentsFirst then _ else _) = _
  cases S.opts.contentsFirst <;> simp

theorem drive_course {p : VirtualPath} {display : PathBuf} {fuel n : Nat} :
    (S.course v p display).answers.drive fuel n (IntoIter.rooted v p display S.opts) =
      (IntoIter.rooted v p display S.opts).drive S.host fuel n :=
  Answers.drive_ofHost (fun _ h => (Option.some.inj h).symm) fuel n

section Course

variable {p : VirtualPath} (display : PathBuf) (hfollow : S.opts.followLinks = false)

include hfollow

theorem fateOf_course : (S.course v p display).fateOf fs d =
    if IntoIter.isNormalDir d then (S.course v p display).descends fs d else .stays d := by
  unfold Course.fateOf
  rw [if_neg]
  rw [show (S.course v p display).opts.followLinks = false from hfollow]
  exact Bool.false_ne_true

variable {top : Dir} (htop : v.openDir p S.host = .ok top) (htree : top.inner.tree = S.tree)

include htop htree

theorem descends_course (dir : Dir) (hopen : (S.course v p display).opening fs d = .ok dir)
    (hdir : dir.inner.tree = S.tree)
    (hpath : (S.host.tree S.tree).pathOf dir.inner.ino = some (S.dir ++ r))
    (hfol : d.followed = false) : ∃ f, S.On f d r ∧ f.entries = S.opts.order d (S.names r) ∧
      (S.course v p display).descends fs d = .opens d f := by
  have hcross : (S.course v p display).crosses dir = false := by
    have hdevice : (S.course v p display).device =
        ((S.course v p display).identity top).map FileIdentity.device := by
      unfold Course.device
      rw [show (S.course v p display).answers.openDir (S.course v p display).root = .ok top
        from htop]
    unfold Course.crosses
    rw [hdevice]
    unfold Course.identity
    rw [show (S.course v p display).opts.followLinks = false from hfollow, Bool.false_or]
    cases (S.course v p display).opts.sameFileSystem with
    | false => rfl
    | true =>
      rw [if_pos rfl, if_pos rfl]
      change (true && decide (dir.inner.tree ≠ top.inner.tree)) = false
      rw [hdir, htree]
      simp
  have hnames : (S.course v p display).answers.entryNames dir = .ok (S.names r) := by
    change dir.entryNames S.host = _
    rw [Dir.entryNames, CapDir.entries, CapDir.ask, hdir, hpath]
    rfl
  refine ⟨⟨dir, d.path, d.display, S.opts.order d (S.names r),
    (S.course v p display).identity dir⟩, ⟨hdir, hpath, rfl, rfl⟩, rfl, ?_⟩
  unfold Course.descends Course.enters Course.loopsTo
  rw [hopen, hfol]
  dsimp only
  rw [hcross, Bool.and_false, if_neg Bool.false_ne_true, hnames]
  rfl

/-- **What becomes of a name.** -/
theorem fate_course (hf : S.On f d r) (hdepth : d.depth = fs.length) (hc : c ∈ S.names r) :
    match S.child d r c with
    | .error e => (S.course v p display).fate (f :: fs) c = .fails e
    | .ok d' =>
      if IntoIter.isNormalDir d' then ∃ f', S.On f' d' (r ++ [c]) ∧
        f'.entries = S.opts.order d' (S.names (r ++ [c])) ∧
          (S.course v p display).fate (f :: fs) c = .opens d' f'
      else (S.course v p display).fate (f :: fs) c = .stays d' := by
  have hchild : (S.course v p display).answers.childOf f (f :: fs).length c = S.child d r c := by
    rw [← childOf_eq hf hc, hdepth]
    rfl
  unfold Course.fate
  dsimp only
  rw [hchild]
  cases h : S.child d r c with
  | error e => rfl
  | ok d' =>
    dsimp only
    rw [fateOf_course display hfollow]
    cases hdir : IntoIter.isNormalDir d' with
    | false => rfl
    | true =>
      rw [if_pos rfl, if_pos rfl]
      obtain ⟨ino, hn⟩ := node_of_normal h hdir
      obtain ⟨m, -, -, he⟩ := child_eq_ok h
      have hfol : d'.followed = false := by rw [he]
      have hname : d'.name = c := by rw [he]
      refine descends_course display hfollow htop htree ⟨⟨S.tree, ino⟩, f.dir.writable⟩ ?_ rfl ?_
        hfol
      · unfold Course.opening
        rw [hfol, hname]
        change (f.dir.openDir c S.host).mapError _ = _
        rw [openDir_child hf hc h hn]
        rfl
      · rw [← List.append_assoc]
        exact Tree.pathOf_eq_some.2 hn

/-- **Contents.** The items of a frame on a directory are those of the directory's contents. -/
theorem below_course (n : Nat) : ∀ {f : Frame} {fs : List Frame} {d : DirEntry} {r : HostPath},
    S.On f d r → d.depth = fs.length → f.entries = S.opts.order d (S.names r) →
      (∀ q, (S.host.tree S.tree).isPresent (S.dir ++ r ++ q) = true → q.length ≤ n) →
        (S.course v p display).Fits (n + 1) (f :: fs) ∧
          (S.course v p display).below Course.lost (n + 1) (f :: fs) =
            (S.below n d r).map Prod.snd := by
  induction n with
  | zero =>
    intro f fs d r hf hdepth he hheight
    have hnames : S.names r = [] := by
      refine List.eq_nil_iff_forall_not_mem.2 fun c hc => ?_
      have := hheight [c] (mem_names_iff.1 hc).1
      simp at this
    have hnone : f.entries = [] := by
      rw [hnames] at he
      exact he.trans (perm_order _ _ _).eq_nil
    refine ⟨.inr fun c hc => ?_, ?_⟩
    · rw [hnone] at hc
      cases hc
    · rw [Course.below, hnone]
      split_ifs <;> rfl
  | succ n ih =>
    intro f fs d r hf hdepth he hheight
    -- the frame of a name that is opened
    have hname : ∀ c ∈ S.names r, ∀ {f' : Frame} {d' : DirEntry}, S.child d r c = .ok d' →
        S.On f' d' (r ++ [c]) → f'.entries = S.opts.order d' (S.names (r ++ [c])) →
          (S.course v p display).Fits (n + 1) (f' :: f :: fs) ∧
            (S.course v p display).below Course.lost (n + 1) (f' :: f :: fs) =
              (S.below n d' (r ++ [c])).map Prod.snd := by
      intro c hc f' d' hchild hon hentries
      obtain ⟨m, -, -, hd'⟩ := child_eq_ok hchild
      refine ih hon (by rw [hd', hdepth]; rfl) hentries fun q hq => ?_
      have := hheight (c :: q) (by simpa using hq)
      simpa using this
    have hmem : ∀ c ∈ f.entries, c ∈ S.names r := fun c hc =>
      (perm_order _ _ _).subset (he ▸ hc)
    constructor
    · refine .inr fun c hc d' f' hopens => ?_
      have hfate := fate_course display hfollow htop htree hf hdepth (hmem c hc)
      cases hchild : S.child d r c with
      | error e =>
        rw [hchild] at hfate
        cases hfate.symm.trans hopens
      | ok d₁ =>
        rw [hchild] at hfate
        dsimp only at hfate
        split_ifs at hfate with hdir
        · obtain ⟨f₁, hon, hentries, hfate⟩ := hfate
          obtain ⟨rfl, rfl⟩ := Fate.opens.inj (hfate.symm.trans hopens)
          exact (hname c (hmem c hc) hchild hon hentries).1
        · cases hfate.symm.trans hopens
    · rw [Course.below, below, ← hdepth]
      change (if S.opts.maxDepth < d.depth + 1 then _ else _) = _
      split_ifs with hmax
      · rfl
      · rw [← he, List.map_flatMap]
        refine List.flatMap_congr fun c hc => ?_
        have hfate := fate_course display hfollow htop htree hf hdepth (hmem c hc)
        unfold Course.one one
        cases hchild : S.child d r c with
        | error e =>
          rw [hchild] at hfate
          rw [hfate]
          rfl
        | ok d₁ =>
          rw [hchild] at hfate
          dsimp only at hfate ⊢
          split_ifs at hfate ⊢ with hdir
          · obtain ⟨f₁, hon, hentries, hfate⟩ := hfate
            rw [hfate]
            dsimp only
            rw [(hname c (hmem c hc) hchild hon hentries).2]
            exact around_course
          · rw [hfate]
            exact own_course

end Course

section Root

variable {p : VirtualPath} {display : PathBuf}

/-- **The walk of a directory.** -/
theorem drive_dir (hfollow : S.opts.followLinks = false)
    (hroot : IntoIter.rootEntry S.host v p display = .ok S.root)
    (hdir : IntoIter.isNormalDir S.root = true) {dir : Dir} (hopen : v.openDir p S.host = .ok dir)
    (htree : dir.inner.tree = S.tree)
    (hpath : (S.host.tree S.tree).pathOf dir.inner.ino = some S.dir) {n : Nat}
    (hheight : ∀ q, (S.host.tree S.tree).isPresent (S.dir ++ q) = true → q.length ≤ n) :
    ∃ N, ∀ fuel ≥ N, ∀ k ≥ N, (IntoIter.rooted v p display S.opts).drive S.host fuel k =
      some ((S.all n).map Prod.snd) := by
  obtain ⟨m, -, he⟩ := rootEntry_eq_ok hroot
  have hfate : (S.course v p display).rootFate S.root =
      (S.course v p display).descends [] S.root := by
    unfold Course.rootFate
    rw [fateOf_course display hfollow, hdir, if_neg (by simp), if_pos rfl]
  have hopening : (S.course v p display).opening [] S.root = .ok dir := by
    unfold Course.opening
    rw [show S.root.path = p by rw [he]]
    change (v.openDir p S.host).mapError _ = _
    rw [hopen]
    rfl
  obtain ⟨f, hon, hentries, hopens⟩ := descends_course (r := []) display hfollow hopen htree dir
    hopening htree (by rw [List.append_nil]; exact hpath) (by rw [he])
  obtain ⟨hfits, hbelow⟩ := below_course display hfollow hopen htree n hon
    (show S.root.depth = ([] : List Frame).length by rw [he]; rfl) hentries
    (by simpa using hheight)
  have hanswered : (S.course v p display).answered (n + 1) = (S.all n).map Prod.snd := by
    unfold Course.answered
    rw [show (S.course v p display).answers.rootEntry (S.course v p display).root
      (S.course v p display).display = .ok S.root from hroot]
    dsimp only
    rw [hfate, hopens]
    dsimp only
    rw [if_neg (by simp [Course.Unheld, hdir]), hbelow, all, if_pos hdir]
    exact around_course
  obtain ⟨N, hN⟩ := (S.course v p display).drive_answered v (n := n + 1) fun d d' f' hd hf' => by
    obtain rfl := Except.ok.inj (hd.symm.trans hroot)
    obtain ⟨rfl, rfl⟩ := Fate.opens.inj ((hfate.trans hopens).symm.trans hf')
    exact hfits
  refine ⟨N, fun fuel hf k hk => ?_⟩
  rw [← drive_course, ← hanswered]
  exact hN fuel hf k hk

theorem drive_leaf (hfollow : S.opts.followLinks = false)
    (hroot : IntoIter.rootEntry S.host v p display = .ok S.root)
    (hlink : S.root.isSymlink = false) (hdir : IntoIter.isNormalDir S.root = false) {n : Nat} :
    ∃ N, ∀ fuel ≥ N, ∀ k ≥ N, (IntoIter.rooted v p display S.opts).drive S.host fuel k =
      some ((S.all n).map Prod.snd) := by
  have hfate : (S.course v p display).rootFate S.root = .stays S.root := by
    unfold Course.rootFate
    rw [fateOf_course display hfollow, hdir, hlink, if_neg (by simp), if_neg Bool.false_ne_true]
  have hanswered : (S.course v p display).answered n = (S.all n).map Prod.snd := by
    unfold Course.answered
    rw [show (S.course v p display).answers.rootEntry (S.course v p display).root
      (S.course v p display).display = .ok S.root from hroot]
    dsimp only
    rw [hfate, all, if_neg (by simp [hdir])]
    exact own_course
  obtain ⟨N, hN⟩ := (S.course v p display).drive_answered v (n := n) fun d d' f' hd hf' => by
    obtain rfl := Except.ok.inj (hd.symm.trans hroot)
    cases hfate.symm.trans hf'
  refine ⟨N, fun fuel hf k hk => ?_⟩
  rw [← drive_course, ← hanswered]
  exact hN fuel hf k hk

end Root

end Site

end Seahaven.Vfs
