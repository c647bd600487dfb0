import Seahaven.Vfs.Answers

/-!
# What becomes of a name

A walk over given answers, told name by name. What becomes of a name depends on the frames that
are open, and not on the names that are left to read in them.

1. `Course`: a walk from a root. `Course.fate`: what becomes of a name in the directory on top.
2. `handleEntry_eq`: what the walk does with an entry, told by its fate.
3. `fate_congr`: the names left to read do not matter. `fateOf_opens`: what is descended into.
-/

namespace Seahaven.Vfs

open Host OsStr

variable [Unicode]

/-- A walk from its root. `stat` is what a path leads to whether or not it can be opened: where the
walk is told otherwise it is refused a directory. -/
structure Course where
  answers : Answers
  stat : VirtualPath → Except IoError Metadata
  told : ∀ p, answers.metadata p = stat p ∨
    ∃ m e, stat p = .ok m ∧ m.isDir = true ∧ answers.metadata p = .error e
  opts : WalkOptions
  root : VirtualPath
  display : PathBuf

/-- What comes of descending into a directory. -/
inductive Entered
  | refused (e : WalkError)
  | crosses
  | loops (e : WalkError)
  | opened (f : Frame)

/-- What becomes of a name: it is no entry, an entry that is not descended into, a directory that
cannot be opened or read, or one that is open now. -/
inductive Fate
  | fails (e : WalkError)
  | stays (d : DirEntry)
  | shut (d : DirEntry) (e : WalkError)
  | opens (d : DirEntry) (f : Frame)

namespace Course

variable (C : Course)

def identity (dir : Dir) : Option FileIdentity :=
  if C.opts.followLinks || C.opts.sameFileSystem then some dir.identity else none

def device : Option Nat :=
  match C.answers.openDir C.root with
  | .ok dir => (C.identity dir).map FileIdentity.device
  | .error _ => none

def running (v : Vfs) (stack : List Frame) (withheld : List DirEntry) (depth : Nat) : IntoIter :=
  ⟨some v, none, none, C.opts, stack, withheld, depth, C.device, false⟩

def opening (stack : List Frame) (d : DirEntry) : Except WalkError Dir :=
  (match stack, d.followed with
    | frame :: _, false => C.answers.openAt frame.dir d.name
    | _, _ => C.answers.openDir d.path).mapError (.io d.depth (some d.display))

def crosses (dir : Dir) : Bool :=
  C.opts.sameFileSystem &&
    match C.identity dir, C.device with
    | some id, some root => id.device ≠ root
    | _, _ => false

def loopsTo (stack : List Frame) (d : DirEntry) (dir : Dir) : Option Frame :=
  match d.followed, C.identity dir with
  | true, some id => stack.find? fun f => f.identity = some id
  | _, _ => none

/-- What comes of descending into a directory. -/
def enters (stack : List Frame) (d : DirEntry) : Entered :=
  match C.opening stack d with
  | .error e => .refused e
  | .ok dir =>
    if d.depth ≠ 0 && C.crosses dir then .crosses
    else
      match C.loopsTo stack d dir with
      | some ancestor => .loops (.symlinkLoop d.depth ancestor.display d.display)
      | none =>
        match C.answers.entryNames dir with
        | .error e => .refused (.io d.depth (some d.display) e)
        | .ok names => .opened ⟨dir, d.path, d.display, C.opts.order d names, C.identity dir⟩

/-- What becomes of a directory, of which it is known that it is to be descended into. -/
def descends (stack : List Frame) (d : DirEntry) : Fate :=
  match C.enters stack d with
  | .refused e => .shut d e
  | .crosses => .stays d
  | .loops e => .fails e
  | .opened f => .opens d f

def target (d : DirEntry) (m : Metadata) : DirEntry :=
  { d with metadata := m, isSymlink := false, followed := true }

/-- What becomes of an entry beneath the root. -/
def fateOf (stack : List Frame) (d : DirEntry) : Fate :=
  if C.opts.followLinks && d.isSymlink then
    match C.stat d.path with
    | .error e => .fails (.io d.depth (some d.display) e)
    | .ok m =>
      match C.answers.metadata d.path with
      | .error e => .shut (target d m) (.io d.depth (some d.display) e)
      | .ok _ =>
        if IntoIter.isNormalDir (target d m) then C.descends stack (target d m)
        else .stays (target d m)
  else if IntoIter.isNormalDir d then C.descends stack d
  else .stays d

/-- What becomes of a name in the directory on top. -/
def fate (stack : List Frame) (c : OsStr) : Fate :=
  match stack with
  | [] => .fails (.io 0 none (.custom .other (os "BUG: child entry with no open directory")))
  | frame :: _ =>
    match C.answers.childOf frame stack.length c with
    | .error e => .fails e
    | .ok d => C.fateOf stack d

/-- What becomes of the root. A link that is not followed may still be descended into. -/
def rootFate (d : DirEntry) : Fate :=
  if !(C.opts.followLinks && d.isSymlink) && !IntoIter.isNormalDir d && d.isSymlink &&
      C.opts.followRootLinks then
    match C.stat d.path with
    | .error e => .fails (.io d.depth (some d.display) e)
    | .ok m =>
      match C.answers.metadata d.path with
      | .error e => .shut d (.io d.depth (some d.display) e)
      | .ok _ => if m.isDir then C.descends [] d else .stays d
  else C.fateOf [] d

variable {C}

/-! ## What the walk does with an entry -/

theorem openChild_eq (it : IntoIter) (d : DirEntry) :
    C.answers.openChild it d = C.opening it.stack d := rfl

variable {v : Vfs} {stack : List Frame} {ds : List DirEntry} {k : Nat} {d : DirEntry}

theorem push_eq (hdepth : d.depth ≠ 0) :
    C.answers.push d (C.running v stack ds k) =
      match C.enters stack d with
      | .refused e => (.error e, C.running v stack ds k)
      | .crosses => (.ok (), C.running v stack ds k)
      | .loops e => (.error e, C.running v stack ds k)
      | .opened f => (.ok (), C.running v (f :: stack) ds k) := by
  unfold Answers.push enters
  rw [openChild_eq]
  change (match C.opening stack d with | .error e => _ | .ok dir => _) = _
  cases C.opening stack d with
  | error e => rfl
  | ok dir =>
    dsimp only
    change (if (decide (d.depth ≠ 0) && C.crosses dir) = true then _ else _) = _
    by_cases hcross : (decide (d.depth ≠ 0) && C.crosses dir) = true
    · rw [if_pos hcross, if_pos hcross]
    · rw [if_neg hcross, if_neg hcross, if_neg hdepth]
      change (match C.loopsTo stack d dir with | some ancestor => _ | none => _) = _
      cases C.loopsTo stack d dir with
      | some ancestor => rfl
      | none =>
        dsimp only
        unfold Answers.enter
        cases C.answers.entryNames dir with
        | error e => rfl
        | ok names => rfl

variable (C v stack ds k) in
def does : Fate → Option Item × IntoIter
  | .fails e => (some (.error e), C.running v stack ds k)
  | .stays d => IntoIter.settle d (C.running v stack ds k)
  | .shut _ e => (some (.error e), C.running v stack ds k)
  | .opens d f => IntoIter.settle d (C.running v (f :: stack) ds k)

variable (C v stack ds k) in
def arranges (d : DirEntry) : Option Item × IntoIter :=
  match C.answers.descend d (C.running v stack ds k) with
  | (.error e, it) => (some (.error e), it)
  | (.ok (), it) => IntoIter.settle d it

theorem arranges_eq (hdepth : d.depth ≠ 0) : C.arranges v stack ds k d =
    C.does v stack ds k (if IntoIter.isNormalDir d then C.descends stack d else .stays d) := by
  unfold arranges Answers.descend descends
  cases hdir : IntoIter.isNormalDir d with
  | true =>
    rw [if_pos rfl, if_pos rfl, push_eq hdepth]
    cases C.enters stack d <;> rfl
  | false =>
    rw [if_neg Bool.false_ne_true, if_neg Bool.false_ne_true, if_neg (by simp [hdepth])]
    rfl

theorem handleEntry_unfold : C.answers.handleEntry d (C.running v stack ds k) =
    match if C.opts.followLinks && d.isSymlink then C.answers.follow d else .ok d with
    | .error e => (some (.error e), C.running v stack ds k)
    | .ok d => C.arranges v stack ds k d := rfl

/-- **What the walk does with an entry** beneath the root. -/
theorem handleEntry_eq (hdepth : d.depth ≠ 0) :
    C.answers.handleEntry d (C.running v stack ds k) =
      C.does v stack ds k (C.fateOf stack d) := by
  rw [handleEntry_unfold]
  unfold fateOf
  by_cases hlink : (C.opts.followLinks && d.isSymlink) = true
  · rw [if_pos hlink, if_pos hlink]
    unfold Answers.follow
    rcases C.told d.path with heq | ⟨m, e, hm, -, he⟩
    · rw [heq]
      cases C.stat d.path with
      | error e => rfl
      | ok m => exact arranges_eq (d := target d m) hdepth
    · rw [he, hm]
      rfl
  · rw [if_neg hlink, if_neg hlink]
    exact arranges_eq hdepth

/-! ## What the walk does with its root -/

variable (C v) in
def begun (device : Option Nat) : IntoIter := ⟨some v, none, none, C.opts, [], [], 0, device, false⟩

theorem push_root (hdepth : d.depth = 0) (hpath : d.path = C.root) : ∃ device,
    C.answers.push d (C.begun v none) =
      match C.enters [] d with
      | .refused e => (.error e, C.begun v device)
      | .crosses => (.ok (), C.begun v device)
      | .loops e => (.error e, C.begun v device)
      | .opened f => (.ok (), C.running v [f] [] 0) := by
  obtain ⟨path, display, name, depth, metadata, isSymlink, followed⟩ := d
  obtain rfl : depth = 0 := hdepth
  generalize hd : (⟨path, display, name, 0, metadata, isSymlink, followed⟩ : DirEntry) = d at hpath
  have hdepth : d.depth = 0 := by rw [← hd]
  unfold Answers.push enters
  rw [openChild_eq, show (C.begun v none).stack = [] from rfl]
  cases hopen : C.opening [] d with
  | error e => exact ⟨none, rfl⟩
  | ok dir =>
    have hdir : C.answers.openDir C.root = .ok dir := by
      rw [← hpath]
      unfold opening at hopen
      cases ho : C.answers.openDir d.path with
      | error e => rw [ho] at hopen; cases hopen
      | ok dir' => rw [ho] at hopen; exact congrArg _ (Except.ok.inj hopen)
    have hdevice : (C.identity dir).map FileIdentity.device = C.device := by
      rw [device, hdir]
    have hloops : ∀ it : IntoIter, it.stack = [] → ∀ id, it.loopsTo d id = none := by
      intro it hit id
      unfold IntoIter.loopsTo
      split
      · rw [hit]
        rfl
      · rfl
    have hloops' : C.loopsTo [] d dir = none := by
      unfold loopsTo
      split <;> rfl
    refine ⟨C.device, ?_⟩
    dsimp only
    simp only [hdepth, ne_eq, not_true_eq_false, decide_false, Bool.false_and, Bool.false_eq_true,
      if_false, if_true]
    rw [hloops _ rfl, hloops']
    dsimp only
    unfold Answers.enter
    rw [hdepth]
    cases C.answers.entryNames dir with
    | error e =>
      dsimp only
      rw [← hdevice]
      rfl
    | ok names =>
      dsimp only
      unfold running
      rw [← hdevice]
      rfl

variable (C) in
def skips (d : DirEntry) : Bool := d.depth < C.opts.minDepth || C.opts.maxDepth < d.depth

variable (C v) in
def doesRoot (device : Option Nat) : Fate → Option Item × IntoIter
  | .fails e => (some (.error e), C.begun v device)
  | .stays d => (if C.skips d then none else some (.ok d), C.begun v device)
  | .shut _ e => (some (.error e), C.begun v device)
  | .opens d f => IntoIter.settle d (C.running v [f] [] 0)

theorem rootEntry_eq_ok (hd : C.answers.rootEntry C.root C.display = .ok d) :
    ∃ m, d = ⟨C.root, C.display, C.root.fileName.getD [], 0, m, m.isSymlink, false⟩ := by
  unfold Answers.rootEntry at hd
  cases hm : C.answers.lstat C.root with
  | error e => rw [hm] at hd; cases hd
  | ok m => rw [hm] at hd; exact ⟨m, (Except.ok.inj hd).symm⟩

theorem settle_begun {device : Option Nat} (hdepth : d.depth = 0)
    (hdir : IntoIter.isNormalDir d = false) : IntoIter.settle d (C.begun v device) =
      (if C.skips d then none else some (.ok d), C.begun v device) := by
  unfold IntoIter.settle
  have hskip : (C.begun v device).skippable = C.skips d := by
    unfold skips
    rw [hdepth]
    rfl
  rw [if_neg (by simp [hdir]), hskip]
  split_ifs <;> rfl

variable (C v) in
def tries (r : Except WalkError Unit × IntoIter) (d : DirEntry) : Option Item × IntoIter :=
  match r with
  | (.error e, it) => (some (.error e), it)
  | (.ok (), it) => IntoIter.settle d it

theorem descends_root (hdepth : d.depth = 0) (hpath : d.path = C.root) : ∃ device,
    tries (C.answers.push d (C.begun v none)) d = C.doesRoot v device (C.descends [] d) := by
  obtain ⟨device, hpush⟩ := push_root (v := v) hdepth hpath
  refine ⟨device, ?_⟩
  rw [hpush]
  unfold descends
  have hcross : C.enters [] d ≠ .crosses := by
    unfold enters
    cases C.opening [] d with
    | error e => nofun
    | ok dir =>
      dsimp only
      rw [if_neg (by simp [hdepth])]
      cases C.loopsTo [] d dir with
      | some f => nofun
      | none =>
        dsimp only
        cases C.answers.entryNames dir <;> nofun
  cases hent : C.enters [] d with
  | refused e => rfl
  | crosses => exact absurd hent hcross
  | loops e => rfl
  | opened f => rfl

theorem handleEntry_begun : C.answers.handleEntry d (C.begun v none) =
    match if C.opts.followLinks && d.isSymlink then C.answers.follow d else .ok d with
    | .error e => (some (.error e), C.begun v none)
    | .ok d => tries (C.answers.descend d (C.begun v none)) d := rfl

/-- **What the walk does with its root.** -/
theorem handleEntry_root (hd : C.answers.rootEntry C.root C.display = .ok d) : ∃ device,
    C.answers.handleEntry d (C.begun v none) = C.doesRoot v device (C.rootFate d) := by
  obtain ⟨m₀, rfl⟩ := rootEntry_eq_ok hd
  generalize hd' : (⟨C.root, C.display, C.root.fileName.getD [], 0, m₀, m₀.isSymlink, false⟩ :
    DirEntry) = d
  have hdepth : d.depth = 0 := by rw [← hd']
  have hpath : d.path = C.root := by rw [← hd']
  -- a directory, whether or not a link led to it
  have hentry : ∀ d : DirEntry, d.depth = 0 → d.path = C.root → ∃ device,
      (IntoIter.isNormalDir d = true ∨ (d.isSymlink && C.opts.followRootLinks) = false) →
      tries (C.answers.descend d (C.begun v none)) d = C.doesRoot v device
        (if IntoIter.isNormalDir d then C.descends [] d else .stays d) := by
    intro d hdepth hpath
    cases hdir : IntoIter.isNormalDir d with
    | true =>
      obtain ⟨device, hdesc⟩ := descends_root (v := v) hdepth hpath
      refine ⟨device, fun _ => ?_⟩
      unfold Answers.descend
      rw [if_pos hdir, if_pos rfl]
      exact hdesc
    | false =>
      refine ⟨none, fun hroot => ?_⟩
      have hno := hroot.resolve_left (by simp)
      unfold Answers.descend
      rw [hdir, if_neg Bool.false_ne_true, if_neg, if_neg Bool.false_ne_true]
      · exact settle_begun hdepth hdir
      · change ¬((decide (d.depth = 0) && d.isSymlink && C.opts.followRootLinks) = true)
        rw [Bool.and_assoc, hno, Bool.and_false]
        exact Bool.false_ne_true
  rw [handleEntry_begun]
  unfold rootFate
  by_cases hlink : (C.opts.followLinks && d.isSymlink) = true
  · rw [if_pos hlink, if_neg (by simp [hlink]), fateOf, if_pos hlink]
    unfold Answers.follow
    rcases C.told d.path with heq | ⟨m, e, hm, -, he⟩
    · rw [heq]
      cases C.stat d.path with
      | error e => exact ⟨none, rfl⟩
      | ok m =>
        obtain ⟨device, hdesc⟩ := hentry (target d m) hdepth hpath
        exact ⟨device, hdesc (.inr rfl)⟩
    · rw [he, hm]
      exact ⟨none, rfl⟩
  · rw [if_neg hlink]
    dsimp only
    by_cases hroot : (!IntoIter.isNormalDir d && d.isSymlink && C.opts.followRootLinks) = true
    · -- a root link that is descended into without being followed
      obtain ⟨⟨hdir, hsym⟩, hfollow⟩ := by simpa only [Bool.and_eq_true, Bool.not_eq_true'] using hroot
      rw [if_pos (by simp [hdir, hsym, hfollow]; simpa [hsym] using hlink)]
      unfold Answers.descend
      rw [if_neg (by simp [hdir]), if_pos (by simp [hdepth, hsym]; exact hfollow)]
      unfold Answers.pushRootLink
      rcases C.told d.path with heq | ⟨m, e, hm, -, he⟩
      · rw [heq]
        cases C.stat d.path with
        | error e => exact ⟨none, rfl⟩
        | ok m =>
          dsimp only
          cases m.isDir with
          | true =>
            rw [if_pos rfl, if_pos rfl]
            exact descends_root hdepth hpath
          | false =>
            rw [if_neg Bool.false_ne_true, if_neg Bool.false_ne_true]
            exact ⟨none, settle_begun hdepth hdir⟩
      · rw [he, hm]
        exact ⟨none, rfl⟩
    · obtain ⟨device, hdesc⟩ := hentry d hdepth hpath
      refine ⟨device, ?_⟩
      rw [if_neg fun hc => hroot ?_, fateOf, if_neg hlink]
      · refine hdesc ?_
        cases hdir : IntoIter.isNormalDir d with
        | true => exact .inl rfl
        | false =>
          refine .inr ?_
          rw [hdir] at hroot
          simpa using hroot
      · simp only [Bool.and_eq_true, Bool.not_eq_true'] at hc ⊢
        exact ⟨⟨hc.1.1.2, hc.1.2⟩, hc.2⟩

/-! ## Frames without the names left to read in them -/

def bare (f : Frame) : Frame := { f with entries := [] }

theorem fields_of_bare {f f' : Frame} (h : bare f = bare f') : f.dir = f'.dir ∧
    f.path = f'.path ∧ f.display = f'.display ∧ f.identity = f'.identity := by
  obtain ⟨hdir, hpath, hdisplay, -, hid⟩ := Frame.mk.inj h
  exact ⟨hdir, hpath, hdisplay, hid⟩

theorem opening_congr {stack stack' : List Frame} (h : stack.map bare = stack'.map bare) :
    C.opening stack d = C.opening stack' d := by
  cases stack with
  | nil => rw [List.map_eq_nil_iff.1 h.symm]
  | cons f fs =>
    cases stack' with
    | nil => cases h
    | cons f' fs' =>
      have hdir := (fields_of_bare (List.cons.inj h).1).1
      unfold opening
      cases d.followed with
      | true => rfl
      | false => dsimp only; rw [hdir]

theorem loopsTo_congr {stack stack' : List Frame} (h : stack.map bare = stack'.map bare)
    {dir : Dir} : (C.loopsTo stack d dir).map bare = (C.loopsTo stack' d dir).map bare := by
  unfold loopsTo
  split
  · rename_i id _ _
    have hfind : ∀ s : List Frame, (s.find? fun f => f.identity = some id).map bare =
        (s.map bare).find? fun f => f.identity = some id := by
      intro s
      rw [List.find?_map]
      rfl
    rw [hfind, hfind, h]
  · rfl

theorem enters_congr {stack stack' : List Frame} (h : stack.map bare = stack'.map bare) :
    C.enters stack d = C.enters stack' d := by
  unfold enters
  rw [opening_congr h]
  cases C.opening stack' d with
  | error e => rfl
  | ok dir =>
    have hloop : (C.loopsTo stack d dir).map bare = (C.loopsTo stack' d dir).map bare :=
      loopsTo_congr h
    dsimp only
    cases hl : C.loopsTo stack d dir with
    | none =>
      rw [hl] at hloop
      rw [Option.map_eq_none_iff.1 hloop.symm]
    | some f =>
      rw [hl] at hloop
      obtain ⟨f', hl', heq⟩ := Option.map_eq_some_iff.1 hloop.symm
      rw [hl']
      dsimp only
      rw [(fields_of_bare heq).2.2.1]

theorem fateOf_congr {stack stack' : List Frame} (h : stack.map bare = stack'.map bare) :
    C.fateOf stack d = C.fateOf stack' d := by
  unfold fateOf descends
  rw [enters_congr h]
  cases C.stat d.path with
  | error e => rfl
  | ok m =>
    dsimp only
    rw [enters_congr h]

theorem fate_congr {stack stack' : List Frame} (h : stack.map bare = stack'.map bare) (c : OsStr) :
    C.fate stack c = C.fate stack' c := by
  cases stack with
  | nil => rw [List.map_eq_nil_iff.1 h.symm]
  | cons f fs =>
    cases stack' with
    | nil => cases h
    | cons f' fs' =>
      obtain ⟨hdir, hpath, hdisplay, -⟩ := fields_of_bare (List.cons.inj h).1
      have hchild : C.answers.childOf f (f :: fs).length c =
          C.answers.childOf f' (f' :: fs').length c := by
        unfold Answers.childOf
        rw [hpath, hdir, hdisplay, show (f :: fs).length = (f' :: fs').length by
            rw [← List.length_map (f := bare), h, List.length_map]]
      unfold fate
      dsimp only
      rw [hchild]
      cases C.answers.childOf f' (f' :: fs').length c with
      | error e => rfl
      | ok d => exact fateOf_congr h

theorem fate_entries (f : Frame) (fs : List Frame) (l : List OsStr) (c : OsStr) :
    C.fate ({ f with entries := l } :: fs) c = C.fate (f :: fs) c :=
  fate_congr (show ({ f with entries := l } :: fs).map bare = (f :: fs).map bare from rfl) c

/-! ## What an opened name is -/

theorem childOf_eq_ok {A : Answers} {f : Frame} {depth : Nat} {c : OsStr}
    (h : A.childOf f depth c = .ok d) : ∃ path m, f.path.resolve c = .ok path ∧
      A.lstatAt f.dir c = .ok m ∧ d = ⟨path, f.display ++ [c], c, depth, m, m.isSymlink, false⟩ := by
  unfold Answers.childOf at h
  cases hp : f.path.resolve c with
  | error e => rw [hp] at h; cases h
  | ok path =>
    rw [hp] at h
    dsimp only at h
    cases hm : A.lstatAt f.dir c with
    | error e => rw [hm] at h; cases h
    | ok m =>
      rw [hm] at h
      exact ⟨path, m, rfl, rfl, (Except.ok.inj h).symm⟩

theorem descends_opens {d' : DirEntry} {f : Frame} (h : C.descends stack d = .opens d' f) :
    d' = d ∧ ∃ dir names, C.opening stack d = .ok dir ∧
      (decide (d.depth ≠ 0) && C.crosses dir) = false ∧ C.loopsTo stack d dir = none ∧
      C.answers.entryNames dir = .ok names ∧
      f = ⟨dir, d.path, d.display, C.opts.order d names, C.identity dir⟩ := by
  unfold descends enters at h
  cases hopen : C.opening stack d with
  | error e => rw [hopen] at h; cases h
  | ok dir =>
    rw [hopen] at h
    dsimp only at h
    cases hcross : decide (d.depth ≠ 0) && C.crosses dir with
    | true => rw [hcross, if_pos rfl] at h; cases h
    | false =>
      rw [hcross, if_neg Bool.false_ne_true] at h
      cases hloop : C.loopsTo stack d dir with
      | some anc => rw [hloop] at h; cases h
      | none =>
        rw [hloop] at h
        dsimp only at h
        cases hnames : C.answers.entryNames dir with
        | error e => rw [hnames] at h; cases h
        | ok names =>
          rw [hnames] at h
          obtain ⟨rfl, rfl⟩ := Fate.opens.inj h
          exact ⟨rfl, dir, names, rfl, hcross, hloop, hnames, rfl⟩

theorem fateOf_opens {d' : DirEntry} {f : Frame} (h : C.fateOf stack d = .opens d' f) :
    IntoIter.isNormalDir d' = true ∧ C.descends stack d' = .opens d' f ∧
      (d' = d ∨ C.opts.followLinks = true ∧ ∃ m, d' = target d m) := by
  have hself : ∀ {x}, C.descends stack x = .opens d' f → x = d' := fun hx => (descends_opens hx).1.symm
  unfold fateOf at h
  by_cases hlink : (C.opts.followLinks && d.isSymlink) = true
  · rw [if_pos hlink] at h
    cases hm : C.stat d.path with
    | error e => rw [hm] at h; cases h
    | ok m =>
      rw [hm] at h
      dsimp only at h
      cases hmeta : C.answers.metadata d.path with
      | error e => rw [hmeta] at h; cases h
      | ok m' =>
        rw [hmeta] at h
        dsimp only at h
        cases hdir : IntoIter.isNormalDir (target d m) with
        | false => rw [hdir, if_neg Bool.false_ne_true] at h; cases h
        | true =>
          rw [hdir, if_pos rfl] at h
          obtain rfl := hself h
          exact ⟨hdir, h, .inr ⟨(Bool.and_eq_true _ _ ▸ hlink).1, m, rfl⟩⟩
  · rw [if_neg hlink] at h
    cases hdir : IntoIter.isNormalDir d with
    | false => rw [hdir, if_neg Bool.false_ne_true] at h; cases h
    | true =>
      rw [hdir, if_pos rfl] at h
      obtain rfl := hself h
      exact ⟨hdir, h, .inl rfl⟩

end Course

end Seahaven.Vfs
