import Mathlib.Data.List.Sort
import Seahaven.Vfs.Tame

/-!
# Walks over given answers, driven to their end

`below` gives, by recursion on the stacks a walk has, the items of the contents of the directory on
top. Between these and the iterator stands the correspondence of its stacks.

1. `below`, `Fits`: the items, and when the recursion gets to its end. `fits_of_tame`: over a
   bounded namespace it does.
2. `Drives`: rounds of the loop. `drives_below`: a frame is driven through its items.
3. `lags`: the items when a directory less is withheld than there are frames, as beneath a root
   link that is not followed. `drives_lags`.
4. `answered`, `drive_answered`: a whole walk.
-/

namespace Seahaven.Vfs

open Host OsStr

variable [Unicode]

namespace Course

variable (C : Course)

/-! ## Items -/

def own (d : DirEntry) : List Item := if C.skips d then [] else [.ok d]

def around (d : DirEntry) (contents : List Item) : List Item :=
  if C.opts.contentsFirst then contents ++ C.own d else C.own d ++ contents

def lost (_ : DirEntry) (e : WalkError) : List Item := [.error e]

variable (s : DirEntry → WalkError → List Item)

/-- The items of a name, given those of the contents of directories. -/
def one (contents : List Frame → List Item) (stack : List Frame) (c : OsStr) : List Item :=
  match C.fate stack c with
  | .fails e => [.error e]
  | .stays d => C.own d
  | .shut d e => s d e
  | .opens d f => C.around d (contents (f :: stack))

/-- The items of the contents of the directory on top, of stacks this much higher. -/
def below : Nat → List Frame → List Item
  | 0, _ => []
  | _ + 1, [] => []
  | n + 1, f :: fs =>
    if C.opts.maxDepth < fs.length + 1 then []
    else f.entries.flatMap (C.one s (below n) (f :: fs))

def Fits : Nat → List Frame → Prop
  | 0, _ => False
  | _ + 1, [] => True
  | n + 1, f :: fs => C.opts.maxDepth < fs.length + 1 ∨
      ∀ c ∈ f.entries, ∀ d f', C.fate (f :: fs) c = .opens d f' → Fits n (f' :: f :: fs)

variable {C} {s} {v : Vfs} {f g : Frame} {fs fs' stack : List Frame} {ds : List DirEntry}
  {d d' : DirEntry} {c : OsStr} {k n : Nat} {items : List Item}

theorem fits_of_tame {B : Bounded C.answers} (hs : C.Tame B (f :: fs))
    (hn : B.frames < n + fs.length + 1) : C.Fits n (f :: fs) := by
  induction n generalizing f fs with
  | zero =>
    have := hs.length_le
    rw [List.length_cons] at this
    omega
  | succ n ih =>
    refine .inr fun c _ d f' hopens => ih (tame_opens hs hopens) ?_
    rw [List.length_cons]
    omega

/-! ## Depths -/

def Fate.depth : Fate → Nat
  | .fails e => e.depth
  | .stays d => d.depth
  | .shut _ e => e.depth
  | .opens d _ => d.depth

theorem depth_descends : Fate.depth (C.descends stack d) = d.depth := by
  unfold descends enters
  cases hopen : C.opening stack d with
  | error e =>
    have hmap : ∀ x : Except IoError Dir,
        x.mapError (.io d.depth (some d.display)) = .error e → e.depth = d.depth := by
      rintro (e' | dir) h <;> cases h
      rfl
    exact hmap _ hopen
  | ok dir =>
    dsimp only
    split_ifs
    · rfl
    · cases C.loopsTo stack d dir with
      | some ancestor => rfl
      | none =>
        dsimp only
        cases C.answers.entryNames dir <;> rfl

theorem depth_fateOf : Fate.depth (C.fateOf stack d) = d.depth := by
  have htried : ∀ d, Fate.depth (if IntoIter.isNormalDir d then C.descends stack d
      else .stays d) = d.depth := by
    intro d
    split_ifs
    · exact depth_descends
    · rfl
  unfold fateOf
  split_ifs
  · cases C.stat d.path with
    | error e => rfl
    | ok m =>
      dsimp only
      cases C.answers.metadata d.path with
      | error e => rfl
      | ok _ => exact htried (target d m)
  · exact depth_descends
  · rfl

theorem depth_fate : Fate.depth (C.fate (f :: fs) c) = fs.length + 1 := by
  unfold fate
  dsimp only
  cases hchild : C.answers.childOf f (f :: fs).length c with
  | ok d =>
    obtain ⟨path, m, -, -, rfl⟩ := childOf_eq_ok hchild
    exact depth_fateOf
  | error e =>
    unfold Answers.childOf at hchild
    cases hp : f.path.resolve c with
    | error e' =>
      rw [hp] at hchild
      cases hchild
      rfl
    | ok path =>
      rw [hp] at hchild
      dsimp only at hchild
      cases hm : C.answers.lstatAt f.dir c with
      | error e' =>
        rw [hm] at hchild
        cases hchild
        rfl
      | ok m =>
        rw [hm] at hchild
        cases hchild

theorem depth_rootFate : Fate.depth (C.rootFate d) = d.depth := by
  unfold rootFate
  split_ifs
  · cases C.stat d.path with
    | error e => rfl
    | ok m =>
      dsimp only
      cases C.answers.metadata d.path with
      | error e => rfl
      | ok _ =>
        dsimp only
        split_ifs
        · exact depth_descends
        · rfl
  · exact depth_fateOf

def Fate.Yields (d : DirEntry) (x : Fate) : Prop := x = .stays d ∨ ∃ f, x = .opens d f

theorem eq_of_descends (h : Fate.Yields d (C.descends stack d')) : d = d' := by
  unfold descends at h
  rcases h with h | ⟨f, h⟩
  · cases hent : C.enters stack d' <;> rw [hent] at h <;> cases h
    rfl
  · cases hent : C.enters stack d' <;> rw [hent] at h <;> cases h
    rfl

theorem eq_of_stays (h : Fate.Yields d (.stays d')) : d = d' := by
  rcases h with h | ⟨f, h⟩
  · exact (Fate.stays.inj h).symm
  · cases h

theorem not_yields_fails {e : WalkError} : ¬Fate.Yields d (.fails e) := by
  rintro (h | ⟨f, h⟩) <;> cases h

theorem not_yields_shut {e : WalkError} : ¬Fate.Yields d (.shut d' e) := by
  rintro (h | ⟨f, h⟩) <;> cases h

theorem depth_of_yields {x : Fate} (h : Fate.Yields d x) : d.depth = Fate.depth x := by
  rcases h with rfl | ⟨f, rfl⟩ <;> rfl

theorem depth_of_fate (h : Fate.Yields d (C.fate stack c)) : d.depth = stack.length := by
  cases stack with
  | nil => rcases h with h | ⟨f, h⟩ <;> cases h
  | cons g fs => exact (depth_of_yields h).trans depth_fate

theorem depth_of_rootFate (h : Fate.Yields d (C.rootFate d')) : d.depth = d'.depth :=
  (depth_of_yields h).trans depth_rootFate

theorem isNormalDir_of_opens {f : Frame} (h : C.fate stack c = .opens d f) :
    IntoIter.isNormalDir d = true := by
  cases stack with
  | nil => cases h
  | cons g fs =>
    unfold fate at h
    dsimp only at h
    cases hchild : C.answers.childOf g (g :: fs).length c with
    | error e => rw [hchild] at h; cases h
    | ok d₀ => rw [hchild] at h; exact (fateOf_opens h).1

theorem settle_running (hdepth : d.depth = k) : IntoIter.settle d (C.running v stack ds k) =
    if IntoIter.isNormalDir d && C.opts.contentsFirst then (none, C.running v stack (d :: ds) k)
    else (if C.skips d then none else some (.ok d), C.running v stack ds k) := by
  unfold IntoIter.settle
  have hskip : (C.running v stack ds k).skippable = C.skips d := by
    unfold skips
    rw [hdepth]
    rfl
  rw [hskip]
  split_ifs <;> first | rfl | contradiction

/-! ## Rounds -/

variable (C v) in
/-- Rounds of the loop, up to the end of the walk, and what they yield. -/
inductive Drives : List Frame → List DirEntry → List Item → Prop
  | stop {ds : List DirEntry} (hc : ∀ k, ∃ it, (C.running v [] ds k).close = (none, it)) :
    Drives [] ds []
  | last {ds ds' : List DirEntry} {x : Item} {items : List Item} (hc : ∀ k, ∃ k',
      (C.running v [] ds k).close = (some x, C.running v [] ds' k')) (h : Drives [] ds' items) :
    Drives [] ds (x :: items)
  | quiet {f : Frame} {fs fs' : List Frame} {ds ds' : List DirEntry} {items : List Item}
      (hc : ∀ k, ∃ k', C.answers.turn (C.running v (f :: fs) ds k) =
        (none, C.running v fs' ds' k')) (h : Drives fs' ds' items) : Drives (f :: fs) ds items
  | yields {f : Frame} {fs fs' : List Frame} {ds ds' : List DirEntry} {x : Item}
      {items : List Item} (hc : ∀ k, ∃ k', C.answers.turn (C.running v (f :: fs) ds k) =
        (some x, C.running v fs' ds' k')) (h : Drives fs' ds' items) :
    Drives (f :: fs) ds (x :: items)

variable (C) in
/-- What one call of `next` and the calls after it answer. -/
def callThen (fuel fuel' n : Nat) (it : IntoIter) : Option (List Item) :=
  match C.answers.loop fuel it with
  | none => none
  | some (none, _) => some []
  | some (some item, it) => (C.answers.drive fuel' n it).map (item :: ·)

variable {fuel : Nat}

theorem drive_running : C.answers.drive fuel (n + 1) (C.running v stack ds k) =
    C.callThen fuel fuel n (C.running v stack ds k) := by
  rw [Answers.drive, callThen]
  rfl

theorem loop_nil : C.answers.loop (fuel + 1) (C.running v [] ds k) =
    some (C.running v [] ds k).close := rfl

theorem loop_cons : C.answers.loop (fuel + 1) (C.running v (f :: fs) ds k) =
    match C.answers.turn (C.running v (f :: fs) ds k) with
    | (some item, it) => some (some item, it)
    | (none, it) => C.answers.loop fuel it := rfl

theorem Drives.callThen (hd : C.Drives v stack ds items) : ∃ N, ∀ fuel ≥ N, ∀ fuel' ≥ N,
    ∀ n ≥ N, ∀ k, C.callThen fuel fuel' n (C.running v stack ds k) = some items := by
  induction hd with
  | stop hc =>
    refine ⟨1, fun fuel hf fuel' _ n _ k => ?_⟩
    obtain ⟨it, hit⟩ := hc k
    obtain ⟨fuel, rfl⟩ : ∃ m, fuel = m + 1 := ⟨fuel - 1, by omega⟩
    rw [Course.callThen, loop_nil, hit]
  | last hc _ ih =>
    obtain ⟨N, hN⟩ := ih
    refine ⟨N + 1, fun fuel hf fuel' hf' n hn k => ?_⟩
    obtain ⟨k', hit⟩ := hc k
    obtain ⟨fuel, rfl⟩ : ∃ m, fuel = m + 1 := ⟨fuel - 1, by omega⟩
    obtain ⟨n, rfl⟩ : ∃ m, n = m + 1 := ⟨n - 1, by omega⟩
    rw [Course.callThen, loop_nil, hit]
    dsimp only
    rw [drive_running, hN fuel' (by omega) fuel' (by omega) n (by omega)]
    rfl
  | quiet hc _ ih =>
    obtain ⟨N, hN⟩ := ih
    refine ⟨N + 1, fun fuel hf fuel' hf' n hn k => ?_⟩
    obtain ⟨k', hit⟩ := hc k
    obtain ⟨fuel, rfl⟩ : ∃ m, fuel = m + 1 := ⟨fuel - 1, by omega⟩
    have hrest := hN fuel (by omega) fuel' (by omega) n (by omega) k'
    rw [Course.callThen] at hrest ⊢
    rw [loop_cons, hit]
    exact hrest
  | yields hc _ ih =>
    obtain ⟨N, hN⟩ := ih
    refine ⟨N + 1, fun fuel hf fuel' hf' n hn k => ?_⟩
    obtain ⟨k', hit⟩ := hc k
    obtain ⟨fuel, rfl⟩ : ∃ m, fuel = m + 1 := ⟨fuel - 1, by omega⟩
    obtain ⟨n, rfl⟩ : ∃ m, n = m + 1 := ⟨n - 1, by omega⟩
    rw [Course.callThen, loop_cons, hit]
    dsimp only
    rw [drive_running, hN fuel' (by omega) fuel' (by omega) n (by omega)]
    rfl

def Balanced (C : Course) (fs : List Frame) (ds : List DirEntry) : Prop :=
  C.opts.contentsFirst = true → ds.length = fs.length

theorem getDeferredDir_none {it : IntoIter} (hit : it.opts = C.opts)
    (hb : C.opts.contentsFirst = true → it.deferredDirs.length ≤ it.depth) :
    it.getDeferredDir = (none, it) := by
  rw [IntoIter.getDeferredDir, if_neg]
  rw [hit, Bool.and_eq_true, not_and]
  intro hcf
  have := hb hcf
  simpa using this

theorem turn_eq (hb : C.opts.contentsFirst = true → ds.length ≤ fs.length + 1) :
    C.answers.turn (C.running v (f :: fs) ds k) =
      if C.opts.maxDepth < fs.length + 1 then (none, C.running v fs ds (fs.length + 1))
      else C.answers.advance (C.running v (f :: fs) ds (fs.length + 1)) := by
  rw [Answers.turn, getDeferredDir_none (C := C) rfl fun hcf => hb hcf]
  rfl

theorem Drives.left (hb : C.opts.contentsFirst = true → ds.length ≤ fs.length + 1)
    (hleft : C.opts.maxDepth < fs.length + 1 ∨ f.entries = []) (hd : C.Drives v fs ds items) :
    C.Drives v (f :: fs) ds items := by
  refine .quiet (fun k => ⟨fs.length + 1, ?_⟩) hd
  rw [turn_eq hb]
  by_cases hmax : C.opts.maxDepth < fs.length + 1
  · exact if_pos hmax
  · rw [if_neg hmax]
    simp only [Answers.advance, running, hleft.resolve_left hmax]
    rfl

variable {l : List OsStr}

theorem turn_name (hb : C.opts.contentsFirst = true → ds.length ≤ fs'.length + 1)
    (hmax : ¬C.opts.maxDepth < fs'.length + 1) (halike : fs'.map bare = fs.map bare) :
    C.answers.turn (C.running v ({ f with entries := c :: l } :: fs') ds k) =
      C.does v ({ f with entries := l } :: fs') ds (fs'.length + 1) (C.fate (f :: fs) c) := by
  have hcongr : C.fate (f :: fs) c = C.fate ({ f with entries := l } :: fs') c :=
    fate_congr (by rw [List.map_cons, List.map_cons, halike]; rfl) c
  rw [turn_eq hb, if_neg hmax, hcongr]
  simp only [Answers.advance, running, Answers.childEntry]
  unfold fate
  dsimp only [List.length_cons]
  have hchild : C.answers.childOf { f with entries := l } (fs'.length + 1) c =
      C.answers.childOf { f with entries := l } (fs'.length + 1) c := rfl
  cases hcf : C.answers.childOf { f with entries := l } (fs'.length + 1) c with
  | error e => rfl
  | ok d =>
    obtain ⟨path, m, -, -, hd⟩ := childOf_eq_ok hcf
    exact handleEntry_eq (C := C) (by rw [hd]; simp)

/-! ## Withheld directories -/

variable (C) in
def ownAt (depth : Nat) (d : DirEntry) : List Item :=
  if depth < C.opts.minDepth ∨ C.opts.maxDepth < depth then [] else [.ok d]

theorem ownAt_depth : C.ownAt d.depth d = C.own d := by
  unfold ownAt own skips
  simp only [Bool.or_eq_true, decide_eq_true_eq]

theorem getDeferredDir_withheld (hcf : C.opts.contentsFirst = true) (hb : C.Balanced fs ds) :
    (C.running v fs (d :: ds) fs.length).getDeferredDir =
      (if (C.running v fs ds fs.length).skippable then none else some d,
        C.running v fs ds fs.length) := by
  have hlt : fs.length < (d :: ds).length := by
    rw [List.length_cons, hb hcf]
    omega
  rw [IntoIter.getDeferredDir, if_pos]
  · rfl
  · simp only [running, hcf, Bool.true_and]
    exact decide_eq_true hlt

theorem Drives.done (hd : C.Drives v [] [] items) : items = [] := by
  cases hd with
  | stop _ => rfl
  | last hc _ =>
    obtain ⟨k', hk⟩ := hc 0
    have hnone : ((C.running v [] [] 0).close).1 = none := by
      rw [IntoIter.close]
      split_ifs
      · rw [getDeferredDir_none (C := C) rfl fun _ => Nat.zero_le _]
      · rfl
    rw [hk] at hnone
    cases hnone

/-- Once the frame of a directory is gone, the directory itself is passed over or yielded, as at
the height the stack is left with. -/
theorem Drives.withheld (hcf : C.opts.contentsFirst = true) (hb : C.Balanced fs ds)
    (hd : C.Drives v fs ds items) : C.Drives v fs (d :: ds) (C.ownAt fs.length d ++ items) := by
  have hoff := getDeferredDir_withheld (v := v) (d := d) hcf hb
  have hskip : (C.running v fs ds fs.length).skippable =
      decide (fs.length < C.opts.minDepth ∨ C.opts.maxDepth < fs.length) := by
    rw [Bool.decide_or]
    rfl
  rw [hskip] at hoff
  unfold ownAt
  by_cases hs : fs.length < C.opts.minDepth ∨ C.opts.maxDepth < fs.length
  · rw [if_pos (decide_eq_true hs)] at hoff
    rw [if_pos hs]
    cases fs with
    | nil =>
      obtain rfl : ds = [] := List.length_eq_zero_iff.1 (hb hcf)
      rw [Drives.done hd]
      refine .stop fun k => ?_
      rw [IntoIter.close, if_pos (show (C.running v [] [d] k).opts.contentsFirst = true from hcf)]
      erw [show (C.running v [] [d] 0).getDeferredDir = _ from hoff]
      exact ⟨_, rfl⟩
    | cons g gs =>
      have hturn : ∀ k, C.answers.turn (C.running v (g :: gs) (d :: ds) k) =
          C.answers.turn (C.running v (g :: gs) ds k) := by
        intro k
        rw [Answers.turn, turn_eq fun hcf => (hb hcf).le]
        erw [show (C.running v (g :: gs) (d :: ds) (gs.length + 1)).getDeferredDir = _ from hoff]
        rfl
      cases hd with
      | quiet hc hrest => exact .quiet (fun k => by rw [hturn k]; exact hc k) hrest
      | yields hc hrest => exact .yields (fun k => by rw [hturn k]; exact hc k) hrest
  · rw [if_neg (by simpa using hs)] at hoff
    rw [if_neg hs]
    cases fs with
    | nil =>
      refine .last (fun k => ⟨0, ?_⟩) hd
      rw [IntoIter.close, if_pos (show (C.running v [] (d :: ds) k).opts.contentsFirst = true
        from hcf)]
      erw [show (C.running v [] (d :: ds) 0).getDeferredDir = _ from hoff]
      rfl
    | cons g gs =>
      refine .yields (fun k => ⟨gs.length + 1, ?_⟩) hd
      rw [Answers.turn]
      erw [show (C.running v (g :: gs) (d :: ds) (gs.length + 1)).getDeferredDir = _ from hoff]
      rfl

/-! ## The contents of a directory -/

theorem Drives.error (hb : C.opts.contentsFirst = true → ds.length ≤ fs'.length + 1)
    (hmax : ¬C.opts.maxDepth < fs'.length + 1) (halike : fs'.map bare = fs.map bare)
    (hfate : C.fate (f :: fs) c = .fails e ∨ ∃ d, C.fate (f :: fs) c = .shut d e)
    (hd : C.Drives v ({ f with entries := l } :: fs') ds items) :
    C.Drives v ({ f with entries := c :: l } :: fs') ds (.error e :: items) := by
  refine .yields (fun k => ⟨fs'.length + 1, ?_⟩) hd
  rw [turn_name hb hmax halike]
  rcases hfate with hfate | ⟨d, hfate⟩ <;> rw [hfate] <;> rfl

theorem Drives.entry {top : List Frame}
    (hb : C.opts.contentsFirst = true → ds.length ≤ fs'.length + 1)
    (hmax : ¬C.opts.maxDepth < fs'.length + 1) (halike : fs'.map bare = fs.map bare)
    (hfate : C.fate (f :: fs) c = .stays d ∧ top = { f with entries := l } :: fs' ∨
      ∃ f', C.fate (f :: fs) c = .opens d f' ∧ top = f' :: { f with entries := l } :: fs')
    (hnot : (IntoIter.isNormalDir d && C.opts.contentsFirst) = false)
    (hd : C.Drives v top ds items) :
    C.Drives v ({ f with entries := c :: l } :: fs') ds (C.own d ++ items) := by
  have hdepth : d.depth = fs'.length + 1 := by
    have hlen : fs'.length = fs.length := by
      rw [← List.length_map (f := bare), halike, List.length_map]
    rw [hlen]
    rcases hfate with ⟨hfate, -⟩ | ⟨f', hfate, -⟩
    · exact depth_of_fate (.inl hfate)
    · exact depth_of_fate (.inr ⟨f', hfate⟩)
  have hturn : ∀ k, C.answers.turn (C.running v ({ f with entries := c :: l } :: fs') ds k) =
      (if C.skips d then none else some (.ok d), C.running v top ds (fs'.length + 1)) := by
    intro k
    rw [turn_name hb hmax halike]
    rcases hfate with ⟨hfate, rfl⟩ | ⟨f', hfate, rfl⟩
    · rw [hfate, does, settle_running hdepth, hnot, if_neg Bool.false_ne_true]
    · rw [hfate, does, settle_running hdepth, hnot, if_neg Bool.false_ne_true]
  unfold own
  cases hs : C.skips d with
  | true => exact .quiet (fun k => ⟨_, by rw [hturn, hs]; rfl⟩) hd
  | false => exact .yields (fun k => ⟨_, by rw [hturn, hs]; rfl⟩) hd

theorem Drives.withholds {top : List Frame}
    (hb : C.opts.contentsFirst = true → ds.length ≤ fs'.length + 1)
    (hmax : ¬C.opts.maxDepth < fs'.length + 1) (halike : fs'.map bare = fs.map bare)
    (hfate : C.fate (f :: fs) c = .stays d ∧ top = { f with entries := l } :: fs' ∨
      ∃ f', C.fate (f :: fs) c = .opens d f' ∧ top = f' :: { f with entries := l } :: fs')
    (hyes : (IntoIter.isNormalDir d && C.opts.contentsFirst) = true)
    (hd : C.Drives v top (d :: ds) items) :
    C.Drives v ({ f with entries := c :: l } :: fs') ds items := by
  have hdepth : d.depth = fs'.length + 1 := by
    have hlen : fs'.length = fs.length := by
      rw [← List.length_map (f := bare), halike, List.length_map]
    rw [hlen]
    rcases hfate with ⟨hfate, -⟩ | ⟨f', hfate, -⟩
    · exact depth_of_fate (.inl hfate)
    · exact depth_of_fate (.inr ⟨f', hfate⟩)
  refine .quiet (fun k => ⟨fs'.length + 1, ?_⟩) hd
  rw [turn_name hb hmax halike]
  rcases hfate with ⟨hfate, rfl⟩ | ⟨f', hfate, rfl⟩
  · rw [hfate, does, settle_running hdepth, hyes, if_pos rfl]
  · rw [hfate, does, settle_running hdepth, hyes, if_pos rfl]

theorem length_alike (halike : fs'.map bare = fs.map bare) : fs'.length = fs.length := by
  rw [← List.length_map (f := bare), halike, List.length_map]

theorem Drives.own_withheld (hcf : C.opts.contentsFirst = true) (hb : C.Balanced stack ds)
    (hdepth : d.depth = stack.length) (hd : C.Drives v stack ds items) :
    C.Drives v stack (d :: ds) (C.own d ++ items) := by
  rw [← ownAt_depth, hdepth]
  exact hd.withheld hcf hb

theorem drives_names {contents : List Frame → List Item}
    (hcontents : ∀ {c d f'}, c ∈ f.entries → C.fate (f :: fs) c = .opens d f' →
      ∀ {gs' : List Frame} {ds : List DirEntry} {items : List Item},
        gs'.map bare = (f :: fs).map bare → C.Balanced (f' :: gs') ds → C.Drives v gs' ds items →
          C.Drives v (f' :: gs') ds (contents (f' :: f :: fs) ++ items))
    (hmax : ¬C.opts.maxDepth < fs'.length + 1) (halike : fs'.map bare = fs.map bare)
    (hb : C.Balanced (f :: fs') ds) (hd : C.Drives v fs' ds items)
    (hl : ∀ c ∈ l, c ∈ f.entries) :
    C.Drives v ({ f with entries := l } :: fs') ds
      (l.flatMap (C.one lost contents (f :: fs)) ++ items) := by
  have hle : C.opts.contentsFirst = true → ds.length ≤ fs'.length + 1 := fun hcf => (hb hcf).le
  have hlen := length_alike halike
  induction l with
  | nil => exact .left hle (.inr rfl) hd
  | cons c l ih =>
    obtain ⟨hc, hl⟩ := List.forall_mem_cons.1 hl
    have hrest := ih hl
    rw [List.flatMap_cons, List.append_assoc]
    cases hfate : C.fate (f :: fs) c with
    | fails e =>
      rw [one, hfate]
      exact .error hle hmax halike (.inl hfate) hrest
    | shut d e =>
      rw [one, hfate]
      exact .error hle hmax halike (.inr ⟨d, hfate⟩) hrest
    | stays d =>
      rw [one, hfate]
      have hdepth : d.depth = ({ f with entries := l } :: fs').length := by
        rw [depth_of_fate (.inl hfate), List.length_cons, List.length_cons, hlen]
      cases hyes : IntoIter.isNormalDir d && C.opts.contentsFirst with
      | false => exact .entry hle hmax halike (.inl ⟨hfate, rfl⟩) hyes hrest
      | true =>
        have hcf := ((Bool.and_eq_true _ _).mp hyes).2
        exact .withholds hle hmax halike (.inl ⟨hfate, rfl⟩) hyes
          (hrest.own_withheld hcf (fun _ => hb hcf) hdepth)
    | opens d f' =>
      rw [one, hfate]
      dsimp only
      have hdepth : d.depth = ({ f with entries := l } :: fs').length := by
        rw [depth_of_fate (.inr ⟨f', hfate⟩), List.length_cons, List.length_cons, hlen]
      have halike' : ({ f with entries := l } :: fs').map bare = (f :: fs).map bare := by
        rw [List.map_cons, List.map_cons, halike]
        rfl
      have hdir := isNormalDir_of_opens hfate
      unfold around
      cases hcf : C.opts.contentsFirst with
      | true =>
        rw [if_pos rfl, List.append_assoc]
        refine .withholds hle hmax halike (.inr ⟨f', hfate, rfl⟩) (by rw [hdir, hcf]; rfl) ?_
        refine hcontents hc hfate halike' (fun _ => ?_)
          (hrest.own_withheld hcf (fun _ => hb hcf) hdepth)
        rw [List.length_cons, List.length_cons, hb hcf]
        rfl
      | false =>
        rw [if_neg Bool.false_ne_true, List.append_assoc]
        refine .entry hle hmax halike (.inr ⟨f', hfate, rfl⟩) (by rw [hdir, hcf]; rfl) ?_
        exact hcontents hc hfate halike' (fun h => absurd (hcf.symm.trans h) Bool.false_ne_true)
          hrest

/-- **Contents.** A frame is driven through the items of its directory's contents. -/
theorem drives_below (n : Nat) : ∀ {f : Frame} {fs fs' : List Frame} {ds : List DirEntry}
    {items : List Item}, fs'.map bare = fs.map bare → C.Balanced (f :: fs') ds →
      C.Fits n (f :: fs) → C.Drives v fs' ds items →
        C.Drives v (f :: fs') ds (C.below lost n (f :: fs) ++ items) := by
  induction n with
  | zero => exact fun _ _ hfits => hfits.elim
  | succ n ih =>
    intro f fs fs' ds items halike hb hfits hd
    rw [below]
    by_cases hmax : C.opts.maxDepth < fs.length + 1
    · rw [if_pos hmax]
      exact .left (fun hcf => (hb hcf).le) (.inl (by rwa [length_alike halike])) hd
    · rw [if_neg hmax]
      exact drives_names (f := f)
        (fun hc hfate _ _ _ halike' hb' hd' => ih halike' hb'
          (hfits.resolve_left hmax _ hc _ _ hfate) hd')
        (by rwa [length_alike halike]) halike hb hd fun c hc => hc

/-! ## Contents while a directory less is withheld -/

variable (C) in
/-- The items of names while one directory less is withheld than there are frames. The first
directory that is withheld makes up for it, and is come back to one frame too late. -/
def late (contents lagging : List Frame → List Item) (stack : List Frame) : List OsStr → List Item
  | [] => []
  | c :: l =>
    match C.fate stack c with
    | .fails e => .error e :: late contents lagging stack l
    | .shut _ e => .error e :: late contents lagging stack l
    | .stays d =>
      if IntoIter.isNormalDir d then
        l.flatMap (C.one lost contents stack) ++ C.ownAt (d.depth - 1) d
      else C.own d ++ late contents lagging stack l
    | .opens d f =>
      lagging (f :: stack) ++ (l.flatMap (C.one lost contents stack) ++ C.ownAt (d.depth - 1) d)

variable (C) in
/-- The items of the contents of the directory on top while one directory less is withheld. -/
def lags : Nat → List Frame → List Item
  | 0, _ => []
  | _ + 1, [] => []
  | n + 1, f :: fs =>
    if C.opts.maxDepth < fs.length + 1 then []
    else C.late (C.below lost n) (lags n) (f :: fs) f.entries

theorem drives_lags (hcf : C.opts.contentsFirst = true) (n : Nat) :
    ∀ {f : Frame} {fs fs' : List Frame} {ds : List DirEntry} {items : List Item},
      fs'.map bare = fs.map bare → ds.length = fs'.length → C.Fits n (f :: fs) →
        C.Drives v fs' ds items → C.Drives v (f :: fs') ds (C.lags n (f :: fs) ++ items) := by
  induction n with
  | zero => exact fun _ _ hfits => hfits.elim
  | succ n ih =>
    intro f fs fs' ds items halike hlag hfits hd
    have hlen := length_alike halike
    have hle : C.opts.contentsFirst = true → ds.length ≤ fs'.length + 1 := fun _ => by omega
    rw [lags]
    by_cases hmax : C.opts.maxDepth < fs.length + 1
    · rw [if_pos hmax]
      exact .left hle (.inl (by rwa [hlen])) hd
    rw [if_neg hmax]
    have hmax' : ¬C.opts.maxDepth < fs'.length + 1 := by rwa [hlen]
    -- once a directory has been withheld the stacks correspond
    have hafter : ∀ {d : DirEntry} {l : List OsStr}, d.depth = fs'.length + 1 →
        (∀ c ∈ l, c ∈ f.entries) → C.Drives v ({ f with entries := l } :: fs') (d :: ds)
          ((l.flatMap (C.one lost (C.below lost n) (f :: fs)) ++ C.ownAt (d.depth - 1) d) ++
            items) := by
      intro d l hdepth hl
      rw [List.append_assoc, show d.depth - 1 = fs'.length by omega]
      exact drives_names (f := f)
        (fun hc hfate _ _ _ halike' hb' hd' => drives_below n halike' hb'
          (hfits.resolve_left hmax _ hc _ _ hfate) hd')
        hmax' halike (fun _ => by rw [List.length_cons, List.length_cons, hlag])
        (hd.withheld hcf fun _ => hlag) hl
    have hnames : ∀ l, (∀ c ∈ l, c ∈ f.entries) → C.Drives v ({ f with entries := l } :: fs') ds
        (C.late (C.below lost n) (C.lags n) (f :: fs) l ++ items) := by
      intro l hl
      induction l with
      | nil => exact .left hle (.inr rfl) hd
      | cons c l ih' =>
        obtain ⟨hc, hl⟩ := List.forall_mem_cons.1 hl
        have hrest := ih' hl
        rw [late]
        cases hfate : C.fate (f :: fs) c with
        | fails e => exact .error hle hmax' halike (.inl hfate) hrest
        | shut d e => exact .error hle hmax' halike (.inr ⟨d, hfate⟩) hrest
        | stays d =>
          have hdepth : d.depth = fs'.length + 1 := by
            rw [depth_of_fate (.inl hfate), List.length_cons, hlen]
          dsimp only
          cases hdir : IntoIter.isNormalDir d with
          | false =>
            rw [if_neg Bool.false_ne_true, List.append_assoc]
            exact .entry hle hmax' halike (.inl ⟨hfate, rfl⟩) (by rw [hdir]; rfl) hrest
          | true =>
            rw [if_pos rfl]
            exact .withholds hle hmax' halike (.inl ⟨hfate, rfl⟩) (by rw [hdir, hcf]; rfl)
              (hafter hdepth hl)
        | opens d f' =>
          have hdepth : d.depth = fs'.length + 1 := by
            rw [depth_of_fate (.inr ⟨f', hfate⟩), List.length_cons, hlen]
          dsimp only
          rw [List.append_assoc]
          refine .withholds hle hmax' halike (.inr ⟨f', hfate, rfl⟩)
            (by rw [isNormalDir_of_opens hfate, hcf]; rfl) ?_
          refine ih ?_ ?_ (hfits.resolve_left hmax _ hc _ _ hfate) (hafter hdepth hl)
          · rw [List.map_cons, List.map_cons, halike]
            rfl
          · rw [List.length_cons, List.length_cons, hlag]
    exact hnames f.entries fun c hc => hc

/-! ## The whole walk -/

theorem drives_end : C.Drives v [] [] [] := .stop fun k =>
  ⟨(C.running v [] [] k).close.2, by
    rw [IntoIter.close]
    split_ifs
    · rw [getDeferredDir_none (C := C) rfl fun _ => Nat.zero_le _]
    · rfl⟩

variable (C) in
/-- Whether the root is a link that is descended into without being followed, so that it is not
withheld though directories are. -/
def Unheld (d : DirEntry) : Prop := IntoIter.isNormalDir d = false ∧ C.opts.contentsFirst = true

instance : Decidable (C.Unheld d) := inferInstanceAs (Decidable (_ ∧ _))

variable (C) in
/-- The items of a walk. -/
def answered (n : Nat) : List Item :=
  match C.answers.rootEntry C.root C.display with
  | .error e => [.error e]
  | .ok d =>
    match C.rootFate d with
    | .fails e => [.error e]
    | .stays d => C.own d
    | .shut d e => lost d e
    | .opens d f =>
      if C.Unheld d then C.own d ++ C.lags n [f] else C.around d (C.below lost n [f])

theorem next_rooted : C.answers.next fuel (IntoIter.rooted v C.root C.display C.opts) =
      match C.answers.rootEntry C.root C.display with
      | .error e => some (some (.error e), { C.begun v none with done := true })
      | .ok d =>
        match C.answers.handleEntry d (C.begun v none) with
        | (some item, it) => some (some item, it)
        | (none, it) => C.answers.loop fuel it := rfl

theorem drive_begun {device : Option Nat} :
    C.answers.drive (fuel + 1) (n + 1) (C.begun v device) = some [] := by
  have hclose : (C.begun v device).close.1 = none := by
    rw [IntoIter.close]
    split_ifs
    · rw [getDeferredDir_none (C := C) rfl fun _ => Nat.zero_le _]
    · rfl
  have hnext : C.answers.next (fuel + 1) (C.begun v device) =
      some (none, (C.begun v device).close.2) := by
    rw [← hclose]
    rfl
  rw [Answers.drive, hnext]

theorem loop_begun {device : Option Nat} :
    ∃ it, C.answers.loop (fuel + 1) (C.begun v device) = some (none, it) := by
  refine ⟨(C.begun v device).close.2, ?_⟩
  have hclose : (C.begun v device).close.1 = none := by
    rw [IntoIter.close]
    split_ifs
    · rw [getDeferredDir_none (C := C) rfl fun _ => Nat.zero_le _]
    · rfl
  rw [← hclose]
  rfl

theorem drive_rooted : C.answers.drive fuel (n + 1)
    (IntoIter.rooted v C.root C.display C.opts) =
      match C.answers.rootEntry C.root C.display with
      | .error e => (C.answers.drive fuel n { C.begun v none with done := true }).map (.error e :: ·)
      | .ok d =>
        match C.answers.handleEntry d (C.begun v none) with
        | (some item, it) => (C.answers.drive fuel n it).map (item :: ·)
        | (none, it) => C.callThen fuel fuel n it := by
  rw [Answers.drive, next_rooted]
  cases C.answers.rootEntry C.root C.display with
  | error e => rfl
  | ok d =>
    dsimp only
    rcases C.answers.handleEntry d (C.begun v none) with ⟨_ | item, it⟩ <;> rfl

/-- **A whole walk.** Enough rounds and calls drive a walk to its end, through its items. -/
theorem drive_answered (v : Vfs) (hfits : ∀ d d' f,
      C.answers.rootEntry C.root C.display = .ok d → C.rootFate d = .opens d' f → C.Fits n [f]) :
    ∃ N, ∀ fuel ≥ N, ∀ k ≥ N,
      C.answers.drive fuel k (IntoIter.rooted v C.root C.display C.opts) = some (C.answered n) := by
  -- a walk that opens no frame
  have hover : ∀ (device : Option Nat) (x : Option Item),
      (∀ fuel n, C.answers.drive fuel (n + 1) (IntoIter.rooted v C.root C.display C.opts) =
        match x with
        | some item => (C.answers.drive fuel n (C.begun v device)).map (item :: ·)
        | none => C.callThen fuel fuel n (C.begun v device)) →
      C.answered n = x.toList → ∃ N, ∀ fuel ≥ N, ∀ k ≥ N,
        C.answers.drive fuel k (IntoIter.rooted v C.root C.display C.opts) =
          some (C.answered n) := by
    intro device x hdrive hitems
    refine ⟨2, fun fuel hf k hk => ?_⟩
    obtain ⟨fuel, rfl⟩ : ∃ m, fuel = m + 1 := ⟨fuel - 1, by omega⟩
    obtain ⟨k, rfl⟩ : ∃ m, k = m + 2 := ⟨k - 2, by omega⟩
    rw [hdrive, hitems]
    cases x with
    | some item =>
      dsimp only
      rw [drive_begun]
      rfl
    | none =>
      have hbegun : ∃ it, C.answers.loop (fuel + 1) (C.begun v device) = some (none, it) :=
        loop_begun
      obtain ⟨it, hloop⟩ := hbegun
      dsimp only
      rw [callThen, hloop]
      rfl
  cases hroot : C.answers.rootEntry C.root C.display with
  | error e =>
    refine ⟨2, fun fuel hf k hk => ?_⟩
    obtain ⟨k, rfl⟩ : ∃ m, k = m + 2 := ⟨k - 2, by omega⟩
    have hanswered : C.answered n = [.error e] := by
      unfold answered
      rw [hroot]
    rw [drive_rooted, hroot, hanswered]
    rfl
  | ok d =>
    obtain ⟨device, hhandle⟩ := handleEntry_root (v := v) hroot
    have hdrive : ∀ fuel n, C.answers.drive fuel (n + 1)
        (IntoIter.rooted v C.root C.display C.opts) =
          match C.doesRoot v device (C.rootFate d) with
          | (some item, it) => (C.answers.drive fuel n it).map (item :: ·)
          | (none, it) => C.callThen fuel fuel n it := by
      intro fuel n
      rw [drive_rooted, hroot, ← hhandle]
    have hanswered : C.answered n = match C.rootFate d with
        | .fails e => [.error e]
        | .stays d => C.own d
        | .shut d e => lost d e
        | .opens d f =>
          if C.Unheld d then C.own d ++ C.lags n [f] else C.around d (C.below lost n [f]) := by
      unfold answered
      rw [hroot]
    cases hfate : C.rootFate d with
    | fails e =>
      rw [hfate] at hdrive hanswered
      exact hover device (some (.error e)) hdrive hanswered
    | shut d' e =>
      rw [hfate] at hdrive hanswered
      exact hover device (some (.error e)) hdrive hanswered
    | stays d' =>
      rw [hfate] at hdrive hanswered
      refine hover device (if C.skips d' then none else some (.ok d')) (fun fuel n => ?_) ?_
      · rw [hdrive, doesRoot]
        cases C.skips d' <;> rfl
      · rw [hanswered]
        dsimp only
        unfold own
        cases C.skips d' <;> rfl
    | opens d' f =>
      have hfit := hfits d d' f hroot hfate
      have hdepth : d'.depth = 0 := by
        rw [depth_of_rootFate (.inr ⟨f, hfate⟩)]
        obtain ⟨m, rfl⟩ := rootEntry_eq_ok hroot
        rfl
      rw [hfate] at hdrive hanswered
      simp only [doesRoot, settle_running hdepth] at hdrive
      dsimp only at hanswered
      by_cases hheld : (IntoIter.isNormalDir d' && C.opts.contentsFirst) = true
      · obtain ⟨hdir, hcf⟩ := (Bool.and_eq_true _ _).mp hheld
        rw [if_neg (by simp [Unheld, hdir]), around, if_pos hcf] at hanswered
        have hown : C.Drives v [] [d'] (C.own d' ++ []) :=
          drives_end.own_withheld hcf (fun _ => rfl) hdepth
        rw [List.append_nil] at hown
        obtain ⟨N, hN⟩ := (drives_below n rfl (fun _ => rfl) hfit hown).callThen
        refine ⟨N + 1, fun fuel hf k hk => ?_⟩
        obtain ⟨k, rfl⟩ : ∃ m, k = m + 1 := ⟨k - 1, by omega⟩
        rw [hdrive, if_pos hheld, hanswered]
        exact hN fuel (by omega) fuel (by omega) k (by omega) 0
      · -- the root itself is passed over or yielded, and then its contents
        obtain ⟨contents, hcontents, hrun⟩ : ∃ contents, C.answered n = C.own d' ++ contents ∧
            C.Drives v [f] [] contents := by
          cases hcf : C.opts.contentsFirst with
          | true =>
            have hdir : IntoIter.isNormalDir d' = false := by simpa [hcf] using hheld
            refine ⟨C.lags n [f] ++ [], ?_, drives_lags hcf n rfl rfl hfit drives_end⟩
            rw [hanswered, if_pos ⟨hdir, hcf⟩, List.append_nil]
          | false =>
            refine ⟨C.below lost n [f] ++ [], ?_, drives_below n rfl (fun h => ?_) hfit drives_end⟩
            · rw [hanswered, if_neg (by simp [Unheld, hcf]), around, hcf,
                if_neg Bool.false_ne_true, List.append_nil]
            · rw [hcf] at h
              cases h
        obtain ⟨N, hN⟩ := hrun.callThen
        refine ⟨N + 2, fun fuel hf k hk => ?_⟩
        obtain ⟨k, rfl⟩ : ∃ m, k = m + 2 := ⟨k - 2, by omega⟩
        rw [hdrive, if_neg hheld, hcontents, own]
        cases C.skips d' with
        | true => exact hN fuel (by omega) fuel (by omega) (k + 1) (by omega) 0
        | false =>
          rw [if_neg Bool.false_ne_true]
          dsimp only
          rw [drive_running, hN fuel (by omega) fuel (by omega) k (by omega)]
          rfl

end Course

end Seahaven.Vfs
