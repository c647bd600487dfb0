import Seahaven.Lib.Descent
import Seahaven.Vfs.Fate

/-!
# Walks over a bounded namespace

A namespace is bounded if it has finitely many directories, none deeper than some height. A link
that is followed may lead anywhere, also to a directory the walk is in; what bounds the walk is
that it follows none to where it is.

1. `Bounded`: a bounded namespace.
2. `Tame`: the stacks of a walk over it. `tame_opens`: a walk keeps to them.
3. `Tame.length_le`: they are of bounded height.
-/

namespace Seahaven.Vfs

open Host OsStr

variable [Unicode]

/-- Finitely many directories of bounded rank. One that is no link is one deeper than the directory
it is in. -/
structure Bounded (A : Answers) where
  /-- The directories a walk may hold. -/
  Held : Dir → Prop
  rank : Dir → Nat
  height : Nat
  ids : Finset FileIdentity
  openDir : ∀ {p dir}, A.openDir p = .ok dir → Held dir
  openAt : ∀ {dir c m sub}, Held dir → A.lstatAt dir c = .ok m → m.isDir = true →
    A.openAt dir c = .ok sub → Held sub ∧ rank sub = rank dir + 1
  mem : ∀ {dir}, Held dir → dir.identity ∈ ids
  rank_le : ∀ {dir}, Held dir → rank dir ≤ height
  nodup : ∀ {dir names}, A.entryNames dir = .ok names → names.Nodup

namespace Bounded

def frames {A : Answers} (B : Bounded A) : Nat := B.ids.card * (B.height + 1)

end Bounded

namespace Course

variable {C : Course} (B : Bounded C.answers)

variable (C) in
/-- The stacks of a walk. The directories that are open make a descent, and are on the root's
filesystem if the walk keeps to that. -/
structure Tame (stack : List Frame) : Prop where
  chain : Descent.Chain (fun f : Frame => f.dir.identity) (fun f => B.rank f.dir) stack
  held : ∀ f ∈ stack, B.Held f.dir
  identity : ∀ f ∈ stack, f.identity = C.identity f.dir
  device : C.opts.sameFileSystem = true → ∀ f ∈ stack, C.device = some f.dir.identity.device

variable {B} {stack fs : List Frame} {f g : Frame} {d d' : DirEntry} {c : OsStr}

theorem Tame.length_le (hs : C.Tame B stack) : stack.length ≤ B.frames :=
  hs.chain.length_le (fun f hf => B.mem (hs.held f hf)) fun f hf => B.rank_le (hs.held f hf)

theorem identity_of_follow (hf : C.opts.followLinks = true) (dir : Dir) :
    C.identity dir = some dir.identity := by
  unfold identity
  rw [hf]
  rfl

theorem identity_of_sameFileSystem (hs : C.opts.sameFileSystem = true) (dir : Dir) :
    C.identity dir = some dir.identity := by
  unfold identity
  rw [hs, Bool.or_true]
  rfl

theorem Tame.cons (hs : C.Tame B stack)
    (hchain : Descent.Chain (fun f : Frame => f.dir.identity) (fun f => B.rank f.dir) (f :: stack))
    (hheld : B.Held f.dir)
    (hid : f.identity = C.identity f.dir)
    (hdev : C.opts.sameFileSystem = true → C.device = some f.dir.identity.device) :
    C.Tame B (f :: stack) :=
  ⟨hchain, List.forall_mem_cons.2 ⟨hheld, hs.held⟩, List.forall_mem_cons.2 ⟨hid, hs.identity⟩,
    fun h => List.forall_mem_cons.2 ⟨hdev h, hs.device h⟩⟩

theorem tame_nil : C.Tame B [] := ⟨.nil, nofun, nofun, fun _ => nofun⟩

theorem device_of_not_crosses {dir : Dir} (hs : C.Tame B (g :: fs))
    (hcross : C.crosses dir = false) (hsame : C.opts.sameFileSystem = true) :
    C.device = some dir.identity.device := by
  have hroot := hs.device hsame g List.mem_cons_self
  unfold crosses at hcross
  rw [hsame, identity_of_sameFileSystem hsame, hroot] at hcross
  rw [hroot]
  simpa using Eq.symm (by simpa using hcross)

theorem fresh_of_loopsTo {dir : Dir} (hs : C.Tame B stack) (hfol : C.opts.followLinks = true)
    (hd : d.followed = true) (hloop : C.loopsTo stack d dir = none) :
    ∀ f ∈ stack, f.dir.identity ≠ dir.identity := by
  intro f hf heq
  unfold loopsTo at hloop
  rw [hd, identity_of_follow hfol] at hloop
  have hne := List.find?_eq_none.1 hloop f hf
  rw [hs.identity f hf, identity_of_follow hfol, heq] at hne
  simp at hne

theorem opening_ok {dir : Dir} : C.opening stack d = .ok dir ↔
    (match stack, d.followed with
      | frame :: _, false => C.answers.openAt frame.dir d.name
      | _, _ => C.answers.openDir d.path) = .ok dir := by
  have hmap : ∀ (x : Except IoError Dir) (f : IoError → WalkError),
      x.mapError f = .ok dir ↔ x = .ok dir := by
    intro x f
    cases x <;> simp [Except.mapError]
  exact hmap _ _

/-- **A descent keeps to its bounds.** -/
theorem tame_opens (hs : C.Tame B (g :: fs)) (h : C.fate (g :: fs) c = .opens d f) :
    C.Tame B (f :: g :: fs) := by
  unfold fate at h
  dsimp only at h
  cases hchild : C.answers.childOf g (g :: fs).length c with
  | error e => rw [hchild] at h; cases h
  | ok d₀ =>
    rw [hchild] at h
    obtain ⟨path, m, -, hm, rfl⟩ := childOf_eq_ok hchild
    obtain ⟨hdir, hdesc, hd⟩ := fateOf_opens h
    obtain ⟨-, dir, names, hopen, hcross, hloop, -, rfl⟩ := descends_opens hdesc
    have hdepth : d.depth = (g :: fs).length := by rcases hd with rfl | ⟨-, m', rfl⟩ <;> rfl
    rw [hdepth] at hcross
    have hdev : _ → C.device = some dir.identity.device :=
      device_of_not_crosses hs (by simpa using hcross)
    rw [opening_ok] at hopen
    rcases hd with rfl | ⟨hfol, m', rfl⟩
    · -- a directory beneath the one on top
      simp only [IntoIter.isNormalDir, Bool.and_eq_true] at hdir
      obtain ⟨hheld, hdeeper⟩ := B.openAt (hs.held g List.mem_cons_self) hm hdir.2 hopen
      exact hs.cons (.deeper hs.chain hdeeper) hheld rfl hdev
    · -- a directory a link leads to
      exact hs.cons (.fresh hs.chain (fresh_of_loopsTo hs hfol rfl hloop)) (B.openDir hopen) rfl hdev

theorem rootFate_opens (hd : C.answers.rootEntry C.root C.display = .ok d)
    (h : C.rootFate d = .opens d' f) : C.descends [] d' = .opens d' f ∧ d'.path = C.root := by
  obtain ⟨m, rfl⟩ := rootEntry_eq_ok hd
  unfold rootFate at h
  split_ifs at h
  · cases hstat : C.stat C.root with
    | error e => rw [hstat] at h; cases h
    | ok m' =>
      rw [hstat] at h
      dsimp only at h
      cases hmeta : C.answers.metadata C.root with
      | error e => rw [hmeta] at h; cases h
      | ok m'' =>
        rw [hmeta] at h
        dsimp only at h
        cases hdir : m'.isDir with
        | false => rw [hdir, if_neg Bool.false_ne_true] at h; cases h
        | true =>
          rw [hdir, if_pos rfl] at h
          obtain ⟨rfl, -⟩ := descends_opens h
          exact ⟨h, rfl⟩
  · obtain ⟨-, hdesc, rfl | ⟨-, m', rfl⟩⟩ := fateOf_opens h
    · exact ⟨hdesc, rfl⟩
    · exact ⟨hdesc, rfl⟩

theorem tame_root (hd : C.answers.rootEntry C.root C.display = .ok d)
    (h : C.rootFate d = .opens d' f) : C.Tame B [f] := by
  have hdesc := rootFate_opens hd h
  obtain ⟨-, dir, names, hopen, -, -, -, rfl⟩ := descends_opens hdesc.1
  have hdir : C.answers.openDir C.root = .ok dir := by
    rw [← hdesc.2]
    exact opening_ok.1 hopen
  refine tame_nil.cons (.fresh .nil nofun) (B.openDir hdir) rfl fun hsame => ?_
  unfold device
  rw [hdir]
  dsimp only
  rw [identity_of_sameFileSystem hsame]
  rfl

theorem Tame.entries (hs : C.Tame B (f :: fs)) (l : List OsStr) :
    C.Tame B ({ f with entries := l } :: fs) := by
  have hkeep : ∀ {P : Frame → Prop}, (P f → P { f with entries := l }) → (∀ g ∈ f :: fs, P g) →
      ∀ g ∈ { f with entries := l } :: fs, P g := fun hf h =>
    List.forall_mem_cons.2 ⟨hf (h f List.mem_cons_self),
      fun g hg => h g (List.mem_cons_of_mem _ hg)⟩
  exact ⟨hs.chain.replace rfl rfl, hkeep (fun h => h) hs.held, hkeep (fun h => h) hs.identity,
    fun hsame => hkeep (fun h => h) (hs.device hsame)⟩

theorem Tame.tail (hs : C.Tame B (f :: fs)) : C.Tame B fs :=
  ⟨hs.chain.tail, fun g hg => hs.held g (List.mem_cons_of_mem _ hg),
    fun g hg => hs.identity g (List.mem_cons_of_mem _ hg),
    fun hsame g hg => hs.device hsame g (List.mem_cons_of_mem _ hg)⟩

end Course

end Seahaven.Vfs
