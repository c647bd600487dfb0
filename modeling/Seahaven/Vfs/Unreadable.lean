import Seahaven.Vfs.Loops
import Seahaven.Vfs.WalkRun

/-!
# Directories that cannot be read

A walk over a host some of whose directories cannot be opened or listed.

1. `Closed`: such directories. `Answers.closing`: a host's answers with them closed.
2. `dues`: what a walk is to answer. A directory that is closed is an entry like any other, and its
   contents are one error.
3. `Short`: what the walk answers has fewer entries and more errors. `Spares`: when not.
4. `yieldsAll_iff`: when the walk answers what it is to.
-/

namespace Seahaven.Vfs

open Host OsStr

variable [Unicode]

/-- The directories that cannot be opened, and those that cannot be listed. What a mount is rooted
in is open already. -/
structure Closed where
  opening : FileIdentity → Option IoError
  reading : FileIdentity → Option IoError
  roots : ∀ tree, opening ⟨tree, 0⟩ = none

def refusing {α : Type} (refusal : Option IoError) (answer : α) : Except IoError α :=
  match refusal with
  | some e => .error e
  | none => .ok answer

/-- The answers of a host with directories closed. Asking what a path leads to opens a directory. -/
def Answers.closing (A : Answers) (K : Closed) : Answers where
  lstat := A.lstat
  metadata path := A.metadata path >>= fun m =>
    if m.isDir then refusing (K.opening ⟨m.dev, m.ino⟩) m else .ok m
  openDir path := A.openDir path >>= fun dir => refusing (K.opening dir.identity) dir
  lstatAt := A.lstatAt
  openAt dir name := A.openAt dir name >>= fun sub => refusing (K.opening sub.identity) sub
  entryNames dir := A.entryNames dir >>= fun names => refusing (K.reading dir.identity) names

omit [Unicode] in
theorem refusing_eq_ok {α : Type} {refusal : Option IoError} {a b : α} :
    refusing refusal a = .ok b ↔ refusal = none ∧ a = b := by
  unfold refusing
  cases refusal with
  | some e => simp
  | none => simp

omit [Unicode] in
theorem bind_refusing_eq_ok {α : Type} {x : Except IoError α} {f : α → Option IoError} {b : α} :
    (x >>= fun a => refusing (f a) a) = .ok b ↔ x = .ok b ∧ f b = none := by
  cases x with
  | error e =>
    refine iff_of_false ?_ ?_
    · nofun
    · rintro ⟨h, -⟩
      cases h
  | ok a =>
    change refusing (f a) a = .ok b ↔ _
    rw [refusing_eq_ok]
    constructor
    · rintro ⟨h, rfl⟩
      exact ⟨rfl, h⟩
    · rintro ⟨h, hf⟩
      obtain rfl := Except.ok.inj h
      exact ⟨hf, rfl⟩

/-- Closing directories leaves a namespace bounded. -/
def Bounded.closing {A : Answers} (B : Bounded A) (K : Closed) : Bounded (A.closing K) where
  Held := B.Held
  rank := B.rank
  height := B.height
  ids := B.ids
  openDir hopen := B.openDir (bind_refusing_eq_ok.1 hopen).1
  openAt hheld hm hdir hopen := B.openAt hheld hm hdir (bind_refusing_eq_ok.1 hopen).1
  mem := B.mem
  rank_le := B.rank_le
  nodup hnames := B.nodup (bind_refusing_eq_ok (f := fun _ => K.reading _).1 hnames).1

theorem told_closing (A : Answers) (K : Closed) (p : VirtualPath) :
    (A.closing K).metadata p = A.metadata p ∨
      ∃ m e, A.metadata p = .ok m ∧ m.isDir = true ∧ (A.closing K).metadata p = .error e := by
  unfold Answers.closing
  dsimp only
  cases A.metadata p with
  | error e => exact .inl rfl
  | ok m =>
    rw [show (.ok m >>= fun m => if m.isDir = true then refusing (K.opening ⟨m.dev, m.ino⟩) m
      else .ok m : Except IoError Metadata) = if m.isDir = true then
        refusing (K.opening ⟨m.dev, m.ino⟩) m else .ok m from rfl]
    cases hdir : m.isDir with
    | false => exact .inl (if_neg Bool.false_ne_true)
    | true =>
      rw [if_pos rfl]
      cases hk : K.opening ⟨m.dev, m.ino⟩ with
      | none => exact .inl rfl
      | some e => exact .inr ⟨m, e, rfl, hdir, rfl⟩

/-- A walk over a host with directories closed. -/
def closedCourse (A : Answers) (K : Closed) (root : VirtualPath) (display : PathBuf)
    (o : WalkOptions) : Course where
  answers := A.closing K
  stat := A.metadata
  told := told_closing A K
  opts := o
  root := root
  display := display

namespace Course

variable (C : Course)

/-! ## What is due -/

/-- What is due for a directory that cannot be opened or listed: its entry, and an error for its
contents if they are to be read. -/
def due (d : DirEntry) (e : WalkError) : List Item :=
  C.around d (if C.opts.maxDepth < d.depth + 1 then [] else [.error e])

/-- What is due of a walk. -/
def dues (n : Nat) : List Item :=
  match C.answers.rootEntry C.root C.display with
  | .error e => [.error e]
  | .ok d =>
    match C.rootFate d with
    | .fails e => [.error e]
    | .stays d => C.own d
    | .shut d e => C.due d e
    | .opens d f => C.around d (C.below C.due n [f])

def Harmless (d : DirEntry) : Prop := C.skips d = true ∧ ¬C.opts.maxDepth < d.depth + 1

/-- The directories that are withheld while one less is withheld than there are frames: the first
in a directory, and on in that. -/
def lateIn (on : List Frame → List DirEntry) (stack : List Frame) : List OsStr → List DirEntry
  | [] => []
  | c :: l =>
    match C.fate stack c with
    | .fails _ => lateIn on stack l
    | .shut _ _ => lateIn on stack l
    | .stays d => if IntoIter.isNormalDir d then [d] else lateIn on stack l
    | .opens d f => d :: on (f :: stack)

def lateOf : Nat → List Frame → List DirEntry
  | 0, _ => []
  | _ + 1, [] => []
  | n + 1, f :: fs =>
    if C.opts.maxDepth < fs.length + 1 then [] else C.lateIn (lateOf n) (f :: fs) f.entries

/-- The stacks a walk comes to. -/
inductive Visits : List Frame → Prop
  | root {d d' : DirEntry} {f : Frame} (hd : C.answers.rootEntry C.root C.display = .ok d)
      (hf : C.rootFate d = .opens d' f) : Visits [f]
  | child {f f' : Frame} {fs : List Frame} {c : OsStr} {d : DirEntry} (hs : Visits (f :: fs))
      (hmax : ¬C.opts.maxDepth < fs.length + 1) (hc : c ∈ f.entries)
      (hf : C.fate (f :: fs) c = .opens d f') : Visits (f' :: f :: fs)

/-- The directories a walk comes to that it cannot open or list. -/
inductive Refused : DirEntry → Prop
  | root {d d' : DirEntry} {e : WalkError} (hd : C.answers.rootEntry C.root C.display = .ok d)
      (hf : C.rootFate d = .shut d' e) : Refused d'
  | child {f : Frame} {fs : List Frame} {c : OsStr} {d : DirEntry} {e : WalkError}
      (hs : C.Visits (f :: fs)) (hmax : ¬C.opts.maxDepth < fs.length + 1) (hc : c ∈ f.entries)
      (hf : C.fate (f :: fs) c = .shut d e) : Refused d

def Late (n : Nat) (d : DirEntry) : Prop := ∃ d₀ d₁ f,
  C.answers.rootEntry C.root C.display = .ok d₀ ∧ C.rootFate d₀ = .opens d₁ f ∧ C.Unheld d₁ ∧
    d ∈ C.lateOf n [f]

/-- Whether nothing beneath is refused that is due. -/
def Spares : Nat → List Frame → Prop
  | 0, _ => False
  | _ + 1, [] => True
  | n + 1, f :: fs => C.opts.maxDepth < fs.length + 1 ∨ ∀ c ∈ f.entries,
      match C.fate (f :: fs) c with
      | .fails _ => True
      | .stays _ => True
      | .shut d _ => C.Harmless d
      | .opens _ f' => Spares n (f' :: f :: fs)

/-! ## Counting -/

def oks (l : List Item) : Nat := l.countP Except.isOk

def errs (l : List Item) : Nat := l.countP fun item => !item.isOk

@[simp] theorem oks_append (l l' : List Item) : oks (l ++ l') = oks l + oks l' :=
  List.countP_append

@[simp] theorem errs_append (l l' : List Item) : errs (l ++ l') = errs l + errs l' :=
  List.countP_append

@[simp] theorem oks_error (e : WalkError) (l : List Item) : oks (.error e :: l) = oks l := by
  simp [oks, Except.isOk, Except.toBool]

@[simp] theorem errs_error (e : WalkError) (l : List Item) : errs (.error e :: l) = errs l + 1 := by
  simp [errs, Except.isOk, Except.toBool]

@[simp] theorem oks_nil : oks [] = 0 := rfl

@[simp] theorem errs_nil : errs [] = 0 := rfl

/-- Items of which some entries may be lost, and some errors may be too many. -/
structure Short (l l' : List Item) : Prop where
  oks_le : oks l ≤ oks l'
  errs_le : errs l' ≤ errs l

/-- Items of which as many are entries, and as many errors. -/
structure Tallies (l l' : List Item) : Prop where
  oks_eq : oks l = oks l'
  errs_eq : errs l = errs l'

variable {l l' l₁ l₁' l₂ l₂' : List Item}

theorem Short.refl (l : List Item) : Short l l := ⟨le_rfl, le_rfl⟩

theorem Short.append (h₁ : Short l₁ l₁') (h₂ : Short l₂ l₂') : Short (l₁ ++ l₂) (l₁' ++ l₂') := by
  obtain ⟨ho₁, he₁⟩ := h₁
  obtain ⟨ho₂, he₂⟩ := h₂
  constructor
  · rw [oks_append, oks_append]
    omega
  · rw [errs_append, errs_append]
    omega

theorem Tallies.split (h : Tallies (l₁ ++ l₂) (l₁' ++ l₂')) (h₁ : Short l₁ l₁') (h₂ : Short l₂ l₂') :
    Tallies l₁ l₁' ∧ Tallies l₂ l₂' := by
  obtain ⟨ho, he⟩ := h
  obtain ⟨ho₁, he₁⟩ := h₁
  obtain ⟨ho₂, he₂⟩ := h₂
  rw [oks_append, oks_append] at ho
  rw [errs_append, errs_append] at he
  exact ⟨⟨by omega, by omega⟩, by omega, by omega⟩

theorem Tallies.of_perm (h : l.Perm l') : Tallies l l' := ⟨h.countP_eq _, h.countP_eq _⟩

theorem Short.of_perm (h : l.Perm l') : Short l l' := ⟨(h.countP_eq _).le, (h.countP_eq _).ge⟩

theorem Tallies.trans (h : Tallies l l₁) (h' : Tallies l₁ l') : Tallies l l' :=
  ⟨h.oks_eq.trans h'.oks_eq, h.errs_eq.trans h'.errs_eq⟩

theorem Short.trans (h : Short l l₁) (h' : Short l₁ l') : Short l l' :=
  ⟨h.oks_le.trans h'.oks_le, h'.errs_le.trans h.errs_le⟩

/-! ## What is lost -/

variable {C} {d : DirEntry} {e : WalkError} {f : Frame} {fs stack : List Frame} {c : OsStr} {n : Nat}

theorem around_perm (d : DirEntry) (contents : List Item) :
    (C.around d contents).Perm (C.own d ++ contents) := by
  unfold around
  split_ifs
  · exact List.perm_append_comm
  · exact List.Perm.refl _

variable {contents : List Item}

theorem short_around {contents' : List Item} (h : Short contents contents') :
    Short (C.around d contents) (C.around d contents') :=
  ((Short.of_perm (around_perm d contents)).trans ((Short.refl (C.own d)).append h)).trans
    (.of_perm (around_perm d contents').symm)

theorem tallies_around {contents' : List Item} (h : Short contents contents')
    (he : Tallies (C.around d contents) (C.around d contents')) : Tallies contents contents' := by
  have hperm := ((Tallies.of_perm (around_perm d contents).symm).trans he).trans
    (.of_perm (around_perm d contents'))
  exact (hperm.split (.refl _) h).2

theorem oks_own (d : DirEntry) : oks (C.own d) = if C.skips d then 0 else 1 := by
  unfold own
  split_ifs <;> rfl

theorem errs_own (d : DirEntry) : errs (C.own d) = 0 := by
  unfold own
  split_ifs <;> rfl

theorem oks_due : oks (C.due d e) = if C.skips d then 0 else 1 := by
  rw [oks, due, (around_perm d _).countP_eq, ← oks, oks_append, oks_own]
  split_ifs <;> simp

theorem errs_due : errs (C.due d e) = if C.opts.maxDepth < d.depth + 1 then 0 else 1 := by
  rw [errs, due, (around_perm d _).countP_eq, ← errs, errs_append, errs_own]
  split_ifs <;> simp

theorem short_lost : Short (lost d e) (C.due d e) := by
  constructor
  · exact Nat.zero_le _
  · rw [errs_due]
    split_ifs
    · exact Nat.zero_le _
    · exact le_rfl

theorem harmless_of_tallies (h : Tallies (lost d e) (C.due d e)) : C.Harmless d := by
  obtain ⟨ho, he⟩ := h
  rw [oks_due] at ho
  rw [errs_due] at he
  constructor
  · by_contra hs
    rw [if_neg hs] at ho
    cases ho
  · intro hmax
    rw [if_pos hmax] at he
    cases he

theorem due_of_harmless (h : C.Harmless d) : C.due d e = lost d e := by
  obtain ⟨hskip, hmax⟩ := h
  unfold due around own lost
  rw [if_neg hmax, hskip, if_pos rfl]
  split_ifs <;> rfl

/-! ## What is lost beneath -/

variable {inner inner' : List Frame → List Item}

variable (C) in
/-- Whether what becomes of a name is nothing to be spared, or `P` holds of the directory opened. -/
def SparesName (P : List Frame → Prop) (stack : List Frame) (c : OsStr) : Prop :=
  match C.fate stack c with
  | .fails _ => True
  | .stays _ => True
  | .shut d _ => C.Harmless d
  | .opens _ f => P (f :: stack)

theorem short_one
    (h : ∀ d f, C.fate stack c = .opens d f → Short (inner (f :: stack)) (inner' (f :: stack))) :
    Short (C.one lost inner stack c) (C.one C.due inner' stack c) := by
  unfold one
  cases hfate : C.fate stack c with
  | fails e => exact .refl _
  | stays d => exact .refl _
  | shut d e => exact short_lost
  | opens d f => exact short_around (h d f hfate)

theorem sparesName_of_tallies
    (h : ∀ d f, C.fate stack c = .opens d f → Short (inner (f :: stack)) (inner' (f :: stack)))
    (ht : Tallies (C.one lost inner stack c) (C.one C.due inner' stack c)) :
    C.SparesName (fun s => Tallies (inner s) (inner' s)) stack c := by
  unfold one at ht
  unfold SparesName
  cases hfate : C.fate stack c with
  | fails e => trivial
  | stays d => trivial
  | shut d e =>
    rw [hfate] at ht
    exact harmless_of_tallies ht
  | opens d f =>
    rw [hfate] at ht
    exact tallies_around (h d f hfate) ht

theorem one_of_sparesName (h : C.SparesName (fun s => inner s = inner' s) stack c) :
    C.one lost inner stack c = C.one C.due inner' stack c := by
  unfold SparesName at h
  unfold one
  cases hfate : C.fate stack c with
  | fails e => rfl
  | stays d => rfl
  | shut d e =>
    rw [hfate] at h
    exact (due_of_harmless h).symm
  | opens d f =>
    rw [hfate] at h
    dsimp only at h ⊢
    rw [h]

theorem short_names {l : List OsStr} (h : ∀ c ∈ l, ∀ d f, C.fate stack c = .opens d f →
      Short (inner (f :: stack)) (inner' (f :: stack))) :
    Short (l.flatMap (C.one lost inner stack)) (l.flatMap (C.one C.due inner' stack)) := by
  induction l with
  | nil => exact .refl _
  | cons c l ih =>
    obtain ⟨hc, hl⟩ := List.forall_mem_cons.1 h
    rw [List.flatMap_cons, List.flatMap_cons]
    exact (short_one hc).append (ih hl)

theorem sparesName_of_names {l : List OsStr} (h : ∀ c ∈ l, ∀ d f, C.fate stack c = .opens d f →
      Short (inner (f :: stack)) (inner' (f :: stack)))
    (ht : Tallies (l.flatMap (C.one lost inner stack)) (l.flatMap (C.one C.due inner' stack))) :
    ∀ c ∈ l, C.SparesName (fun s => Tallies (inner s) (inner' s)) stack c := by
  induction l with
  | nil => nofun
  | cons c l ih =>
    obtain ⟨hc, hl⟩ := List.forall_mem_cons.1 h
    rw [List.flatMap_cons, List.flatMap_cons] at ht
    obtain ⟨htc, htl⟩ := ht.split (short_one hc) (short_names hl)
    exact List.forall_mem_cons.2 ⟨sparesName_of_tallies hc htc, ih hl htl⟩

theorem names_of_sparesName {l : List OsStr}
    (h : ∀ c ∈ l, C.SparesName (fun s => inner s = inner' s) stack c) :
    l.flatMap (C.one lost inner stack) = l.flatMap (C.one C.due inner' stack) := by
  induction l with
  | nil => rfl
  | cons c l ih =>
    obtain ⟨hc, hl⟩ := List.forall_mem_cons.1 h
    rw [List.flatMap_cons, List.flatMap_cons, one_of_sparesName hc, ih hl]

variable {P : List Frame → Prop}

theorem SparesName.mono {Q : List Frame → Prop} (h : C.SparesName P stack c)
    (hpq : ∀ d f, C.fate stack c = .opens d f → P (f :: stack) → Q (f :: stack)) :
    C.SparesName Q stack c := by
  unfold SparesName at h ⊢
  cases hfate : C.fate stack c with
  | fails e => trivial
  | stays d => trivial
  | shut d e =>
    rw [hfate] at h
    exact h
  | opens d f =>
    rw [hfate] at h
    exact hpq d f hfate h

theorem spares_succ : C.Spares (n + 1) (f :: fs) ↔ C.opts.maxDepth < fs.length + 1 ∨
    ∀ c ∈ f.entries, C.SparesName (C.Spares n) (f :: fs) c := by
  rw [Spares]
  rfl

/-- **Nothing is made up.** Of the contents of a directory entries may be lost, and errors too
many. -/
theorem short_below (n : Nat) (stack : List Frame) :
    Short (C.below lost n stack) (C.below C.due n stack) := by
  induction n generalizing stack with
  | zero => exact .refl _
  | succ n ih =>
    cases stack with
    | nil => exact .refl _
    | cons f fs =>
      rw [below, below]
      split_ifs
      · exact .refl _
      · exact short_names fun c _ d f' _ => ih _

theorem spares_of_tallies (n : Nat) {stack : List Frame} (hfits : C.Fits n stack)
    (ht : Tallies (C.below lost n stack) (C.below C.due n stack)) : C.Spares n stack := by
  induction n generalizing stack with
  | zero => exact hfits
  | succ n ih =>
    cases stack with
    | nil => trivial
    | cons f fs =>
      rw [spares_succ]
      by_cases hmax : C.opts.maxDepth < fs.length + 1
      · exact .inl hmax
      · rw [below, below, if_neg hmax, if_neg hmax] at ht
        refine .inr fun c hc => ?_
        exact (sparesName_of_names (fun c _ d f' _ => short_below n _) ht c hc).mono
          fun d f' hfate ht' => ih (hfits.resolve_left hmax c hc d f' hfate) ht'

theorem below_of_spares (n : Nat) {stack : List Frame} (h : C.Spares n stack) :
    C.below lost n stack = C.below C.due n stack := by
  induction n generalizing stack with
  | zero => exact h.elim
  | succ n ih =>
    cases stack with
    | nil => rfl
    | cons f fs =>
      rw [below, below]
      by_cases hmax : C.opts.maxDepth < fs.length + 1
      · rw [if_pos hmax, if_pos hmax]
      · rw [if_neg hmax, if_neg hmax]
        exact names_of_sparesName fun c hc =>
          ((spares_succ.1 h).resolve_left hmax c hc).mono fun d f' _ hs => ih hs

/-! ## What is come back to too late -/

variable {m : Nat}

theorem short_ownAt (hdepth : d.depth = m + 1) (hmax : ¬C.opts.maxDepth < m + 1) :
    Short (C.ownAt m d) (C.own d) := by
  rw [← ownAt_depth, hdepth]
  unfold ownAt
  split_ifs
  all_goals first | exact .refl _ | exact ⟨Nat.zero_le _, Nat.zero_le _⟩ | omega

theorem tallies_ownAt (hdepth : d.depth = m + 1) (hmax : ¬C.opts.maxDepth < m + 1) :
    Tallies (C.ownAt m d) (C.own d) ↔ d.depth ≠ C.opts.minDepth := by
  rw [← ownAt_depth, hdepth]
  unfold ownAt
  split_ifs
  · exact iff_of_true ⟨rfl, rfl⟩ (by omega)
  · refine iff_of_false (fun h => ?_) (by omega)
    exact absurd h.oks_eq (by simp [oks, Except.isOk, Except.toBool])
  · omega
  · exact iff_of_true ⟨rfl, rfl⟩ (by omega)

theorem ownAt_of_ne (hdepth : d.depth = m + 1) (hmax : ¬C.opts.maxDepth < m + 1)
    (hne : d.depth ≠ C.opts.minDepth) : C.ownAt m d = C.own d := by
  rw [← ownAt_depth, hdepth]
  unfold ownAt
  split_ifs
  all_goals first | rfl | omega

variable {lagging : List Frame → List Item}

theorem perm_late (contents rest own : List Item) :
    ((contents ++ own) ++ rest).Perm (contents ++ (rest ++ own)) := by
  rw [List.append_assoc]
  exact List.Perm.append_left _ List.perm_append_comm

variable {f' : Frame}

theorem one_opens {d : DirEntry} (hfate : C.fate stack c = .opens d f') :
    C.one C.due inner' stack c = C.around d (inner' (f' :: stack)) := by
  unfold one
  rw [hfate]

theorem perm_opens {d : DirEntry} (hfate : C.fate stack c = .opens d f')
    (l : List OsStr) : ((c :: l).flatMap (C.one C.due inner' stack)).Perm
      (inner' (f' :: stack) ++ (l.flatMap (C.one C.due inner' stack) ++ C.own d)) := by
  rw [List.flatMap_cons, one_opens hfate]
  refine List.Perm.trans ?_ (perm_late _ _ _)
  exact List.Perm.append_right _ ((around_perm d _).trans List.perm_append_comm)

theorem perm_stays {d : DirEntry} (hfate : C.fate stack c = .stays d) (l : List OsStr) :
    ((c :: l).flatMap (C.one C.due inner' stack)).Perm
      (l.flatMap (C.one C.due inner' stack) ++ C.own d) := by
  rw [List.flatMap_cons]
  unfold one
  rw [hfate]
  exact List.perm_append_comm

theorem depth_pred (hm : stack.length = m + 1) (h : Fate.Yields d (C.fate stack c)) :
    d.depth = (d.depth - 1) + 1 ∧ d.depth = m + 1 := by
  have := depth_of_fate h
  omega

theorem short_late (hm : stack.length = m + 1) (hmax : ¬C.opts.maxDepth < m + 1)
    {l : List OsStr} (h : ∀ s, Short (inner s) (inner' s)) (hlag : ∀ s, Short (lagging s) (inner' s)) :
    Short (C.late inner lagging stack l) (l.flatMap (C.one C.due inner' stack)) := by
  induction l with
  | nil => exact .refl _
  | cons c l ih =>
    have hrest : Short (l.flatMap (C.one lost inner stack)) (l.flatMap (C.one C.due inner' stack)) :=
      short_names fun c _ d f _ => h _
    rw [late]
    cases hfate : C.fate stack c with
    | fails e =>
      rw [List.flatMap_cons, one, hfate]
      exact (Short.refl [_]).append ih
    | shut d e =>
      rw [List.flatMap_cons, one, hfate]
      exact (short_lost (d := d) (e := e)).append ih
    | stays d =>
      obtain ⟨hpred, hdepth⟩ := depth_pred hm (.inl hfate)
      dsimp only
      split_ifs
      · refine Short.trans ?_ (.of_perm (perm_stays hfate l).symm)
        exact hrest.append (short_ownAt hpred (by rwa [← hpred, hdepth]))
      · rw [List.flatMap_cons, one, hfate]
        exact (Short.refl _).append ih
    | opens d f' =>
      obtain ⟨hpred, hdepth⟩ := depth_pred hm (.inr ⟨f', hfate⟩)
      refine Short.trans ?_ (.of_perm (perm_opens hfate l).symm)
      exact (hlag _).append (hrest.append (short_ownAt hpred (by rwa [← hpred, hdepth])))

theorem short_lags (n : Nat) (stack : List Frame) :
    Short (C.lags n stack) (C.below C.due n stack) := by
  induction n generalizing stack with
  | zero => exact .refl _
  | succ n ih =>
    cases stack with
    | nil => exact .refl _
    | cons f fs =>
      rw [lags, below]
      split_ifs with hmax
      · exact .refl _
      · exact short_late rfl hmax (short_below n) ih

/-- Where what is answered tallies, nothing that is due has been refused, and nothing come back to
too late. -/
theorem spares_of_late (hm : stack.length = m + 1) (hmax : ¬C.opts.maxDepth < m + 1)
    {on : List Frame → List DirEntry} {l : List OsStr}
    (h : ∀ s, Short (inner s) (inner' s)) (hlag : ∀ s, Short (lagging s) (inner' s))
    (hP : ∀ c ∈ l, ∀ d f, C.fate stack c = .opens d f →
      (Tallies (inner (f :: stack)) (inner' (f :: stack)) → P (f :: stack)) ∧
      (Tallies (lagging (f :: stack)) (inner' (f :: stack)) → P (f :: stack) ∧
        ∀ d ∈ on (f :: stack), d.depth ≠ C.opts.minDepth))
    (ht : Tallies (C.late inner lagging stack l) (l.flatMap (C.one C.due inner' stack))) :
    (∀ c ∈ l, C.SparesName P stack c) ∧
      ∀ d ∈ C.lateIn on stack l, d.depth ≠ C.opts.minDepth := by
  induction l with
  | nil => exact ⟨nofun, nofun⟩
  | cons c l ih =>
    obtain ⟨hPc, hPl⟩ := List.forall_mem_cons.1 hP
    have hlate : Short (C.late inner lagging stack l) (l.flatMap (C.one C.due inner' stack)) :=
      short_late hm hmax h hlag
    have hrest : Short (l.flatMap (C.one lost inner stack)) (l.flatMap (C.one C.due inner' stack)) :=
      short_names fun c _ d f _ => h _
    have hspares : Tallies (l.flatMap (C.one lost inner stack))
        (l.flatMap (C.one C.due inner' stack)) → ∀ c ∈ l, C.SparesName P stack c := fun ht c hc =>
      (sparesName_of_names (fun c _ d f _ => h _) ht c hc).mono fun d f hfate =>
        (hPl c hc d f hfate).1
    rw [late] at ht
    cases hfate : C.fate stack c with
    | fails e =>
      rw [hfate, List.flatMap_cons, one, hfate] at ht
      obtain ⟨hl, hnone⟩ := ih hPl (ht.split (Short.refl [_]) hlate).2
      rw [lateIn, hfate]
      exact ⟨List.forall_mem_cons.2 ⟨by unfold SparesName; rw [hfate]; trivial, hl⟩, hnone⟩
    | shut d e =>
      rw [hfate, List.flatMap_cons, one, hfate] at ht
      obtain ⟨htd, htl⟩ := Tallies.split (show Tallies (lost d e ++ _) _ from ht) short_lost hlate
      obtain ⟨hl, hnone⟩ := ih hPl htl
      rw [lateIn, hfate]
      refine ⟨List.forall_mem_cons.2 ⟨?_, hl⟩, hnone⟩
      unfold SparesName
      rw [hfate]
      exact harmless_of_tallies htd
    | stays d =>
      obtain ⟨hpred, hdepth⟩ := depth_pred hm (.inl hfate)
      have hspare : C.SparesName P stack c := by
        unfold SparesName
        rw [hfate]
        trivial
      rw [lateIn, hfate]
      rw [hfate] at ht
      dsimp only at ht ⊢
      split_ifs at ht ⊢
      · have ht' := ht.trans (.of_perm (perm_stays hfate l))
        have hmax' : ¬C.opts.maxDepth < d.depth - 1 + 1 := by rwa [← hpred, hdepth]
        obtain ⟨htl, htd⟩ := ht'.split hrest (short_ownAt hpred hmax')
        refine ⟨List.forall_mem_cons.2 ⟨hspare, hspares htl⟩, fun d' hd' => ?_⟩
        rw [List.mem_singleton.1 hd']
        exact (tallies_ownAt hpred hmax').1 htd
      · rw [List.flatMap_cons, one, hfate] at ht
        obtain ⟨hl, hnone⟩ := ih hPl (ht.split (.refl _) hlate).2
        exact ⟨List.forall_mem_cons.2 ⟨hspare, hl⟩, hnone⟩
    | opens d f' =>
      obtain ⟨hpred, hdepth⟩ := depth_pred hm (.inr ⟨f', hfate⟩)
      have hmax' : ¬C.opts.maxDepth < d.depth - 1 + 1 := by rwa [← hpred, hdepth]
      rw [hfate] at ht
      have ht' := ht.trans (.of_perm (perm_opens hfate l))
      obtain ⟨htop, htr⟩ := ht'.split (hlag _) (hrest.append (short_ownAt hpred hmax'))
      obtain ⟨htl, htd⟩ := htr.split hrest (short_ownAt hpred hmax')
      obtain ⟨hp, hon⟩ := (hPc d f' hfate).2 htop
      rw [lateIn, hfate]
      refine ⟨List.forall_mem_cons.2 ⟨?_, hspares htl⟩, List.forall_mem_cons.2
        ⟨(tallies_ownAt hpred hmax').1 htd, hon⟩⟩
      unfold SparesName
      rw [hfate]
      exact hp

theorem spares_of_lags (n : Nat) {stack : List Frame} (hfits : C.Fits n stack)
    (ht : Tallies (C.lags n stack) (C.below C.due n stack)) :
    C.Spares n stack ∧ ∀ d ∈ C.lateOf n stack, d.depth ≠ C.opts.minDepth := by
  induction n generalizing stack with
  | zero => exact hfits.elim
  | succ n ih =>
    cases stack with
    | nil => exact ⟨trivial, nofun⟩
    | cons f fs =>
      rw [spares_succ, lateOf]
      by_cases hmax : C.opts.maxDepth < fs.length + 1
      · rw [if_pos hmax]
        exact ⟨.inl hmax, nofun⟩
      · rw [lags, below, if_neg hmax, if_neg hmax] at ht
        rw [if_neg hmax]
        have hspares : ∀ c ∈ _, ∀ d f', C.fate (f :: fs) c = .opens d f' → _ :=
          fun c hc d f' hfate =>
            have hfit := hfits.resolve_left hmax c hc d f' hfate
            And.intro (spares_of_tallies n hfit) (ih hfit)
        obtain ⟨hl, hnone⟩ := spares_of_late rfl hmax (short_below n) (short_lags n) hspares ht
        exact ⟨.inr hl, hnone⟩

/-- Where nothing that is due has been refused and nothing is come back to too late, what is
answered is what is due, in another order. -/
theorem perm_of_late (hm : stack.length = m + 1) (hmax : ¬C.opts.maxDepth < m + 1)
    {on : List Frame → List DirEntry} {l : List OsStr}
    (hP : ∀ c ∈ l, ∀ d f, C.fate stack c = .opens d f → P (f :: stack) →
      inner (f :: stack) = inner' (f :: stack) ∧
      ((∀ d ∈ on (f :: stack), d.depth ≠ C.opts.minDepth) →
        (lagging (f :: stack)).Perm (inner' (f :: stack))))
    (hl : ∀ c ∈ l, C.SparesName P stack c)
    (hnone : ∀ d ∈ C.lateIn on stack l, d.depth ≠ C.opts.minDepth) :
    (C.late inner lagging stack l).Perm (l.flatMap (C.one C.due inner' stack)) := by
  induction l with
  | nil => exact List.Perm.refl _
  | cons c l ih =>
    obtain ⟨hPc, hPl⟩ := List.forall_mem_cons.1 hP
    obtain ⟨hc, hl⟩ := List.forall_mem_cons.1 hl
    have hrest : l.flatMap (C.one lost inner stack) = l.flatMap (C.one C.due inner' stack) :=
      names_of_sparesName fun c hc => (hl c hc).mono fun d f hfate hp => (hPl c hc d f hfate hp).1
    rw [late]
    rw [lateIn] at hnone
    cases hfate : C.fate stack c with
    | fails e =>
      rw [hfate] at hnone
      rw [List.flatMap_cons, one, hfate]
      exact List.Perm.cons _ (ih hPl hl hnone)
    | shut d e =>
      rw [hfate] at hnone
      unfold SparesName at hc
      rw [hfate] at hc
      rw [List.flatMap_cons, one, hfate]
      dsimp only
      rw [due_of_harmless hc]
      exact List.Perm.cons _ (ih hPl hl hnone)
    | stays d =>
      obtain ⟨hpred, hdepth⟩ := depth_pred hm (.inl hfate)
      rw [hfate] at hnone
      dsimp only at hnone ⊢
      split_ifs at hnone ⊢
      · have hne := hnone d (List.mem_singleton.2 rfl)
        rw [ownAt_of_ne hpred (by rwa [← hpred, hdepth]) hne, hrest]
        exact (perm_stays hfate l).symm
      · rw [List.flatMap_cons, one, hfate]
        exact List.Perm.append_left _ (ih hPl hl hnone)
    | opens d f' =>
      obtain ⟨hpred, hdepth⟩ := depth_pred hm (.inr ⟨f', hfate⟩)
      rw [hfate] at hnone
      obtain ⟨hne, hon⟩ := List.forall_mem_cons.1 hnone
      unfold SparesName at hc
      rw [hfate] at hc
      dsimp only
      rw [ownAt_of_ne hpred (by rwa [← hpred, hdepth]) hne, hrest]
      exact ((((hPc d f' hfate hc).2 hon).append_right _)).trans (perm_opens hfate l).symm

theorem perm_of_lags (n : Nat) {stack : List Frame} (hs : C.Spares n stack)
    (hnone : ∀ d ∈ C.lateOf n stack, d.depth ≠ C.opts.minDepth) :
    (C.lags n stack).Perm (C.below C.due n stack) := by
  induction n generalizing stack with
  | zero => exact hs.elim
  | succ n ih =>
    cases stack with
    | nil => exact List.Perm.refl _
    | cons f fs =>
      rw [lags, below]
      rw [lateOf] at hnone
      by_cases hmax : C.opts.maxDepth < fs.length + 1
      · rw [if_pos hmax, if_pos hmax]
      · rw [if_neg hmax] at hnone
        rw [if_neg hmax, if_neg hmax]
        have hopens : ∀ c ∈ f.entries, ∀ d f', C.fate (f :: fs) c = .opens d f' →
            C.Spares n (f' :: f :: fs) → _ ∧ ((∀ d ∈ C.lateOf n (f' :: f :: fs), _) → _) :=
          fun c _ d f' _ hp => ⟨below_of_spares n hp, fun hon => ih hp hon⟩
        exact perm_of_late rfl hmax hopens
          ((spares_succ.1 hs).resolve_left hmax) hnone

/-! ## What the walk comes to -/

theorem spares_of_refused (h : ∀ d, C.Refused d → C.Harmless d) (n : Nat) {stack : List Frame}
    (hv : C.Visits stack) (hfits : C.Fits n stack) : C.Spares n stack := by
  induction n generalizing stack with
  | zero => exact hfits
  | succ n ih =>
    cases stack with
    | nil => trivial
    | cons f fs =>
      rw [spares_succ]
      by_cases hmax : C.opts.maxDepth < fs.length + 1
      · exact .inl hmax
      · refine .inr fun c hc => ?_
        unfold SparesName
        cases hfate : C.fate (f :: fs) c with
        | fails e => trivial
        | stays d => trivial
        | shut d e => exact h d (.child hv hmax hc hfate)
        | opens d f' => exact ih (.child hv hmax hc hfate) (hfits.resolve_left hmax c hc d f' hfate)

variable {d₀ : DirEntry}

theorem spares_of_visits {d₁ : DirEntry} (hd : C.answers.rootEntry C.root C.display = .ok d₀)
    (hf : C.rootFate d₀ = .opens d₁ f) (hs : C.Spares n [f]) (hv : C.Visits stack) :
    ∃ m, C.Spares m stack := by
  induction hv with
  | root hd' hf' =>
    obtain rfl := Except.ok.inj (hd'.symm.trans hd)
    obtain ⟨-, rfl⟩ := Fate.opens.inj (hf'.symm.trans hf)
    exact ⟨n, hs⟩
  | child _ hmax hc hfate ih =>
    obtain ⟨m, hm⟩ := ih
    cases m with
    | zero => exact hm.elim
    | succ m =>
      have hname := (spares_succ.1 hm).resolve_left hmax _ hc
      unfold SparesName at hname
      rw [hfate] at hname
      exact ⟨m, hname⟩

theorem refused_of_spares {d₁ : DirEntry} (hd : C.answers.rootEntry C.root C.display = .ok d₀)
    (hf : C.rootFate d₀ = .opens d₁ f) (hs : C.Spares n [f]) (hr : C.Refused d) :
    C.Harmless d := by
  cases hr with
  | root hd' hf' =>
    obtain rfl := Except.ok.inj (hd'.symm.trans hd)
    rw [hf] at hf'
    cases hf'
  | child hv hmax hc hfate =>
    obtain ⟨m, hm⟩ := spares_of_visits hd hf hs hv
    cases m with
    | zero => exact hm.elim
    | succ m =>
      have hname := (spares_succ.1 hm).resolve_left hmax _ hc
      unfold SparesName at hname
      rw [hfate] at hname
      exact hname

theorem not_visits (hd : C.answers.rootEntry C.root C.display = .ok d₀)
    (hf : ∀ d₁ f, C.rootFate d₀ ≠ .opens d₁ f) : ¬C.Visits stack := by
  intro hv
  induction hv with
  | root hd' hf' =>
    obtain rfl := Except.ok.inj (hd'.symm.trans hd)
    exact hf _ _ hf'
  | child _ _ _ _ ih => exact ih

theorem not_visits_of_error {e : WalkError}
    (hd : C.answers.rootEntry C.root C.display = .error e) : ¬C.Visits stack := by
  intro hv
  induction hv with
  | root hd' _ => cases hd'.symm.trans hd
  | child _ _ _ _ ih => exact ih

/-- **What is answered and what is due.** They are the same items just if the error alone is due
for whatever is refused, and nothing is come back to too late. -/
theorem answered_perm_iff (hfits : ∀ d d' f,
      C.answers.rootEntry C.root C.display = .ok d → C.rootFate d = .opens d' f → C.Fits n [f]) :
    (C.answered n).Perm (C.dues n) ↔ (∀ d, C.Refused d → C.Harmless d) ∧
      ∀ d, C.Late n d → d.depth ≠ C.opts.minDepth := by
  have hquiet : (∀ stack, ¬C.Visits stack) → (∀ d d' f, C.answers.rootEntry C.root C.display = .ok d →
      C.rootFate d ≠ .opens d' f) → (∀ d d' e, C.answers.rootEntry C.root C.display = .ok d →
      C.rootFate d ≠ .shut d' e) → (∀ d, C.Refused d → C.Harmless d) ∧
        ∀ d, C.Late n d → d.depth ≠ C.opts.minDepth := by
    intro hv hopens hshut
    refine ⟨fun d hr => ?_, fun d hl => ?_⟩
    · cases hr with
      | root hd' hf' => exact (hshut _ _ _ hd' hf').elim
      | child hs _ _ _ => exact (hv _ hs).elim
    · obtain ⟨d₀, d₁, f, hd, hf, -⟩ := hl
      exact (hopens _ _ _ hd hf).elim
  cases hroot : C.answers.rootEntry C.root C.display with
  | error e =>
    have hequal : C.answered n = C.dues n := by
      unfold answered dues
      rw [hroot]
    rw [hequal]
    refine iff_of_true (List.Perm.refl _) (hquiet (fun _ => not_visits_of_error hroot) ?_ ?_)
    · intro d d' f hd
      cases hd.symm.trans hroot
    · intro d d' e hd
      cases hd.symm.trans hroot
  | ok d₀ =>
    have honly : ∀ {d x}, C.answers.rootEntry C.root C.display = .ok d → C.rootFate d₀ = x →
        C.rootFate d = x := fun hd hx => by
      obtain rfl := Except.ok.inj (hroot.symm.trans hd)
      exact hx
    unfold answered dues
    rw [hroot]
    dsimp only
    cases hfate : C.rootFate d₀ with
    | fails e =>
      refine iff_of_true (List.Perm.refl _)
        (hquiet (fun _ => not_visits hroot fun _ _ h => ?_) ?_ ?_)
      · rw [hfate] at h
        cases h
      · intro d d' f hd hx
        cases (honly hd hfate).symm.trans hx
      · intro d d' e hd hx
        cases (honly hd hfate).symm.trans hx
    | stays d₁ =>
      refine iff_of_true (List.Perm.refl _)
        (hquiet (fun _ => not_visits hroot fun _ _ h => ?_) ?_ ?_)
      · rw [hfate] at h
        cases h
      · intro d d' f hd hx
        cases (honly hd hfate).symm.trans hx
      · intro d d' e hd hx
        cases (honly hd hfate).symm.trans hx
    | shut d₁ e =>
      have hnot : ∀ stack, ¬C.Visits stack := fun _ => not_visits hroot fun _ _ h => by
        rw [hfate] at h
        cases h
      dsimp only
      constructor
      · intro hperm
        have hharm := harmless_of_tallies (.of_perm hperm)
        refine ⟨fun d hr => ?_, fun d hl => ?_⟩
        · cases hr with
          | root hd' hf' =>
            obtain ⟨rfl, -⟩ := Fate.shut.inj ((honly hd' hfate).symm.trans hf')
            exact hharm
          | child hs _ _ _ => exact (hnot _ hs).elim
        · obtain ⟨d₀', d₁', f, hd, hf, -⟩ := hl
          cases (honly hd hfate).symm.trans hf
      · rintro ⟨hall, -⟩
        rw [due_of_harmless (hall d₁ (.root hroot hfate))]
    | opens d₁ f =>
      have hfit := hfits d₀ d₁ f hroot hfate
      have hspares : (∀ d, C.Refused d → C.Harmless d) ↔ C.Spares n [f] :=
        ⟨fun h => spares_of_refused h n (.root hroot hfate) hfit,
          fun h d hr => refused_of_spares hroot hfate h hr⟩
      have hlate : (∀ d, C.Late n d → d.depth ≠ C.opts.minDepth) ↔
          (C.Unheld d₁ → ∀ d ∈ C.lateOf n [f], d.depth ≠ C.opts.minDepth) := by
        constructor
        · exact fun h hun d hd => h d ⟨d₀, d₁, f, hroot, hfate, hun, hd⟩
        · rintro h d ⟨d₀', d₁', f', hd, hf, hun, hmem⟩
          obtain ⟨rfl, rfl⟩ := Fate.opens.inj ((honly hd hfate).symm.trans hf)
          exact h hun d hmem
      rw [hspares, hlate]
      dsimp only
      by_cases hun : C.Unheld d₁
      · rw [if_pos hun]
        constructor
        · intro hperm
          have ht := Tallies.of_perm (hperm.trans (around_perm d₁ _))
          obtain ⟨hs, hnone⟩ := spares_of_lags n hfit (ht.split (.refl _) (short_lags n _)).2
          exact ⟨hs, fun _ => hnone⟩
        · rintro ⟨hs, hnone⟩
          exact ((perm_of_lags n hs (hnone hun)).append_left _).trans (around_perm d₁ _).symm
      · rw [if_neg hun]
        constructor
        · intro hperm
          have ht := tallies_around (short_below n _) (Tallies.of_perm hperm)
          exact ⟨spares_of_tallies n hfit ht, fun h => (hun h).elim⟩
        · rintro ⟨hs, -⟩
          rw [below_of_spares n hs]

/-! ## What is due is each entry, once -/

variable (C) in
/-- The entries of a walk: the root's, and those in the directories that are read. -/
inductive IsListed : DirEntry → Prop
  | root {d d' : DirEntry} (hd : C.answers.rootEntry C.root C.display = .ok d)
      (hf : Fate.Yields d' (C.rootFate d) ∨ ∃ e, C.rootFate d = .shut d' e) : IsListed d'
  | child {f : Frame} {fs : List Frame} {c : OsStr} {d : DirEntry} (hs : C.Visits (f :: fs))
      (hmax : ¬C.opts.maxDepth < fs.length + 1) (hc : c ∈ f.entries)
      (hf : Fate.Yields d (C.fate (f :: fs) c) ∨ ∃ e, C.fate (f :: fs) c = .shut d e) : IsListed d

variable {d' : DirEntry}

theorem mem_own : .ok d ∈ C.own d' ↔ C.skips d = false ∧ d = d' := by
  unfold own
  split_ifs with hs
  · refine iff_of_false nofun ?_
    rintro ⟨h, rfl⟩
    rw [hs] at h
    cases h
  · rw [List.mem_singleton]
    constructor
    · intro h
      obtain rfl := Except.ok.inj h
      exact ⟨by simpa using hs, rfl⟩
    · rintro ⟨-, rfl⟩
      rfl

variable {x : Item}

theorem mem_around : x ∈ C.around d' contents ↔ x ∈ C.own d' ∨ x ∈ contents := by
  rw [(around_perm d' contents).mem_iff, List.mem_append]

theorem mem_due : .ok d ∈ C.due d' e ↔ C.skips d = false ∧ d = d' := by
  unfold due
  rw [mem_around, mem_own]
  split_ifs <;> simp

theorem mem_one : .ok d ∈ C.one C.due inner stack c ↔
    (C.skips d = false ∧ (Fate.Yields d (C.fate stack c) ∨ ∃ e, C.fate stack c = .shut d e)) ∨
      ∃ d' f, C.fate stack c = .opens d' f ∧ .ok d ∈ inner (f :: stack) := by
  unfold one
  cases hfate : C.fate stack c with
  | fails e =>
    refine iff_of_false (fun h => nomatch List.mem_singleton.1 h) ?_
    rintro (⟨-, h | ⟨e, h⟩⟩ | ⟨d', f, h, -⟩)
    · exact not_yields_fails h
    · cases h
    · cases h
  | stays d' =>
    dsimp only
    rw [mem_own]
    constructor
    · rintro ⟨hs, rfl⟩
      exact .inl ⟨hs, .inl (.inl rfl)⟩
    · rintro (⟨hs, h | ⟨e, h⟩⟩ | ⟨d', f, h, -⟩)
      · exact ⟨hs, eq_of_stays h⟩
      · cases h
      · cases h
  | shut d' e =>
    dsimp only
    rw [mem_due]
    constructor
    · rintro ⟨hs, rfl⟩
      exact .inl ⟨hs, .inr ⟨e, rfl⟩⟩
    · rintro (⟨hs, h | ⟨e, h⟩⟩ | ⟨d', f, h, -⟩)
      · exact (not_yields_shut h).elim
      · exact ⟨hs, (Fate.shut.inj h).1.symm⟩
      · cases h
  | opens d' f =>
    dsimp only
    rw [mem_around, mem_own]
    constructor
    · rintro (⟨hs, rfl⟩ | h)
      · exact .inl ⟨hs, .inl (.inr ⟨f, rfl⟩)⟩
      · exact .inr ⟨d', f, rfl, h⟩
    · rintro (⟨hs, (h | ⟨f', h⟩) | ⟨e, h⟩⟩ | ⟨d'', f', h, hin⟩)
      · cases h
      · exact .inl ⟨hs, (Fate.opens.inj h).1.symm⟩
      · cases h
      · obtain ⟨-, rfl⟩ := Fate.opens.inj h
        exact .inr hin

theorem isListed_of_below (n : Nat) {stack : List Frame} (hv : C.Visits stack)
    (hd : .ok d ∈ C.below C.due n stack) : C.skips d = false ∧ C.IsListed d := by
  induction n generalizing stack with
  | zero => cases hd
  | succ n ih =>
    cases stack with
    | nil => cases hd
    | cons f fs =>
      rw [below] at hd
      split_ifs at hd with hmax
      · cases hd
      · obtain ⟨c, hc, hd⟩ := List.mem_flatMap.1 hd
        rcases mem_one.1 hd with ⟨hskip, hf⟩ | ⟨d', f', hf, hd⟩
        · exact ⟨hskip, .child hv hmax hc hf⟩
        · exact ih (.child hv hmax hc hf) hd

theorem dues_of_visits (hfits : ∀ d d' f,
      C.answers.rootEntry C.root C.display = .ok d → C.rootFate d = .opens d' f → C.Fits n [f])
    (hv : C.Visits stack) :
    ∃ m, C.Fits m stack ∧ ∀ x ∈ C.below C.due m stack, x ∈ C.dues n := by
  induction hv with
  | root hd hf =>
    refine ⟨n, hfits _ _ _ hd hf, fun x hx => ?_⟩
    unfold dues
    rw [hd]
    dsimp only
    rw [hf]
    exact mem_around.2 (.inr hx)
  | child _ hmax hc hf ih =>
    obtain ⟨m, hfit, hm⟩ := ih
    cases m with
    | zero => exact hfit.elim
    | succ m =>
      refine ⟨m, hfit.resolve_left hmax _ hc _ _ hf, fun x hx => hm x ?_⟩
      rw [below, if_neg hmax]
      refine List.mem_flatMap.2 ⟨_, hc, ?_⟩
      rw [one_opens hf]
      exact mem_around.2 (.inr hx)

/-- **What is due** are the entries whose depth is asked for. -/
theorem mem_dues (hfits : ∀ d d' f,
      C.answers.rootEntry C.root C.display = .ok d → C.rootFate d = .opens d' f → C.Fits n [f]) :
    .ok d ∈ C.dues n ↔ C.skips d = false ∧ C.IsListed d := by
  constructor
  · intro hd
    unfold dues at hd
    cases hroot : C.answers.rootEntry C.root C.display with
    | error e =>
      rw [hroot] at hd
      cases List.mem_singleton.1 hd
    | ok d₀ =>
      rw [hroot] at hd
      dsimp only at hd
      cases hfate : C.rootFate d₀ with
      | fails e =>
        rw [hfate] at hd
        cases List.mem_singleton.1 hd
      | stays d₁ =>
        rw [hfate] at hd
        obtain ⟨hskip, rfl⟩ := mem_own.1 hd
        exact ⟨hskip, .root hroot (.inl (.inl hfate))⟩
      | shut d₁ e =>
        rw [hfate] at hd
        obtain ⟨hskip, rfl⟩ := mem_due.1 hd
        exact ⟨hskip, .root hroot (.inr ⟨e, hfate⟩)⟩
      | opens d₁ f =>
        rw [hfate] at hd
        rcases mem_around.1 hd with hd | hd
        · obtain ⟨hskip, rfl⟩ := mem_own.1 hd
          exact ⟨hskip, .root hroot (.inl (.inr ⟨f, hfate⟩))⟩
        · exact isListed_of_below n (.root hroot hfate) hd
  · rintro ⟨hskip, hl⟩
    cases hl with
    | root hd hf =>
      unfold dues
      rw [hd]
      dsimp only
      rcases hf with (hf | ⟨f, hf⟩) | ⟨e, hf⟩
      · rw [hf]
        exact mem_own.2 ⟨hskip, rfl⟩
      · rw [hf]
        exact mem_around.2 (.inl (mem_own.2 ⟨hskip, rfl⟩))
      · rw [hf]
        exact mem_due.2 ⟨hskip, rfl⟩
    | child hv hmax hc hf =>
      obtain ⟨m, hfit, hm⟩ := dues_of_visits hfits hv
      cases m with
      | zero => exact hfit.elim
      | succ m =>
        refine hm _ ?_
        rw [below, if_neg hmax]
        exact List.mem_flatMap.2 ⟨_, hc, mem_one.2 (.inl ⟨hskip, hf⟩)⟩

def shown : Item → Option PathBuf
  | .ok d => some d.display
  | .error _ => none

def Apart (x y : Item) : Prop := ∀ p, shown x = some p → ∀ q, shown y = some q → p ≠ q

theorem display_of_descends (h : Fate.Yields d (C.descends stack d') ∨
    ∃ e, C.descends stack d' = .shut d e) : d = d' := by
  rcases h with h | ⟨e, h⟩
  · exact eq_of_descends h
  · unfold descends at h
    cases hent : C.enters stack d' <;> rw [hent] at h <;> cases h
    rfl

theorem display_of_stays (h : Fate.Yields d (.stays d') ∨ ∃ e, Fate.stays d' = .shut d e) :
    d = d' := by
  rcases h with h | ⟨e, h⟩
  · exact eq_of_stays h
  · cases h

theorem display_of_fateOf (h : Fate.Yields d (C.fateOf stack d') ∨
    ∃ e, C.fateOf stack d' = .shut d e) : d.display = d'.display := by
  unfold fateOf at h
  split at h
  · split at h
    · rcases h with h | ⟨e, h⟩
      · exact (not_yields_fails h).elim
      · cases h
    split at h
    · rcases h with h | ⟨e, h⟩
      · exact (not_yields_shut h).elim
      · rw [← (Fate.shut.inj h).1]
        rfl
    split at h
    · rw [display_of_descends h]
      rfl
    · rw [display_of_stays h]
      rfl
  split at h
  · rw [display_of_descends h]
  · rw [display_of_stays h]

theorem display_of_fate (h : Fate.Yields d (C.fate (f :: fs) c) ∨
    ∃ e, C.fate (f :: fs) c = .shut d e) : d.display = f.display ++ [c] := by
  unfold fate at h
  dsimp only at h
  cases hchild : C.answers.childOf f (f :: fs).length c with
  | error e =>
    rw [hchild] at h
    rcases h with h | ⟨e, h⟩
    · exact (not_yields_fails h).elim
    · cases h
  | ok d₀ =>
    rw [hchild] at h
    obtain ⟨path, m, -, -, rfl⟩ := childOf_eq_ok hchild
    exact display_of_fateOf h

theorem frame_of_opens (B : Bounded C.answers) (h : C.fate (f :: fs) c = .opens d f') :
    f'.display = f.display ++ [c] ∧ f'.entries.Nodup := by
  rw [← display_of_fate (.inl (.inr ⟨f', h⟩))]
  unfold fate at h
  dsimp only at h
  cases hchild : C.answers.childOf f (f :: fs).length c with
  | error e => rw [hchild] at h; cases h
  | ok d₀ =>
    rw [hchild] at h
    obtain ⟨-, dir, names, -, -, -, hnames, rfl⟩ := descends_opens (fateOf_opens h).2.1
    exact ⟨rfl, (Site.perm_order _ _ _).nodup_iff.2 (B.nodup hnames)⟩

theorem shown_one (hinner : ∀ d f', C.fate (f :: fs) c = .opens d f' → ∀ x ∈ inner (f' :: f :: fs),
      ∀ p, shown x = some p → ∃ q, p = f'.display ++ q) (B : Bounded C.answers)
    (hx : x ∈ C.one C.due inner (f :: fs) c) {p : PathBuf} (hp : shown x = some p) :
    ∃ q, p = f.display ++ c :: q := by
  cases x with
  | error e => cases hp
  | ok d =>
    obtain rfl := Option.some.inj hp
    rcases mem_one.1 hx with ⟨-, hf⟩ | ⟨d', f', hf, hd⟩
    · exact ⟨[], display_of_fate hf⟩
    · obtain ⟨q, hq⟩ := hinner d' f' hf _ hd _ rfl
      refine ⟨q, ?_⟩
      rw [hq, (frame_of_opens B hf).1, List.append_assoc]
      rfl

theorem shown_below (B : Bounded C.answers) (n : Nat)
    (hx : x ∈ C.below C.due n (f :: fs)) {p : PathBuf} (hp : shown x = some p) :
    ∃ c q, p = f.display ++ c :: q := by
  induction n generalizing f fs p x with
  | zero => cases hx
  | succ n ih =>
    rw [below] at hx
    split_ifs at hx with hmax
    · cases hx
    · obtain ⟨c, -, hx⟩ := List.mem_flatMap.1 hx
      obtain ⟨q, hq⟩ := shown_one (fun d f' _ y hy p' hp' => by
        obtain ⟨c', q, hq⟩ := ih hy hp'
        exact ⟨c' :: q, hq⟩) B hx hp
      exact ⟨c, q, hq⟩

theorem apart_around (h : contents.Pairwise Apart)
    (hown : ∀ x ∈ contents, shown x ≠ some d.display) : (C.around d contents).Pairwise Apart := by
  have hone : (C.own d).Pairwise Apart := by
    unfold own
    split_ifs
    · exact List.Pairwise.nil
    · exact List.pairwise_singleton _ _
  have hshown : ∀ x ∈ C.own d, shown x = some d.display := by
    unfold own
    split_ifs
    · exact nofun
    · intro x hx
      rw [List.mem_singleton.1 hx]
      rfl
  unfold around
  split_ifs
  · refine List.pairwise_append.2 ⟨h, hone, fun x hx y hy p hp q hq hpq => hown x hx ?_⟩
    rw [hp, hpq, ← hq, hshown y hy]
  · refine List.pairwise_append.2 ⟨hone, h, fun x hx y hy p hp q hq hpq => hown y hy ?_⟩
    rw [hq, ← hpq, ← hp, hshown x hx]

theorem apart_due : (C.due d e).Pairwise Apart := by
  refine apart_around ?_ fun x hx => ?_
  · split_ifs
    · exact List.Pairwise.nil
    · exact List.pairwise_singleton _ _
  · split_ifs at hx
    · cases hx
    · rw [List.mem_singleton.1 hx]
      exact nofun

theorem apart_contents (B : Bounded C.answers) (n : Nat) (hshow : f.display = d.display)
    (h : (C.below C.due n (f :: fs)).Pairwise Apart) :
    (C.around d (C.below C.due n (f :: fs))).Pairwise Apart := by
  refine apart_around h fun x hx hs => ?_
  obtain ⟨c, q, hq⟩ := shown_below B n hx hs
  rw [← hshow] at hq
  have := congrArg List.length hq
  rw [List.length_append, List.length_cons] at this
  omega

theorem apart_below (B : Bounded C.answers) (n : Nat) (hnodup : f.entries.Nodup) :
    (C.below C.due n (f :: fs)).Pairwise Apart := by
  induction n generalizing f fs with
  | zero => exact List.Pairwise.nil
  | succ n ih =>
    rw [below]
    split_ifs
    · exact List.Pairwise.nil
    · refine List.pairwise_flatMap.2 ⟨fun c hc => ?_, hnodup.imp fun {c c'} hne x hx y hy p hp q hq => ?_⟩
      · unfold one
        cases hfate : C.fate (f :: fs) c with
        | fails e => exact List.pairwise_singleton _ _
        | stays d =>
          dsimp only
          unfold own
          split_ifs
          · exact List.Pairwise.nil
          · exact List.pairwise_singleton _ _
        | shut d e => exact apart_due
        | opens d f' =>
          obtain ⟨hshow, hnodup'⟩ := frame_of_opens B hfate
          refine apart_contents B n ?_ (ih hnodup')
          rw [hshow, display_of_fate (.inl (.inr ⟨f', hfate⟩))]
      · have hin : ∀ d f' c, C.fate (f :: fs) c = .opens d f' →
            ∀ x ∈ C.below C.due n (f' :: f :: fs), ∀ p, shown x = some p →
              ∃ q, p = f'.display ++ q := fun _ f' _ _ x hx p hp => by
          obtain ⟨c', q, hq⟩ := shown_below B n hx hp
          exact ⟨c' :: q, hq⟩
        obtain ⟨r, rfl⟩ := shown_one (fun d f' h => hin d f' c h) B hx hp
        obtain ⟨r', rfl⟩ := shown_one (fun d f' h => hin d f' c' h) B hy hq
        exact fun h => hne (List.cons.inj (List.append_cancel_left h)).1

/-- **Each once.** No two entries that are due are shown under one path. -/
theorem nodup_dues (B : Bounded C.answers) (n : Nat) : ((C.dues n).filterMap shown).Nodup := by
  refine List.pairwise_filterMap.2 ?_
  change (C.dues n).Pairwise Apart
  unfold dues
  cases hroot : C.answers.rootEntry C.root C.display with
  | error e => exact List.pairwise_singleton _ _
  | ok d =>
    dsimp only
    cases hfate : C.rootFate d with
    | fails e => exact List.pairwise_singleton _ _
    | stays d' =>
      dsimp only
      unfold own
      split_ifs
      · exact List.Pairwise.nil
      · exact List.pairwise_singleton _ _
    | shut d' e => exact apart_due
    | opens d' f =>
      obtain ⟨-, dir, names, -, -, -, hnames, rfl⟩ := descends_opens (rootFate_opens hroot hfate).1
      exact apart_contents B n rfl
        (apart_below B n ((Site.perm_order _ _ _).nodup_iff.2 (B.nodup hnames)))

end Course

/-! ## When all that is due is answered -/

def closing (h : Host) (v : Vfs) (K : Closed) (root : VirtualPath) (display : PathBuf)
    (o : WalkOptions) : Course :=
  closedCourse (.ofHost h v) K root display o

def closingFrames (h : Host) (v : Vfs) (K : Closed) : Nat := ((bounded h v).closing K).frames + 1

def WalksAll (C : Course) (v : Vfs) (due : List Item) : Prop := ∃ items N, (∀ fuel ≥ N, ∀ k ≥ N,
  C.answers.drive fuel k (IntoIter.rooted v C.root C.display C.opts) = some items) ∧ items.Perm due

/-- What a walk over a host with directories closed is to answer, and when it does. -/
structure YieldsAll (C : Course) (v : Vfs) (n : Nat) : Prop where
  /-- An entry is due for each name in a directory that can be read whose depth is asked for, -/
  listed : ∀ d, .ok d ∈ C.dues n ↔ C.skips d = false ∧ C.IsListed d
  /-- and once. -/
  once : ((C.dues n).filterMap Course.shown).Nodup
  /-- All that is due is answered just if the error alone is due for whatever cannot be read, and no
  directory that is come back to too late is where the walk starts to answer. -/
  iff : WalksAll C v (C.dues n) ↔ (∀ d, C.Refused d → C.Harmless d) ∧
    ∀ d, C.Late n d → d.depth ≠ C.opts.minDepth

theorem fits_closing {h : Host} {v : Vfs} {K : Closed} {root : VirtualPath} {display : PathBuf}
    {o : WalkOptions} (d d' : DirEntry) (f : Frame)
    (hd : (closing h v K root display o).answers.rootEntry root display = .ok d)
    (hfate : (closing h v K root display o).rootFate d = .opens d' f) :
    (closing h v K root display o).Fits (closingFrames h v K) [f] :=
  Course.fits_of_tame (Course.tame_root (B := (bounded h v).closing K) hd hfate)
    (Nat.lt_succ_of_lt (Nat.lt_succ_self _))

theorem walksAll_iff (h : Host) (v : Vfs) (K : Closed) (root : VirtualPath) (display : PathBuf)
    (o : WalkOptions) :
    WalksAll (closing h v K root display o) v
        ((closing h v K root display o).dues (closingFrames h v K)) ↔
      (∀ d, (closing h v K root display o).Refused d → (closing h v K root display o).Harmless d) ∧
        ∀ d, (closing h v K root display o).Late (closingFrames h v K) d → d.depth ≠ o.minDepth := by
  refine Iff.trans ?_ (Course.answered_perm_iff fits_closing)
  obtain ⟨N, hN⟩ := Course.drive_answered v
    (fun d d' f (hd : (closing h v K root display o).answers.rootEntry root display = .ok d) hf =>
      fits_closing d d' f hd hf)
  constructor
  · rintro ⟨items, N', hitems, hperm⟩
    have heq := (hitems (max N N') (le_max_right _ _) (max N N') (le_max_right _ _)).symm.trans
      (hN (max N N') (le_max_left _ _) (max N N') (le_max_left _ _))
    rwa [Option.some.inj heq] at hperm
  · exact fun hperm => ⟨_, N, hN, hperm⟩

/-- **Directories that cannot be read.** -/
theorem closing_yieldsAll (h : Host) (v : Vfs) (K : Closed) (root : VirtualPath) (display : PathBuf)
    (o : WalkOptions) : YieldsAll (closing h v K root display o) v (closingFrames h v K) :=
  ⟨fun _ => Course.mem_dues fits_closing, Course.nodup_dues ((bounded h v).closing K) _,
    walksAll_iff h v K root display o⟩

end Seahaven.Vfs

namespace Seahaven.Vfs

open Host OsStr

section Fixture

attribute [local instance] composed

def dirHost : Host := .ofTrees [.ofEntries [([os "d"], .dir)]]

def unreadable : Closed where
  opening _ := none
  reading id := if id.file = 0 then none else some (.os .acces)
  roots _ := rfl

/-- The walk of `/work`. -/
def shutWalk (o : WalkOptions) : Course :=
  closing dirHost ringVfs unreadable ⟨[os "work"], work_valid⟩ [] o

/-- The entry of `/work/d` is not among what the walk answers. -/
theorem not_yieldsAll : ¬WalksAll (shutWalk .default) ringVfs
    ((shutWalk .default).dues (closingFrames dirHost ringVfs unreadable)) := by
  intro hwalks
  obtain ⟨hall, -⟩ := (walksAll_iff _ _ _ _ _ _).1 hwalks
  obtain ⟨d₀, d₁, f, d, e, hd, hf, hc, hshut, hskip⟩ : ∃ d₀ d₁ f d e,
      (shutWalk .default).answers.rootEntry (shutWalk .default).root [] = .ok d₀ ∧
        (shutWalk .default).rootFate d₀ = .opens d₁ f ∧ os "d" ∈ f.entries ∧
        (shutWalk .default).fate [f] (os "d") = .shut d e ∧ (shutWalk .default).skips d = false :=
    ⟨_, _, _, _, _, rfl, rfl, List.mem_singleton_self _, rfl, rfl⟩
  have hskips := (hall d (.child (.root hd hf) (by decide) hc hshut)).1
  exact absurd (hskip.symm.trans hskips) Bool.false_ne_true

/-- It is an entry and an error that are due. One is answered, and at the greatest depth, where
none is due, also. -/
example : ((shutWalk .default).answers.drive 9 9 (IntoIter.rooted ringVfs (shutWalk .default).root []
      .default)).map (List.map fun item => item.map DirEntry.display) =
    some [.ok [], .error (.io 1 (some [os "d"]) (.os .acces))] ∧
    ((shutWalk .default).dues 9).map (fun item => item.map DirEntry.display) =
      [.ok [], .ok [os "d"], .error (.io 1 (some [os "d"]) (.os .acces))] ∧
    ((shutWalk (WalkOptions.default.withMaxDepth 1)).answers.drive 9 9 (IntoIter.rooted ringVfs
        (shutWalk .default).root [] (WalkOptions.default.withMaxDepth 1))).map
      (List.map fun item => item.map DirEntry.display) =
    some [.ok [], .error (.io 1 (some [os "d"]) (.os .acces))] := by
  decide +kernel

end Fixture

end Seahaven.Vfs
