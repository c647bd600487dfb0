import Mathlib.Data.List.Dedup
import Mathlib.Data.List.Infix
import Seahaven.Io

/-!
# Host trees

A host directory tree, by the node each path names. Directories carry their inode, so that an open
handle follows a directory that moves; files carry theirs so that hard links share what belongs to
the file. A tree changes in three ways: an entry is inserted, a subtree is pruned, or a subtree is
moved. Each keeps the invariants of the structure.
-/

namespace Seahaven.Host

open OsStr

/-- An open directory: a tree and the directory's inode in it. -/
structure CapDir where
  tree : Nat
  ino : Nat
  deriving DecidableEq

/-- A file that is neither regular, a directory nor a link. -/
inductive Special
  | blockDevice
  | charDevice
  | fifo
  | socket
  deriving DecidableEq

/-- What a node is. -/
inductive Kind
  | dir
  | file
  | link (target : OsStr)
  | special (kind : Special)
  deriving DecidableEq

/-- A directory entry's object. -/
structure Node where
  ino : Nat
  kind : Kind
  deriving DecidableEq

/-- What an inode carries besides its kind. -/
structure Attr where
  content : List UInt8
  mode : Nat
  uid : Nat
  gid : Nat
  atime : Int
  mtime : Int
  deriving DecidableEq

/-- A name a directory can hold. -/
structure IsName (c : OsStr) : Prop where
  ne_nil : c ≠ []
  no_slash : slash ∉ c
  no_nul : .chr '\x00' ∉ c
  ne_dot : c ≠ dot
  ne_dotdot : c ≠ dotdot

instance (c : OsStr) : Decidable (IsName c) :=
  decidable_of_iff (c ≠ [] ∧ slash ∉ c ∧ .chr '\x00' ∉ c ∧ c ≠ dot ∧ c ≠ dotdot)
    ⟨fun ⟨h₁, h₂, h₃, h₄, h₅⟩ => ⟨h₁, h₂, h₃, h₄, h₅⟩,
      fun h => ⟨h.ne_nil, h.no_slash, h.no_nul, h.ne_dot, h.ne_dotdot⟩⟩

/-- A host directory and everything beneath it. Its own path is `[]` and its inode `0`. -/
structure Tree where
  node : HostPath → Option Node
  attr : Nat → Attr
  /-- The paths that may name something. -/
  keys : List HostPath
  /-- The next unused inode. -/
  next : Nat
  root_eq : node [] = some ⟨0, .dir⟩
  parent_dir : ∀ p c n, node (p ++ [c]) = some n → ∃ i, node p = some ⟨i, .dir⟩
  mem_keys : ∀ p n, node p = some n → p ∈ keys
  lt_next : ∀ p n, node p = some n → n.ino < next
  /-- A directory has one path. -/
  dir_inj : ∀ p q i n, node p = some ⟨i, .dir⟩ → node q = some n → n.ino = i → q = p
  name_ok : ∀ p c n, node (p ++ [c]) = some n → IsName c

namespace Tree

variable (t : Tree)

/-- Whether `p` is a directory. -/
def isDir (p : HostPath) : Bool := (t.node p).any fun n => n.kind = .dir

/-- Whether something is at `p`. -/
def isPresent (p : HostPath) : Bool := (t.node p).isSome

def names (p : HostPath) : List OsStr :=
  (t.keys.filterMap fun q =>
    if q ≠ [] ∧ q.dropLast = p ∧ t.isPresent q then q.getLast? else none).dedup

def pathOf (i : Nat) : Option HostPath := t.keys.find? fun p => t.node p = some ⟨i, .dir⟩

/-- The target of the link at `p`. -/
def linkAt (p : HostPath) : Option OsStr :=
  match t.node p with
  | some ⟨_, .link target⟩ => some target
  | _ => none

variable {t}

theorem linkAt_eq_some {p : HostPath} {target : OsStr} :
    t.linkAt p = some target ↔ ∃ i, t.node p = some ⟨i, .link target⟩ := by
  unfold linkAt
  split
  · rename_i i _ h
    simp [h, eq_comm]
  · rename_i h
    simp only [reduceCtorEq, false_iff, not_exists]
    exact fun i hi => h i target hi

theorem isDir_iff {p : HostPath} : t.isDir p = true ↔ ∃ i, t.node p = some ⟨i, .dir⟩ := by
  unfold isDir
  cases h : t.node p with
  | none => simp
  | some n =>
    obtain ⟨i, k⟩ := n
    simp

theorem forall_node {P : HostPath → Node → Prop} (h : ∀ p ∈ t.keys, ∀ n ∈ t.node p, P p n)
    (p : HostPath) (n : Node) (hn : t.node p = some n) : P p n := h p (t.mem_keys p n hn) n hn

theorem linkAt_of_isDir {p : HostPath} (h : t.isDir p = true) : t.linkAt p = none := by
  obtain ⟨i, hi⟩ := isDir_iff.1 h
  rw [linkAt, hi]

theorem isPresent_iff {p : HostPath} : t.isPresent p = true ↔ ∃ n, t.node p = some n :=
  Option.isSome_iff_exists

theorem isPresent_of_isDir {p : HostPath} (h : t.isDir p = true) : t.isPresent p = true := by
  obtain ⟨i, hi⟩ := isDir_iff.1 h
  exact isPresent_iff.2 ⟨_, hi⟩

theorem isDir_nil : t.isDir [] = true := isDir_iff.2 ⟨0, t.root_eq⟩

theorem isDir_parent {p : HostPath} {c : OsStr} (h : t.isPresent (p ++ [c]) = true) :
    t.isDir p = true := by
  obtain ⟨n, hn⟩ := isPresent_iff.1 h
  exact isDir_iff.2 (t.parent_dir p c n hn)

theorem isDir_above {p q : HostPath} (hpq : p <+: q) (hne : p ≠ q)
    (h : t.isPresent q = true) : t.isDir p = true := by
  obtain ⟨s, rfl⟩ := hpq
  induction s using List.reverseRecOn with
  | nil => simp at hne
  | append_singleton s c ih =>
    rw [← List.append_assoc] at h
    have hdir := isDir_parent h
    by_cases hs : s = []
    · subst hs
      rwa [List.append_nil] at hdir
    · exact ih (by simpa using hs) (isPresent_of_isDir hdir)

theorem isPresent_above {p q : HostPath} (hpq : p <+: q) (h : t.isPresent q = true) :
    t.isPresent p = true := by
  by_cases hne : p = q
  · rwa [hne]
  · exact isPresent_of_isDir (isDir_above hpq hne h)

theorem isPresent_of_linkAt {p : HostPath} {target : OsStr} (h : t.linkAt p = some target) :
    t.isPresent p = true := by
  obtain ⟨i, hi⟩ := linkAt_eq_some.1 h
  exact isPresent_iff.2 ⟨_, hi⟩

theorem mem_names {p : HostPath} {c : OsStr} :
    c ∈ t.names p ↔ t.isPresent (p ++ [c]) = true := by
  rw [names, List.mem_dedup, List.mem_filterMap]
  constructor
  · rintro ⟨q, -, hq⟩
    split_ifs at hq with h
    obtain ⟨-, hp, hpres⟩ := h
    rwa [← hp, List.dropLast_append_getLast? c hq]
  · intro h
    obtain ⟨n, hn⟩ := isPresent_iff.1 h
    exact ⟨p ++ [c], t.mem_keys _ _ hn, by simp [h]⟩

theorem names_ne_nil {p q : HostPath} (hpq : p <+: q) (hne : p ≠ q) (h : t.isPresent q = true) :
    t.names p ≠ [] := by
  obtain ⟨s, rfl⟩ := hpq
  cases s with
  | nil => simp at hne
  | cons c s =>
    have hc : t.isPresent (p ++ [c]) = true := isPresent_above ⟨s, by simp⟩ h
    exact List.ne_nil_of_mem (mem_names.2 hc)

theorem pathOf_eq_some {i : Nat} {p : HostPath} :
    t.pathOf i = some p ↔ t.node p = some ⟨i, .dir⟩ := by
  constructor
  · intro h
    simpa using List.find?_some h
  · intro h
    cases hf : t.pathOf i with
    | none =>
      have := List.find?_eq_none.1 hf p (t.mem_keys p _ h)
      simp [h] at this
    | some q =>
      have hq : t.node q = some ⟨i, .dir⟩ := by simpa using List.find?_some hf
      rw [t.dir_inj p q i _ h hq rfl]

@[simp] theorem pathOf_zero : t.pathOf 0 = some [] := pathOf_eq_some.2 t.root_eq

/-! ## Inserting an entry -/

/-- A directory with room for an entry of this name. -/
structure CanInsert (t : Tree) (p : HostPath) (c : OsStr) : Prop where
  isDir : t.isDir p = true
  free : t.node (p ++ [c]) = none
  isName : IsName c

instance (t : Tree) (p : HostPath) (c : OsStr) : Decidable (t.CanInsert p c) :=
  decidable_of_iff (t.isDir p = true ∧ t.node (p ++ [c]) = none ∧ IsName c)
    ⟨fun ⟨h₁, h₂, h₃⟩ => ⟨h₁, h₂, h₃⟩, fun h => ⟨h.isDir, h.free, h.isName⟩⟩

/-- A node an entry may be given: a new one, or a further name for something not a directory. -/
def Fits (t : Tree) (n : Node) : Prop :=
  n.ino = t.next ∨ ∃ q, t.node q = some n ∧ n.kind ≠ .dir

/-- Add the entry `c` to the directory `p`. -/
def insert (t : Tree) (p : HostPath) (c : OsStr) (n : Node) (h : t.CanInsert p c)
    (hn : t.Fits n) : Tree where
  node q := if q = p ++ [c] then some n else t.node q
  attr := t.attr
  keys := (p ++ [c]) :: t.keys
  next := max t.next (n.ino + 1)
  root_eq := by rw [if_neg (by simp), t.root_eq]
  parent_dir q d m hm := by
    obtain ⟨i, hi⟩ := isDir_iff.1 h.isDir
    split_ifs at hm with hq
    · obtain ⟨rfl, -⟩ := List.append_inj' hq rfl
      exact ⟨i, by rw [if_neg (by simp), hi]⟩
    · obtain ⟨j, hj⟩ := t.parent_dir q d m hm
      refine ⟨j, ?_⟩
      rw [if_neg, hj]
      rintro rfl
      rw [h.free] at hj
      cases hj
  mem_keys q m hm := by
    split_ifs at hm with hq
    · exact hq ▸ List.mem_cons_self
    · exact List.mem_cons_of_mem _ (t.mem_keys q m hm)
  lt_next q m hm := by
    split_ifs at hm with hq
    · obtain rfl := Option.some.inj hm
      omega
    · have := t.lt_next q m hm
      omega
  dir_inj q r i m hq hr hm := by
    split_ifs at hq hr with h₁ h₂ h₂
    · rw [h₁, h₂]
    · -- the new entry is a directory, so its inode is new
      obtain rfl := Option.some.inj hq
      rcases hn with hn | ⟨s, -, hk⟩
      · have := t.lt_next r m hr
        simp only at hn
        omega
      · exact absurd rfl hk
    · obtain rfl := Option.some.inj hr
      rcases hn with hn | ⟨s, hs, hk⟩
      · have := t.lt_next q _ hq
        simp only at this
        omega
      · obtain rfl := t.dir_inj q s i n hq hs hm
        rw [hq] at hs
        exact absurd (Option.some.inj hs ▸ rfl) hk
    · exact t.dir_inj q r i m hq hr hm
  name_ok q d m hm := by
    split_ifs at hm with hq
    · obtain ⟨-, hd⟩ := List.append_inj' hq rfl
      rw [List.singleton_inj.1 hd]
      exact h.isName
    · exact t.name_ok q d m hm

@[simp] theorem attr_insert {p : HostPath} {c : OsStr} {n : Node} (h : t.CanInsert p c)
    (hn : t.Fits n) : (t.insert p c n h hn).attr = t.attr := rfl

/-! ## Pruning a subtree -/

/-- Remove `p` and everything beneath it. -/
def prune (t : Tree) (p : HostPath) (hp : p ≠ []) : Tree where
  node q := if p <+: q then none else t.node q
  attr := t.attr
  keys := t.keys
  next := t.next
  root_eq := by rw [if_neg (by simpa [List.prefix_nil] using hp), t.root_eq]
  parent_dir q d m hm := by
    split_ifs at hm with hq
    obtain ⟨i, hi⟩ := t.parent_dir q d m hm
    exact ⟨i, by rw [if_neg fun h => hq (h.trans (List.prefix_append _ _)), hi]⟩
  mem_keys q m hm := by
    split_ifs at hm with hq
    exact t.mem_keys q m hm
  lt_next q m hm := by
    split_ifs at hm with hq
    exact t.lt_next q m hm
  dir_inj q r i m hq hr hm := by
    split_ifs at hq hr
    exact t.dir_inj q r i m hq hr hm
  name_ok q d m hm := by
    split_ifs at hm
    exact t.name_ok q d m hm

theorem node_prune {p q : HostPath} (hp : p ≠ []) :
    (t.prune p hp).node q = if p <+: q then none else t.node q := rfl

@[simp] theorem attr_prune {p : HostPath} (hp : p ≠ []) : (t.prune p hp).attr = t.attr := rfl

/-! ## Moving a subtree -/

/-- `src` may become the entry `c` of the directory `p`, over whatever is there. -/
structure CanMove (t : Tree) (src p : HostPath) (c : OsStr) : Prop where
  src_ne : src ≠ []
  isDir : t.isDir p = true
  isName : IsName c
  not_into : ¬ src <+: p ++ [c]
  not_over : ¬ p ++ [c] <+: src

instance (t : Tree) (src p : HostPath) (c : OsStr) : Decidable (t.CanMove src p c) :=
  decidable_of_iff (src ≠ [] ∧ t.isDir p = true ∧ IsName c ∧ ¬ src <+: p ++ [c] ∧
      ¬ p ++ [c] <+: src)
    ⟨fun ⟨h₁, h₂, h₃, h₄, h₅⟩ => ⟨h₁, h₂, h₃, h₄, h₅⟩,
      fun h => ⟨h.src_ne, h.isDir, h.isName, h.not_into, h.not_over⟩⟩

/-- Where the node at `q` was before `src` moved to `dst`, unless `q` is where `src` was. -/
def origin (src dst q : HostPath) : Option HostPath :=
  if dst <+: q then some (src ++ q.drop dst.length) else if src <+: q then none else some q

theorem origin_append (src dst s : HostPath) : origin src dst (dst ++ s) = some (src ++ s) := by
  rw [origin, if_pos (List.prefix_append _ _), List.drop_left]

theorem origin_outside {src dst q : HostPath} (hdst : ¬ dst <+: q) (hsrc : ¬ src <+: q) :
    origin src dst q = some q := by rw [origin, if_neg hdst, if_neg hsrc]

theorem origin_eq_some {src dst q r : HostPath} : origin src dst q = some r ↔
    (∃ s, q = dst ++ s ∧ r = src ++ s) ∨ (¬ dst <+: q ∧ ¬ src <+: q ∧ q = r) := by
  unfold origin
  split_ifs with h₁ h₂
  · obtain ⟨s, rfl⟩ := h₁
    simp [eq_comm]
  · simp only [false_iff, not_or, not_exists, not_and]
    exact ⟨fun s hs => absurd (hs ▸ List.prefix_append _ _) h₁, fun _ h => absurd h₂ h⟩
  · simp only [Option.some.injEq]
    constructor
    · rintro rfl
      exact Or.inr ⟨h₁, h₂, rfl⟩
    · rintro (⟨s, rfl, -⟩ | ⟨-, -, h⟩)
      · exact absurd (List.prefix_append _ _) h₁
      · exact h

theorem origin_inj {src dst q q' r : HostPath} (h : origin src dst q = some r)
    (h' : origin src dst q' = some r) : q = q' := by
  rcases origin_eq_some.1 h with ⟨s, rfl, rfl⟩ | ⟨-, hsrc, rfl⟩
  · rcases origin_eq_some.1 h' with ⟨s', rfl, hs⟩ | ⟨-, hsrc, rfl⟩
    · rw [List.append_cancel_left hs]
    · exact absurd (List.prefix_append _ _) hsrc
  · rcases origin_eq_some.1 h' with ⟨s', rfl, rfl⟩ | ⟨-, -, rfl⟩
    · exact absurd (List.prefix_append _ _) hsrc
    · rfl

section Move

variable {src p : HostPath} {c : OsStr}

theorem CanMove.origin_parent (h : t.CanMove src p c) {q r : HostPath} {d : OsStr}
    (ho : origin src (p ++ [c]) (q ++ [d]) = some r) :
    (q = p ∧ d = c ∧ r = src ∧ origin src (p ++ [c]) q = some p) ∨
      ∃ q', r = q' ++ [d] ∧ origin src (p ++ [c]) q = some q' := by
  rcases origin_eq_some.1 ho with ⟨s, hq, rfl⟩ | ⟨hdst, hsrc, rfl⟩
  · rcases List.eq_nil_or_concat s with rfl | ⟨s, e, rfl⟩
    · rw [List.append_nil] at hq
      obtain ⟨rfl, hd⟩ := List.append_inj' hq rfl
      refine Or.inl ⟨rfl, List.singleton_inj.1 hd, List.append_nil _, ?_⟩
      exact origin_outside (fun hp => absurd hp.length_le (by simp))
        fun hp => h.not_into (hp.trans (List.prefix_append _ _))
    · rw [List.concat_eq_append, ← List.append_assoc] at hq
      obtain ⟨rfl, hd⟩ := List.append_inj' hq rfl
      obtain rfl := List.singleton_inj.1 hd
      exact Or.inr ⟨src ++ s, by simp, origin_append _ _ _⟩
  · exact Or.inr ⟨q, rfl, origin_outside (fun hp => hdst (hp.trans (List.prefix_append _ _)))
      fun hp => hsrc (hp.trans (List.prefix_append _ _))⟩

/-- Make `src` the entry `c` of the directory `p`. What was there is gone. -/
def move (t : Tree) (src p : HostPath) (c : OsStr) (h : t.CanMove src p c) : Tree where
  node q := (origin src (p ++ [c]) q).bind t.node
  attr := t.attr
  keys := t.keys ++ t.keys.filterMap fun q =>
    if src <+: q then some (p ++ [c] ++ q.drop src.length) else none
  next := t.next
  root_eq := by
    rw [origin_outside (by simp) (by simpa using h.src_ne)]
    exact t.root_eq
  parent_dir q d m hm := by
    obtain ⟨r, hr, hm⟩ := Option.bind_eq_some_iff.1 hm
    rcases h.origin_parent hr with ⟨rfl, rfl, rfl, hq⟩ | ⟨q', rfl, hq⟩
    · obtain ⟨i, hi⟩ := isDir_iff.1 h.isDir
      exact ⟨i, by rw [hq]; exact hi⟩
    · obtain ⟨i, hi⟩ := t.parent_dir q' d m hm
      exact ⟨i, by rw [hq]; exact hi⟩
  mem_keys q m hm := by
    obtain ⟨r, hr, hm⟩ := Option.bind_eq_some_iff.1 hm
    have hkey := t.mem_keys r m hm
    rcases origin_eq_some.1 hr with ⟨s, rfl, rfl⟩ | ⟨-, -, rfl⟩
    · exact List.mem_append_right _ (List.mem_filterMap.2 ⟨_, hkey, by simp⟩)
    · exact List.mem_append_left _ hkey
  lt_next q m hm := by
    obtain ⟨r, -, hm⟩ := Option.bind_eq_some_iff.1 hm
    exact t.lt_next r m hm
  dir_inj q q' i m hq hq' hm := by
    obtain ⟨r, hr, hq⟩ := Option.bind_eq_some_iff.1 hq
    obtain ⟨r', hr', hq'⟩ := Option.bind_eq_some_iff.1 hq'
    obtain rfl := t.dir_inj r r' i m hq hq' hm
    exact origin_inj hr' hr
  name_ok q d m hm := by
    obtain ⟨r, hr, hm⟩ := Option.bind_eq_some_iff.1 hm
    rcases h.origin_parent hr with ⟨-, rfl, -, -⟩ | ⟨q', rfl, -⟩
    · exact h.isName
    · exact t.name_ok q' d m hm

theorem node_move {q : HostPath} (h : t.CanMove src p c) :
    (t.move src p c h).node q = (origin src (p ++ [c]) q).bind t.node := rfl

@[simp] theorem attr_move (h : t.CanMove src p c) : (t.move src p c h).attr = t.attr := rfl

end Move

/-! ## What an inode carries -/

/-- Set what the inode `i` carries. -/
def setAttr (t : Tree) (i : Nat) (a : Attr) : Tree :=
  { t with attr := fun j => if j = i then a else t.attr j }

@[simp] theorem node_setAttr {i : Nat} {a : Attr} : (t.setAttr i a).node = t.node := rfl

theorem attr_setAttr {i j : Nat} {a : Attr} :
    (t.setAttr i a).attr j = if j = i then a else t.attr j := rfl

@[simp] theorem setAttr_self {i : Nat} : t.setAttr i (t.attr i) = t := by
  have h : (fun j => if j = i then t.attr i else t.attr j) = t.attr := by
    funext j
    split_ifs with hj
    · rw [hj]
    · rfl
  rw [setAttr, h]

/-! ## Trees to start from -/

/-- An empty directory. -/
def bare : Tree where
  node p := if p = [] then some ⟨0, .dir⟩ else none
  attr _ := ⟨[], 0o755, 0, 0, 0, 0⟩
  keys := [[]]
  next := 1
  root_eq := rfl
  parent_dir p c n h := by simp at h
  mem_keys p n h := by
    split_ifs at h with hp
    simp [hp]
  lt_next p n h := by
    split_ifs at h
    obtain rfl := Option.some.inj h
    exact Nat.one_pos
  dir_inj p q i n hp hq _ := by
    split_ifs at hp hq with h₁ h₂
    rw [h₁, h₂]
  name_ok p c n h := by simp at h

end Tree

end Seahaven.Host
