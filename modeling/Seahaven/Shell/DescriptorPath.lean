import Seahaven.Shell.HostText

/-!
# Paths that name descriptors

1. `VirtualPath.descriptor`: the number a path of the namespace stands for.
2. `AnsweredByShell`: a path is answered from the shell's descriptors, whatever the namespace is.
3. `answeredByShell_iff`: of the names of a number, exactly the plainly spelled ones are.

The names are told apart before they are resolved, so a name that only resolution shows to be one
is opened in the namespace.
-/

namespace Seahaven

open OsStr

/-- The names of the standard streams below `/dev`, with their numbers. -/
def streams : List (OsStr × Nat) := [(os "stdin", 0), (os "stdout", 1), (os "stderr", 2)]

def Vfs.VirtualPath.descriptor [Vfs.Unicode] (p : Vfs.VirtualPath) : Option Nat :=
  match p.components with
  | [dev, name] => if dev = os "dev" then streams.lookup name else none
  | [dev, fd, name] => if dev = os "dev" ∧ fd = os "fd" then Shell.decimal name else none
  | _ => none

namespace Shell

open Vfs Host Op

/-! ## Numbers -/

variable {s : OsStr}

theorem digits_of_decimal {n : Nat} (h : decimal s = some n) :
    ∀ x ∈ s, ∃ c : Char, x = .chr c ∧ c.isDigit = true := by
  unfold decimal at h
  generalize 0 = start at h
  induction s generalizing start with
  | nil => nofun
  | cons x s ih =>
    rw [List.foldlM_cons] at h
    cases x with
    | raw b => cases h
    | chr c =>
      dsimp only at h
      split_ifs at h with hc
      · exact List.forall_mem_cons.2 ⟨⟨c, rfl, hc⟩, ih _ h⟩
      · cases h

theorem parseFd_of_decimal {n : Nat} (hne : s ≠ []) (h : decimal s = some n) :
    parseFd s = if n < 2 ^ 31 then some (n : Int) else none := by
  have hsign : ∀ c rest, s = .chr c :: rest → c.isDigit = true := by
    rintro c rest rfl
    obtain ⟨d, hd, hdigit⟩ := digits_of_decimal h (.chr c) List.mem_cons_self
    cases hd
    exact hdigit
  unfold parseFd
  split
  · exact absurd rfl hne
  · exact absurd (hsign _ _ rfl) (by decide)
  · exact absurd (hsign _ _ rfl) (by decide)
  · exact absurd (hsign _ _ rfl) (by decide)
  · exact absurd (hsign _ _ rfl) (by decide)
  · rw [h]
    rfl

/-! ## Texts and their components -/

/-- A component that `Path::components` keeps. -/
def Counts (c : OsStr) : Bool := c ≠ [] && c ≠ OsStr.dot

theorem not_counts {c : OsStr} : ¬ Counts c = true ↔ c = [] ∨ c = OsStr.dot := by
  simp [Counts, or_iff_not_imp_left]

theorem pathComponents_of_absolute (h : s.isAbsolute = true) :
    pathComponents s = [slash] :: s.split.filter Counts := by
  obtain ⟨s, rfl⟩ : ∃ t, s = slash :: t := by
    cases s with
    | nil => cases h
    | cons a s => exact ⟨s, by simpa [isAbsolute] using h⟩
  rw [pathComponents, split_cons, if_pos rfl]
  dsimp only
  rw [if_pos h, List.filter_cons_of_neg (by decide)]
  rfl

variable {l : List OsStr}

theorem absolute_of_pathComponents (h : pathComponents s = [slash] :: l) : s.isAbsolute = true := by
  have hmem : [slash] ∉ s.split := fun h => slash_not_mem_of_mem_split h List.mem_cons_self
  unfold pathComponents at h
  dsimp only at h
  split at h
  · cases h
  · rename_i first rest hs
    rw [hs, List.mem_cons, not_or] at hmem
    split_ifs at h with habs hfirst
    · exact habs
    · have hkept : [slash] ∈ rest.filter fun c => c ≠ [] && c ≠ OsStr.dot :=
        h ▸ List.mem_cons_self
      exact absurd (List.mem_filter.1 hkept).1 hmem.2
    · exact absurd (List.cons.inj h).1.symm hmem.1

theorem mem_of_pathComponents (h : pathComponents s = [slash] :: l)
    {x : OsChar} (hx : x ∈ s) : x = slash ∨ x = .chr '.' ∨ ∃ c ∈ l, x ∈ c := by
  rw [pathComponents_of_absolute (absolute_of_pathComponents h)] at h
  rw [← join_split s] at hx
  rcases mem_join hx with hx | ⟨c, hc, hx⟩
  · exact .inl hx
  · by_cases hcounts : Counts c = true
    · exact .inr (.inr ⟨c, (List.cons.inj h).2 ▸ List.mem_filter.2 ⟨hc, hcounts⟩, hx⟩)
    · obtain rfl | rfl := not_counts.1 hcounts
      · cases hx
      · exact .inr (.inl (by simpa using hx))

/-! ## Characters -/

/-- A character that stands for itself in every path: a digit, a small letter or a sign. -/
def isOrdinary : OsChar → Bool
  | .chr c => c.isDigit || c.isLower || c = '+' || c = '-'
  | .raw _ => false

theorem chr_of_isOrdinary {x : OsChar} (h : isOrdinary x = true) :
    ∃ c : Char, x = .chr c ∧ (48 ≤ c.toNat ∧ c.toNat ≤ 57 ∨ 97 ≤ c.toNat ∧ c.toNat ≤ 122 ∨
      c.toNat = 43 ∨ c.toNat = 45) := by
  cases x with
  | raw b => cases h
  | chr c =>
    refine ⟨c, rfl, ?_⟩
    simp only [isOrdinary, Bool.or_eq_true, decide_eq_true_eq] at h
    rcases h with ((h | h) | rfl) | rfl
    · exact .inl (Char.isDigit_iff_toNat.1 h)
    · change (decide (c.val ≥ 'a'.val) && decide (c.val ≤ 'z'.val)) = true at h
      rw [Bool.and_eq_true, decide_eq_true_eq, decide_eq_true_eq] at h
      exact .inr (.inl h)
    · exact .inr (.inr (.inl rfl))
    · exact .inr (.inr (.inr rfl))

theorem not_isOrdinary {c : Char} (hc : c = ':' ∨ c = '\\' ∨ c = '\x00') :
    isOrdinary (.chr c) = false := by
  rcases hc with rfl | rfl | rfl <;> decide

theorem isOrdinary_digit {c : Char} (hc : c.isDigit = true) : isOrdinary (.chr c) = true := by
  simp [isOrdinary, hc]

theorem isOrdinary_stream : ∀ s ∈ streams, ∀ x ∈ s.1, isOrdinary x = true := by decide

/-! ## Names as they are written -/

variable {k : ShellFd}

theorem isOrdinary_of_parseFd (h : parseFd s = some k) :
    ∀ x ∈ s, isOrdinary x = true := by
  have hdigits : ∀ {t : OsStr} {f : Nat → Option ShellFd}, (decimal t).bind f = some k →
      ∀ x ∈ t, isOrdinary x = true := by
    intro t f ht x hx
    obtain ⟨n, hn, -⟩ := Option.bind_eq_some_iff.1 ht
    obtain ⟨c, rfl, hc⟩ := digits_of_decimal hn x hx
    exact isOrdinary_digit hc
  unfold parseFd at h
  split at h
  · cases h
  · cases h
  · cases h
  · exact List.forall_mem_cons.2 ⟨by decide, hdigits h⟩
  · exact List.forall_mem_cons.2 ⟨by decide, hdigits h⟩
  · exact hdigits h

variable {abs : OsStr}

theorem shellFdPathToFd_eq_some (h : shellFdPathToFd abs = some k) :
    (∃ name n, abs = os "/dev/" ++ name ∧ (name, n) ∈ streams ∧ k = n) ∨
      ∃ name, pathComponents abs = pathComponents (os "/dev/fd") ++ [name] ∧ name ≠ dotdot ∧
        parseFd name = some k := by
  unfold shellFdPathToFd at h
  split_ifs at h with hutf hin hout herr
  · exact .inl ⟨os "stdin", 0, hin, by decide, (Option.some.inj h).symm⟩
  · exact .inl ⟨os "stdout", 1, hout, by decide, (Option.some.inj h).symm⟩
  · exact .inl ⟨os "stderr", 2, herr, by decide, (Option.some.inj h).symm⟩
  · split at h
    · rename_i root dev fd name hl
      split_ifs at h with hdev
      exact .inr ⟨name, hl.trans (by rw [← hdev.1]; rfl), hdev.2, h⟩
    · cases h

/-- The path is written `/dev/stdin`, `/dev/stdout` or `/dev/stderr`, or it is `/dev/fd` and a
decimal number below `2 ^ 31`, up to repeated separators and `.`. -/
def SpelledPlainly (abs : OsStr) : Prop :=
  (∃ s ∈ streams, abs = os "/dev/" ++ s.1) ∨
    ∃ name n, pathComponents abs = pathComponents (os "/dev/fd") ++ [name] ∧
      decimal name = some n ∧ n < 2 ^ 31

theorem recognizes (h : SpelledPlainly abs) :
    ∃ k, shellFdPathToFd abs = some k := by
  rcases h with ⟨s, hs, rfl⟩ | ⟨name, n, hl, hn, hlt⟩
  · simp only [streams, List.mem_cons, List.not_mem_nil, or_false] at hs
    rcases hs with rfl | rfl | rfl
    · exact ⟨0, by decide⟩
    · exact ⟨1, by decide⟩
    · exact ⟨2, by decide⟩
  · have hl₀ : pathComponents abs = [[slash], os "dev", os "fd", name] := hl
    have habs := absolute_of_pathComponents hl₀
    have hdigits := digits_of_decimal hn
    have hne : name ≠ [] ∧ name ≠ dotdot := by
      refine ⟨?_, ?_⟩
      · rw [pathComponents_of_absolute habs] at hl₀
        have hkept : name ∈ abs.split.filter Counts := (List.cons.inj hl₀).2 ▸ by simp
        exact fun h => absurd (List.mem_filter.1 hkept).2 (not_counts.2 (.inl h))
      · rintro rfl
        obtain ⟨c, hc, hdigit⟩ := hdigits (.chr '.') List.mem_cons_self
        cases hc
        cases hdigit
    have hutf : abs.isUtf8 = true := by
      refine isUtf8_iff.2 fun x hx => ?_
      rcases mem_of_pathComponents hl₀ hx with rfl | rfl | ⟨c, hc, hx⟩
      · exact ⟨_, rfl⟩
      · exact ⟨_, rfl⟩
      · simp only [List.mem_cons, List.not_mem_nil, or_false] at hc
        rcases hc with rfl | rfl | rfl
        · exact isUtf8_iff.1 (isUtf8_os _) x hx
        · exact isUtf8_iff.1 (isUtf8_os _) x hx
        · exact (hdigits x hx).imp fun _ h => h.1
    have hparse := parseFd_of_decimal hne.1 hn
    rw [if_pos hlt] at hparse
    unfold shellFdPathToFd
    rw [hutf, hl₀]
    split_ifs
    · cases ‹_›
    · exact ⟨_, rfl⟩
    · exact ⟨_, rfl⟩
    · exact ⟨_, rfl⟩
    · dsimp only
      rw [if_pos ⟨by decide, hne.2⟩, hparse]
      exact ⟨_, rfl⟩

/-! ## Where a text leads -/

section

variable [Unicode]

theorem resolveLoop_counts (base l : List OsStr) :
    resolveLoop base (l.filter Counts) = resolveLoop base l := by
  induction l generalizing base with
  | nil => rfl
  | cons raw rest ih =>
    by_cases hraw : Counts raw = true
    · rw [List.filter_cons_of_pos hraw, resolveLoop, resolveLoop]
      simp only [ih]
    · rw [List.filter_cons_of_neg hraw, ih, resolveLoop, if_pos (not_counts.1 hraw)]

theorem resolveLoop_eq_ok {base out : List OsStr} (hl : ∀ c ∈ l, GoesDown c)
    (h : resolveLoop base l = .ok out) : out = base ++ l.map Unicode.nfc := by
  induction l generalizing base with
  | nil => simpa [resolveLoop, eq_comm] using h
  | cons c l ih =>
    obtain ⟨⟨hne, hdot, hdotdot⟩, hrest⟩ := List.forall_mem_cons.1 hl
    rw [resolveLoop, if_neg (not_or.2 ⟨hne, hdot⟩), if_neg hdotdot] at h
    cases hv : validateComponent c with
    | error e =>
      rw [hv] at h
      cases h
    | ok d =>
      rw [hv] at h
      obtain rfl := (validateComponent_eq_ok.1 hv).2.2.2
      rw [ih hrest h, List.append_assoc]
      rfl

variable {session : Session} {p : VirtualPath}

theorem components_of_text {text : OsStr}
    (hl : pathComponents text = [slash] :: l) (hl' : ∀ c ∈ l, ∀ x ∈ c, isOrdinary x = true)
    (h : toVirtualPath session text = .ok p) : p.components = l.map Unicode.nfc := by
  have habs := absolute_of_pathComponents hl
  have hchars : ∀ x ∈ text, x = slash ∨ x = .chr '.' ∨ isOrdinary x = true := fun x hx =>
    (mem_of_pathComponents hl hx).imp_right (Or.imp_right fun ⟨c, hc, hx⟩ => hl' c hc x hx)
  have hnot : ∀ c : Char, c = ':' ∨ c = '\\' ∨ c = '\x00' → .chr c ∉ text := by
    intro c hc hmem
    rcases hchars _ hmem with h | h | h
    · cases h
      simp at hc
    · cases h
      simp at hc
    · rw [not_isOrdinary hc] at h
      cases h
  have hutf : text.isUtf8 = true := isUtf8_iff.2 fun x hx => by
    rcases hchars x hx with rfl | rfl | h
    · exact ⟨_, rfl⟩
    · exact ⟨_, rfl⟩
    · exact (chr_of_isOrdinary h).imp fun _ h => h.1
  rw [toVirtualPath_of_text hutf (hnot _ (by decide)) (hnot _ (by decide))] at h
  have hresolve : session.cwd.resolve text = .ok p := by
    unfold Session.resolve at h
    cases hr : session.cwd.resolve text with
    | ok q =>
      rw [hr] at h
      exact congrArg Except.ok (Except.ok.inj h)
    | error e =>
      rw [hr] at h
      cases h
  rw [VirtualPath.resolve_eq_ok, VirtualPath.resolveComponents, if_neg, if_neg (hnot _ (by decide)),
    if_neg (hnot _ (by decide)), if_pos habs, ← resolveLoop_counts] at hresolve
  · rw [pathComponents_of_absolute habs] at hl
    rw [(List.cons.inj hl).2] at hresolve
    refine (resolveLoop_eq_ok (fun c hc => ?_) hresolve).trans (List.nil_append _)
    have hkept : Counts c = true := (List.mem_filter.1 ((List.cons.inj hl).2 ▸ hc)).2
    have hneither := mt not_counts.2 (not_not.2 hkept)
    refine ⟨fun h => hneither (.inl h), fun h => hneither (.inr h), ?_⟩
    rintro rfl
    exact absurd (hl' _ hc (.chr '.') (by decide)) (by decide)
  · rintro rfl
    cases habs

/-! ## The descriptors of the namespace -/

theorem eq_of_nfc {c d : OsStr} (hd : ∀ x ∈ d, isOrdinary x = true) (h : Unicode.nfc c = d) :
    c = d := by
  rw [← h, Unicode.nfc_ascii c]
  rw [h]
  intro x hx
  obtain ⟨c, rfl, hrange⟩ := chr_of_isOrdinary (hd x hx)
  refine ⟨c, rfl, by omega, ?_, ?_, by omega⟩
  · rintro rfl
    revert hrange
    decide
  · rintro rfl
    revert hrange
    decide

theorem descriptor_eq_some {n : Nat} (h : p.descriptor = some n) :
    (∃ name, p.components = [os "dev", name] ∧ (name, n) ∈ streams) ∨
      ∃ name, p.components = [os "dev", os "fd", name] ∧ decimal name = some n := by
  unfold VirtualPath.descriptor at h
  split at h
  · rename_i dev name hp
    split_ifs at h with hdev
    subst hdev
    obtain ⟨before, after, hstreams, -⟩ := List.lookup_eq_some_iff.1 h
    exact .inl ⟨name, hp, by simp [hstreams]⟩
  · rename_i dev fd name hp
    split_ifs at h with hdev
    obtain ⟨rfl, rfl⟩ := hdev
    exact .inr ⟨name, hp, h⟩
  · cases h

/-! ## Answering from the shell -/

variable (shell : RedirectShell)

/-- The path of a name, joined to the working directory and read in the grammar of the namespace,
stands for this number. -/
def NamesDescriptor (path : OsStr) (n : Nat) : Prop :=
  ∃ p, toVirtualPath shell.session (shell.absolutePath path) = .ok p ∧ p.descriptor = some n

def RedirectShell.inNamespace (vfs : Vfs) : RedirectShell :=
  { shell with session := { shell.session with vfs } }

/-- Opening a name answers what the number is open on, or that it is open on nothing, and neither
the namespace nor the world has a part in it. -/
def AnsweredByShell (path : OsStr) (n : Nat) : Prop :=
  ∀ (E : Type) (vfs : Vfs) (mode : OpenMode) (params : ExecutionParameters Opened) (w : World E),
    ∃ message, (shell.inNamespace vfs).openFile mode path params w =
      match params.tryFd shell.openFiles n with
      | some file => (.ok file, w)
      | none => (.error (.custom .notFound message), w)

variable {shell} {path : OsStr} {n : Nat}

theorem descriptor_of_text
    (hl : pathComponents abs = [slash] :: l) (hl' : ∀ c ∈ l, ∀ x ∈ c, isOrdinary x = true)
    (hp : toVirtualPath session abs = .ok p) (hn : p.descriptor = some n) :
    (∃ dev name, l = [dev, name] ∧ (name, n) ∈ streams) ∨
      ∃ dev fd name, l = [dev, fd, name] ∧ decimal name = some n := by
  have hcomponents := components_of_text hl hl' hp
  rcases descriptor_eq_some hn with ⟨name, hp, hname⟩ | ⟨name, hp, hname⟩
  · rw [hp, eq_comm, List.map_eq_cons_iff] at hcomponents
    obtain ⟨dev, l₁, rfl, -, hcomponents⟩ := hcomponents
    obtain ⟨name', rfl, hnfc⟩ := List.map_eq_singleton_iff.1 hcomponents
    obtain rfl := eq_of_nfc (isOrdinary_stream _ hname) hnfc
    exact .inl ⟨dev, _, rfl, hname⟩
  · rw [hp, eq_comm, List.map_eq_cons_iff] at hcomponents
    obtain ⟨dev, l₁, rfl, -, hcomponents⟩ := hcomponents
    obtain ⟨fd, l₂, rfl, -, hcomponents⟩ := List.map_eq_cons_iff.1 hcomponents
    obtain ⟨name', rfl, hnfc⟩ := List.map_eq_singleton_iff.1 hcomponents
    have hdigits : ∀ x ∈ name, isOrdinary x = true := by
      intro x hx
      obtain ⟨c, rfl, hc⟩ := digits_of_decimal hname x hx
      exact isOrdinary_digit hc
    obtain rfl := eq_of_nfc hdigits hnfc
    exact .inr ⟨dev, fd, _, rfl, hname⟩

theorem recognized (hk : shellFdPathToFd abs = some k) (hp : toVirtualPath session abs = .ok p)
    (hn : p.descriptor = some n) : k = n ∧ SpelledPlainly abs := by
  rcases shellFdPathToFd_eq_some hk with ⟨name, m, rfl, hm, rfl⟩ | ⟨name, hl, hup, hparse⟩
  · have hl : pathComponents (os "/dev/" ++ name) = [[slash], os "dev", name] := by
      simp only [streams, List.mem_cons, Prod.mk.injEq, List.not_mem_nil, or_false] at hm
      rcases hm with ⟨rfl, -⟩ | ⟨rfl, -⟩ | ⟨rfl, -⟩ <;> decide
    have hordinary : ∀ c ∈ [os "dev", name], ∀ x ∈ c, isOrdinary x = true :=
      List.forall_mem_cons.2 ⟨by decide, List.forall_mem_singleton.2 (isOrdinary_stream _ hm)⟩
    rcases descriptor_of_text hl hordinary hp hn with
      ⟨dev, name', heq, hn'⟩ | ⟨dev, fd, name', heq, -⟩
    · cases heq
      have hkeys : (streams.map Prod.fst).Nodup := by decide
      have hmn : m = n := congrArg Prod.snd (List.inj_on_of_nodup_map hkeys hm hn' rfl)
      exact ⟨congrArg _ hmn, .inl ⟨_, hm, rfl⟩⟩
    · cases heq
  · have hl₀ : pathComponents abs = [[slash], os "dev", os "fd", name] := hl
    have hordinary : ∀ c ∈ [os "dev", os "fd", name], ∀ x ∈ c, isOrdinary x = true :=
      List.forall_mem_cons.2 ⟨by decide, List.forall_mem_cons.2 ⟨by decide,
        List.forall_mem_singleton.2 (isOrdinary_of_parseFd hparse)⟩⟩
    rcases descriptor_of_text hl₀ hordinary hp hn with
      ⟨dev, name', heq, -⟩ | ⟨dev, fd, name', heq, hn'⟩
    · cases heq
    · cases heq
      have hne : name ≠ [] := by
        rintro rfl
        cases hparse
      rw [parseFd_of_decimal hne hn'] at hparse
      split_ifs at hparse with hlt
      exact ⟨(Option.some.inj hparse).symm, .inr ⟨name, n, hl, hn', hlt⟩⟩

theorem not_null (h : NamesDescriptor shell path n) : isNullDevicePath path = false := by
  by_contra hnull
  rw [Bool.not_eq_false] at hnull
  obtain ⟨p, hp, hn⟩ := h
  have hl : pathComponents path = [[slash], os "dev", os "null"] := of_decide_eq_true hnull
  rw [RedirectShell.absolutePath, if_pos (by simp [absolute_of_pathComponents hl])] at hp
  rcases descriptor_of_text hl (by decide) hp hn with ⟨dev, name, heq, hname⟩ | ⟨_, _, _, heq, -⟩
  · cases heq
    have hnames : os "null" ∉ streams.map Prod.fst := by decide
    exact hnames (List.mem_map.2 ⟨_, hname, rfl⟩)
  · cases heq

/-! ## Falling through -/

theorem openWith_mountedAt (p : VirtualPath) (h : Host) :
    (mountedAt p).openWith p .default h = (.error (.os .inval), h) := by
  have hself : p.stripPrefix p = some [] := VirtualPath.stripPrefix_eq_some.2 (by simp)
  have hexact : (mountedAt p).locateExact p =
      .ok ⟨⟨p, ⟨0, 0⟩, none, none, .readWrite, false⟩, [], p⟩ :=
    Vfs.locateExact_eq_ok.2 ⟨by simp [MountTable.resolve, mountedAt, hself], rfl⟩
  have hopen : (mountedAt p).openWith p .default = (mountedAt p).at p true (openAt .default) := rfl
  rw [hopen, Vfs.at, hexact, check_ok_bind]
  rfl

theorem openFile_of_unrecognized {E : Type} {vfs : Vfs} {mode : OpenMode}
    {params : ExecutionParameters Opened}
    (hnull : isNullDevicePath path = false)
    (hfd : shellFdPathToFd (shell.absolutePath path) = none)
    (hp : toVirtualPath shell.session (shell.absolutePath path) = .ok p) :
    ((shell.inNamespace vfs).openFile mode path params : Op (World E) IoError _) =
      onHost (vfs.openWith p mode) >>= fun file =>
        newFile (.named file) >>= fun opened => pure (.file opened) := by
  have hpath : (shell.inNamespace vfs).absolutePath path = shell.absolutePath path := rfl
  have hsession : toVirtualPath (shell.inNamespace vfs).session (shell.absolutePath path) = .ok p :=
    hp
  unfold RedirectShell.openFile
  rw [hnull, if_neg Bool.false_ne_true]
  dsimp only
  rw [hpath, hfd, hsession]
  exact check_ok_bind

theorem not_answered (hnull : isNullDevicePath path = false)
    (hfd : shellFdPathToFd (shell.absolutePath path) = none) (h : NamesDescriptor shell path n) :
    ¬ AnsweredByShell shell path n := by
  obtain ⟨p, hp, -⟩ := h
  intro hanswered
  obtain ⟨message, h⟩ := hanswered Unit (mountedAt p) .default ⟨.empty⟩ ⟨(), .ofTrees [], 0⟩
  rw [openFile_of_unrecognized hnull hfd hp, bind_error (by
    rw [onHost, openWith_mountedAt])] at h
  split at h
  · cases h
  · cases h

theorem answered (hnull : isNullDevicePath path = false)
    (hfd : shellFdPathToFd (shell.absolutePath path) = some k) (hk : k = n) :
    AnsweredByShell shell path n := by
  intro E vfs mode params w
  refine ⟨os "no such file or directory: " ++ shell.absolutePath path, ?_⟩
  have hpath : shellFdPathToFd ((shell.inNamespace vfs).absolutePath path) = some k := hfd
  subst hk
  unfold RedirectShell.openFile
  rw [hnull, if_neg Bool.false_ne_true]
  simp only [hpath]
  have hfiles : (shell.inNamespace vfs).openFiles = shell.openFiles := rfl
  rw [hfiles]
  cases params.tryFd shell.openFiles n <;> rfl

/-! ## The two working directories -/

theorem toVirtualPath_absolutePath
    (hcwd : shell.workingDir = shell.session.cwd.asStr) (hutf : shell.workingDir.isUtf8 = true)
    (hpath : path.isUtf8 = true) (h : shell.session.resolve path = .ok p) :
    toVirtualPath shell.session (shell.absolutePath path) = .ok p := by
  obtain ⟨hne, hnul, hback⟩ := VirtualPath.plain_of_resolve h
  have hcolon := colon_of_resolve h
  by_cases hrel : path.isAbsolute = true
  · rw [RedirectShell.absolutePath, if_pos (by simp [hrel]),
      toVirtualPath_of_text hpath hback hcolon, h]
    rfl
  · rw [Bool.not_eq_true] at hrel
    rw [RedirectShell.absolutePath, if_neg (by simp [hrel, hne]), hcwd]
    obtain ⟨hne', hnul', hback'⟩ :=
      VirtualPath.plain_of_resolve (VirtualPath.resolve_asStr .root shell.session.cwd)
    have hcolon' := colon_of_resolve (VirtualPath.resolve_asStr .root shell.session.cwd)
    have hnot : ∀ x, x ∉ shell.session.cwd.asStr → x ≠ slash → x ∉ path →
        x ∉ joinPath shell.session.cwd.asStr path := fun x h₁ h₂ h₃ hx =>
      (mem_joinPath hx).elim h₁ (Or.rec h₂ h₃)
    have hutf' : (joinPath shell.session.cwd.asStr path).isUtf8 = true := by
      refine isUtf8_iff.2 fun x hx => ?_
      rcases mem_joinPath hx with hx | rfl | hx
      · exact isUtf8_iff.1 (hcwd ▸ hutf) x hx
      · exact ⟨_, rfl⟩
      · exact isUtf8_iff.1 hpath x hx
    have hhead : ∃ t, joinPath shell.session.cwd.asStr path = slash :: t := by
      rw [joinPath, if_neg (by simp [hrel])]
      split_ifs
      · exact ⟨_, rfl⟩
      · exact ⟨_, rfl⟩
    have hstart : shell.session.cwd.start (joinPath shell.session.cwd.asStr path) = .root := by
      obtain ⟨t, ht⟩ := hhead
      rw [ht]
      rfl
    rw [toVirtualPath_of_text hutf' (hnot _ hback' (by decide) hback)
      (hnot _ hcolon' (by decide) hcolon)]
    rw [Session.resolve, VirtualPath.resolve_eq_ok,
      VirtualPath.resolveComponents_plain hne hnul hback] at h
    have hresolve : shell.session.resolve (joinPath shell.session.cwd.asStr path) = .ok p := by
      rw [Session.resolve, VirtualPath.resolve_eq_ok, VirtualPath.resolveComponents_plain
        (by obtain ⟨t, ht⟩ := hhead; simp [ht]) (hnot _ hnul' (by decide) hnul)
        (hnot _ hback' (by decide) hback), hstart]
      exact (resolveLoop_joinPath _ hrel).trans (by
        simpa [VirtualPath.start, hrel] using h)
    rw [hresolve]
    rfl

theorem namesDescriptor_of_resolve
    (hcwd : shell.workingDir = shell.session.cwd.asStr) (hutf : shell.workingDir.isUtf8 = true)
    (hpath : path.isUtf8 = true) (h : shell.session.resolve path = .ok p)
    (hn : p.descriptor = some n) : NamesDescriptor shell path n :=
  ⟨p, toVirtualPath_absolutePath hcwd hutf hpath h, hn⟩

/-- **Descriptor paths.** Of the names of a descriptor, the shell itself answers exactly the plainly
spelled ones. -/
theorem answeredByShell_iff (h : NamesDescriptor shell path n) :
    AnsweredByShell shell path n ↔ SpelledPlainly (shell.absolutePath path) := by
  have hnull := not_null h
  obtain ⟨p, hp, hn⟩ := id h
  constructor
  · intro hanswered
    cases hfd : shellFdPathToFd (shell.absolutePath path) with
    | none => exact absurd hanswered (not_answered hnull hfd h)
    | some k => exact (recognized hfd hp hn).2
  · intro hplain
    obtain ⟨k, hfd⟩ := recognizes hplain
    exact answered hnull hfd (recognized hfd hp hn).1

end

/-! ### A namespace that holds the host's own descriptors -/

section Fixture

attribute [local instance] composed

/-- `/`, mounted as it is. -/
def identityVfs : Vfs := mountedAt .root

def hostWithStdin : Host :=
  .ofTrees [.ofEntries [([os "dev"], .dir), ([os "dev", os "stdin"], .special .charDevice)]]

/-- A shell in `/dev` of that host, whose own standard input is not the process's. -/
def identityShell : RedirectShell where
  openFiles := .new
  disallowOverwritingRegularFiles := false
  workingDir := os "/dev"
  absolute := by decide
  session := ⟨identityVfs, ⟨[os "dev"], by decide⟩⟩
  nullFile := .ok 0
  started := (.pipe, .other, .other)

theorem answered_plain : (NamesDescriptor identityShell (os "stdin") 0 ∧
    SpelledPlainly (identityShell.absolutePath (os "stdin"))) ∧
    AnsweredByShell identityShell (os "stdin") 0 := by
  have hnames : NamesDescriptor identityShell (os "stdin") 0 :=
    namesDescriptor_of_resolve (p := ⟨[os "dev", os "stdin"], by decide⟩) (by decide) (by decide)
      (by decide) (by decide +kernel) (by decide)
  have hplain : SpelledPlainly (identityShell.absolutePath (os "stdin")) :=
    .inl ⟨(os "stdin", 0), by decide, by decide⟩
  exact ⟨⟨hnames, hplain⟩, (answeredByShell_iff hnames).2 hplain⟩

/-- **Another spelling** of the standard input opens the host's. -/
theorem not_answered_dotted : NamesDescriptor identityShell (os "./stdin") 0 ∧
    ¬ AnsweredByShell identityShell (os "./stdin") 0 ∧
    ∃ file w, identityShell.openFile OpenMode.ofRead (os "./stdin") ⟨.empty⟩
        (⟨(), hostWithStdin, 0⟩ : World Unit) = (.ok (.file ⟨0, .named file⟩), w) ∧
      file.node.kind = .special .charDevice := by
  have hnames : NamesDescriptor identityShell (os "./stdin") 0 :=
    namesDescriptor_of_resolve (p := ⟨[os "dev", os "stdin"], by decide⟩) (by decide) (by decide)
      (by decide) (by decide +kernel) (by decide)
  exact ⟨hnames, not_answered (by decide) (by decide) hnames, _, _, rfl, rfl⟩

end Fixture

end Shell

end Seahaven
