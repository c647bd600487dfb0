import Seahaven.Host.Beneath
import Seahaven.Vfs.Routes
import Seahaven.Vfs.Through

/-!
# Handles and paths

A directory handle opens what is in it by name, and the host follows a name that is a link. The
namespace resolves the joined path, and looks every component up in the mount table.

1. `follow_more`: a walk goes on from where it arrived.
2. `openDir_of_child`: a handle opened by name is the one the joined path opens, as long as the
   host's way there passes nothing a nested mount covers.
3. `openWith_of_child`: so is a file.
4. `openDirs_joined`: so is what a chain of names opens.
-/

namespace Seahaven.Vfs

open Host OsStr Op

variable [Unicode] {v : Vfs} {h : Host} {p q : VirtualPath} {l : Located}
  {pending rest : List OsStr}

/-! ## A walk that goes on -/

variable {more : List OsStr}

theorem trace_append (hr : v.trace h true p pending = .reached q) :
    v.trace h true p (pending ++ more) = v.trace h true q more := by
  induction pending generalizing p with
  | nil =>
    obtain rfl : p = q := Scanned.reached.inj hr
    rfl
  | cons c pending ih =>
    rw [List.cons_append]
    obtain ⟨p', hres, ⟨l, target, -, -, -, hs⟩ | ⟨hr, hnext⟩⟩ := trace_cons hr nofun
    · cases hs
    obtain ⟨e, hl, hshape⟩ | ⟨l, hl, hlink | ⟨-, -, hf⟩⟩ := hnext
    · rw [trace_through hres hl ⟨by simp [hshape.1], hshape.2⟩]
      exact ih hr
    · rw [trace_step hres hl hlink]
      exact ih hr
    · cases hf

theorem trace_append_link (hr : v.trace h true p pending = .atLink l rest) :
    v.trace h true p (pending ++ more) = .atLink l (rest ++ more) := by
  induction pending generalizing p with
  | nil => cases hr
  | cons c pending ih =>
    rw [List.cons_append]
    obtain ⟨p', hres, ⟨l', target, hl, hlink, -, hs⟩ | ⟨hr, hnext⟩⟩ := trace_cons hr nofun
    · obtain ⟨rfl, rfl⟩ := Scanned.atLink.inj hs
      exact trace_link hres hl hlink (Or.inr rfl)
    obtain ⟨e, hl, hshape⟩ | ⟨l', hl, hlink | ⟨-, -, hf⟩⟩ := hnext
    · rw [trace_through hres hl ⟨by simp [hshape.1], hshape.2⟩]
      exact ih hr
    · rw [trace_step hres hl hlink]
      exact ih hr
    · cases hf

theorem scan_more (hops : Nat) {r : VirtualPath}
    (hpend : ∀ c ∈ pending, Queued c) (hmore : ∀ c ∈ more, Queued c) (hp : v.Clear h p)
    (hscan : v.scan h true none p pending = .reached r) :
    v.targets h true hops p pending = [] ∧ v.Clear h r ∧
      v.scan h true none p (pending ++ more) = v.scan h true none r more := by
  have hall : ∀ c ∈ pending ++ more, Queued c := fun c hc =>
    (List.mem_append.1 hc).elim (hpend c) (hmore c)
  have htargets : v.targets h true hops p pending = [] := by
    cases hops with
    | zero => rfl
    | succ hops => rw [targets, hscan]
  rw [scan_eq_trace hpend hp cursorOn_none] at hscan
  have hclear := (trace_reached hpend hp hscan).2 rfl
  refine ⟨htargets, hclear, ?_⟩
  rw [scan_eq_trace hall hp cursorOn_none, scan_eq_trace hmore hclear cursorOn_none,
    trace_append hscan]

/-- **On from there.** A walk with more to look up goes on from where it would have arrived, with
the hops it has left. -/
theorem follow_more {path : VirtualPath} (path' : VirtualPath) {hops : Nat}
    (hs : ∀ t ∈ v.targets h true hops p pending, ∀ c ∈ t.components, Spelled c)
    (hpend : ∀ c ∈ pending, Queued c) (hmore : ∀ c ∈ more, Queued c) (hp : v.Clear h p)
    (hl : v.follow h path true hops p pending = .ok l) :
    ∃ k, v.follow h path' true hops p (pending ++ more) =
        v.follow h path' true k l.virtualPath more ∧ v.Clear h l.virtualPath ∧
      (v.targets h true hops p pending).length + k = hops ∧
      v.targets h true hops p (pending ++ more) =
        v.targets h true hops p pending ++ v.targets h true k l.virtualPath more := by
  have hall : ∀ c ∈ pending ++ more, Queued c := fun c hc =>
    (List.mem_append.1 hc).elim (hpend c) (hmore c)
  induction hops generalizing p pending with
  | zero =>
    cases hscan : v.scan h true none p pending with
    | failed e =>
      rw [follow_failed hscan] at hl
      cases hl
    | atLink l' rest =>
      rw [follow_atLink_zero hscan] at hl
      cases hl
    | reached r =>
      rw [follow_reached hscan] at hl
      obtain ⟨-, hclear, hsame⟩ := scan_more 0 hpend hmore hp hscan
      rw [← (locateExact_eq_ok.1 hl).2] at hclear hsame
      exact ⟨0, follow_congr hsame, hclear, rfl, targets_congr hsame⟩
  | succ hops ih =>
    cases hscan : v.scan h true none p pending with
    | failed e =>
      rw [follow_failed hscan] at hl
      cases hl
    | reached r =>
      rw [follow_reached hscan] at hl
      obtain ⟨htargets, hclear, hsame⟩ := scan_more (hops + 1) hpend hmore hp hscan
      rw [← (locateExact_eq_ok.1 hl).2] at hclear hsame
      refine ⟨hops + 1, follow_congr hsame, hclear, ?_, ?_⟩
      · rw [htargets]
        exact Nat.zero_add _
      · rw [htargets]
        exact targets_congr hsame
    | atLink l' rest =>
      rw [scan_eq_trace hpend hp cursorOn_none] at hscan
      obtain ⟨hl', habove, ⟨target, hlink⟩, hrest⟩ := trace_atLink hpend hp hscan
      have hlong : v.trace h true p (pending ++ more) = .atLink l' (rest ++ more) :=
        trace_append_link hscan
      rw [← scan_eq_trace hall hp cursorOn_none] at hlong
      rw [← scan_eq_trace hpend hp cursorOn_none] at hscan
      have htargets := targets_atLink hops hscan hl' hlink
      rw [htargets] at hs ⊢
      obtain ⟨hspell, hs⟩ := List.forall_mem_cons.1 hs
      have hpend' : ∀ c ∈ target.components ++ rest, Queued c := fun c hc =>
        (List.mem_append.1 hc).elim (queued_target hspell c) (hrest c)
      rw [follow_atLink_succ hscan, linkTarget_eq hl' hlink] at hl
      by_cases hutf : target.isUtf8 = true
      · rw [if_pos hutf] at hl
        dsimp only at hl
        obtain ⟨k, hk, hclear, hlen, heq⟩ := ih hs hpend' (clear_linkBase habove) hl
          fun c hc => (List.mem_append.1 hc).elim (hpend' c) (hmore c)
        refine ⟨k, ?_, hclear, ?_, ?_⟩
        · rw [follow_atLink_succ hlong, linkTarget_eq hl' hlink, if_pos hutf]
          dsimp only
          rw [← List.append_assoc, hk]
        · rw [List.length_cons]
          omega
        · rw [targets_atLink hops hlong hl' hlink, ← List.append_assoc, heq, List.cons_append]
      · rw [if_neg hutf] at hl
        cases hl

theorem targets_false_subset {hops : Nat}
    (hs : ∀ t ∈ v.targets h true hops p pending, ∀ c ∈ t.components, Spelled c)
    (hpend : ∀ c ∈ pending, Queued c) (hp : v.Clear h p) :
    v.targets h false hops p pending ⊆ v.targets h true hops p pending := by
  induction hops generalizing p pending with
  | zero => exact List.Subset.refl _
  | succ hops ih =>
    cases hscan : v.scan h false none p pending with
    | failed e =>
      rw [targets, hscan]
      exact List.nil_subset _
    | reached r =>
      rw [targets, hscan]
      exact List.nil_subset _
    | atLink l rest =>
      have htrace := hscan
      rw [scan_eq_trace hpend hp cursorOn_none] at htrace
      obtain ⟨hl, habove, ⟨target, hlink⟩, hrest⟩ := trace_atLink hpend hp htrace
      have htrue := trace_atLink_true htrace
      rw [← scan_eq_trace hpend hp cursorOn_none] at htrue
      rw [targets_atLink hops htrue hl hlink] at hs ⊢
      rw [targets_atLink hops hscan hl hlink]
      obtain ⟨hspell, hs⟩ := List.forall_mem_cons.1 hs
      exact List.cons_subset_cons _ (ih hs (fun c hc => (List.mem_append.1 hc).elim
        (queued_target hspell c) (hrest c)) (clear_linkBase habove))

/-! ## Handles -/

theorem openDir_eq_ok {d : Dir} (hs : v.SpelledWay h p true) : v.openDir p h = .ok d ↔
    ∃ l i, v.locate p true h = .ok l ∧
      (h.tree l.mount.dir.tree).node l.relative = some ⟨i, .dir⟩ ∧
      d = ⟨⟨l.mount.dir.tree, i⟩, l.mount.access.isWritable⟩ := by
  have hopen : v.openDir p h = v.locate p true h >>= fun l =>
      (dirAt l h).map fun inner => ⟨inner, l.mount.access.isWritable⟩ := by
    unfold Vfs.openDir locateDir locateFollow
    cases v.locate p true h with
    | error e => rfl
    | ok l => cases hdir : dirAt l h <;> simp [bind, Except.bind, Except.map, hdir]
  rw [hopen, except_bind_eq_ok]
  refine exists_congr fun l => ?_
  rw [exists_and_left]
  refine and_congr_right fun hl => ?_
  have hexact := exact_of_locate hl
  have hino := v.roots l.mount (mem_of_locate hl)
  have hlink : l.link h = none := by
    rw [← linkAt_of_exact hexact]
    exact (clear_of_spelledWay hs hl).2 rfl _ (List.prefix_refl _)
  have habove := (clear_of_spelledWay hs hl).1
  unfold dirAt
  by_cases hnil : l.relative = []
  · rw [if_pos hnil, hnil, (h.tree l.mount.dir.tree).root_eq]
    simp only [Except.map, Except.ok.injEq, Option.some.injEq, Node.mk.injEq, and_true,
      exists_eq_left']
    rw [← hino]
    exact eq_comm
  · rw [if_neg hnil]
    constructor
    · intro hd
      cases hi : l.mount.dir.openDir l.relative h with
      | error e =>
        rw [hi] at hd
        cases hd
      | ok inner =>
        rw [hi] at hd
        obtain rfl := Except.ok.inj hd
        obtain ⟨root, s, i, hroot, hs, hn, rfl⟩ := CapDir.openDir_eq_ok.1 hi
        obtain rfl := Option.some.inj (hroot.symm.trans (pathOf_root hexact))
        obtain rfl := eq_of_lookup habove hexact (fun _ => hlink) hs
        exact ⟨i, hn, rfl⟩
    · rintro ⟨i, hn, rfl⟩
      rw [CapDir.openDir_eq_ok.2 ⟨[], l.relative, i, pathOf_root hexact, lookup_of_present hexact
        hnil (Tree.isPresent_iff.2 ⟨_, hn⟩) fun _ => hlink, hn, rfl⟩]
      rfl

/-- Where a handle opened by a path is. -/
structure HandleAt (v : Vfs) (h : Host) (p : VirtualPath) (d : Dir) (l : Located) : Prop where
  locate : v.locate p true h = .ok l
  tree : d.inner.tree = l.mount.dir.tree
  path : (h.tree l.mount.dir.tree).pathOf d.inner.ino = some l.relative
  isDir : (h.tree l.mount.dir.tree).isDir l.relative = true
  writable : d.writable = l.mount.access.isWritable

theorem exists_handleAt {d : Dir} (hs : v.SpelledWay h p true) (hd : v.openDir p h = .ok d) :
    ∃ l, HandleAt v h p d l := by
  obtain ⟨l, i, hl, hn, rfl⟩ := (openDir_eq_ok hs).1 hd
  exact ⟨l, hl, rfl, Tree.pathOf_eq_some.2 hn, Tree.isDir_iff.2 ⟨i, hn⟩, rfl⟩

/-! ## A name in a directory -/

/-- Whether the host follows a name from the handle a path opens to where the namespace follows the
joined path: the grammar keeps the name, links are spelled and taken by the grammar, and what the
host passes is covered by no nested mount. -/
structure SureStep (v : Vfs) (h : Host) (p : VirtualPath) (n : OsStr) (q : VirtualPath) : Prop where
  spelled : Spelled n
  good : v.GoodWay h q
  skirts : ∀ l, v.locate p true h = .ok l → (h.tree l.mount.dir.tree).skirts (v.Covers l.mount) true
    maxSymlinks l.relative [n] = true
  hops : (v.targetsOf q true h).length < maxSymlinkHops ∨ ∀ l, v.locate p true h = .ok l →
    (h.tree l.mount.dir.tree).linkAt (l.relative ++ [n]) = none

variable {n : OsStr}

theorem component_eq_ok {n' : OsStr} : component n = .ok n' ↔
    n' = n ∧ n ≠ [] ∧ n ≠ dot ∧ n ≠ dotdot ∧ slash ∉ n ∧ OsChar.chr '\\' ∉ n := by
  unfold component
  split_ifs with hbad
  · simp only [false_iff]
    tauto
  · simp only [Except.ok.injEq]
    constructor
    · rintro rfl
      tauto
    · exact fun hn => hn.1.symm

theorem push_of_component {n' : OsStr} (hn : component n = .ok n') (hspell : Spelled n)
    (hq : p.resolve n = .ok q) : n' = n ∧ ∃ hc : IsComponent n, q = p.push n hc := by
  obtain ⟨rfl, hnil, hdot, hdotdot, hslash, -⟩ := component_eq_ok.1 hn
  obtain ⟨rfl, -⟩ | ⟨rfl, -⟩ | hpush := resolve_queued ⟨hnil, hslash, hspell⟩ hq
  · exact absurd rfl hdot
  · exact absurd rfl hdotdot
  · exact ⟨rfl, hpush⟩

/-- **A name and a path.** Where the host arrives by a name from the directory of `p`, the joined path
leads too. -/
theorem locate_of_child {hc : IsComponent n} {s : HostPath}
    (hs : v.SpelledWay h p true) (hl : v.locate p true h = .ok l)
    (hsure : SureStep v h p n (p.push n hc))
    (hwalk : (h.tree l.mount.dir.tree).walk l.relative true maxSymlinks l.relative [n] = .ok s) :
    ∃ q, v.locate (p.push n hc) true h = .ok ⟨l.mount, s, q⟩ := by
  have hexact := exact_of_locate hl
  have hwalk := Tree.walk_beneath (List.prefix_refl _) hwalk
  have hmore : ∀ c ∈ [n], Queued c := by simpa using hc.queued
  have hskirts := hsure.skirts l hl
  have hgood := hsure.good
  have hhops := hsure.hops
  rw [GoodWay, targetsOf, VirtualPath.components_push] at hgood
  rw [targetsOf, VirtualPath.components_push] at hhops
  obtain ⟨k, hfollow, hclear, hused, htargets⟩ := follow_more (p.push n hc) hs
    (fun c hc => (p.valid c hc).queued) hmore clear_root hl
  have hgood' : ∀ t ∈ v.targets h true k l.virtualPath [n], ¬ BadTarget t ∧
      ∀ c ∈ t.components, Spelled c := fun t ht =>
    hgood t (by rw [htargets]; exact List.mem_append_right _ ht)
  have hfilter : [n].filter (· ≠ []) = [n] := by simp [hc.ne_nil]
  rw [locate, VirtualPath.components_push, hfollow]
  rw [← hfilter] at hgood' ⊢
  have hcomps : ∀ c ∈ [n], c = [] ∨ Queued c := fun c hc => Or.inr (hmore c hc)
  have hgram : ∀ c ∈ [n], ¬ Ungrammatical c := by
    simpa using fun hbad : Ungrammatical n => hbad.2 hc
  rcases hhops with hlen | hlink
  · refine follow_of_walk (mem_of_locate hl) hcomps hgram (not_covers_of_exact hexact)
      (components_of_locateExact hexact) hclear hskirts hwalk hgood' (Or.inr ?_)
    rw [htargets, List.length_append] at hlen
    rw [hfilter]
    omega
  · -- there is no link to follow, so no hop is needed
    have hdescend : (h.tree l.mount.dir.tree).descend [] true l.relative [n] =
        .arrived (l.relative ++ [n]) := Tree.descend_unlinked_name hc.isPlain (hlink l hl)
    unfold maxSymlinks at hwalk hskirts
    rw [Tree.walk, hdescend] at hwalk
    rw [Tree.skirts, hdescend, Bool.and_true] at hskirts
    obtain rfl := Except.ok.inj hwalk
    have hskirts : (h.tree l.mount.dir.tree).skirts (v.Covers l.mount) true 0 l.relative [n] =
        true := by
      rw [Tree.skirts, hdescend, hskirts]
      rfl
    have hwalk : (h.tree l.mount.dir.tree).walk [] true 0 l.relative [n] =
        .ok (l.relative ++ [n]) := by
      rw [Tree.walk, hdescend]
    exact follow_of_walk (mem_of_locate hl) hcomps hgram (not_covers_of_exact hexact)
      (components_of_locateExact hexact) hclear hskirts hwalk hgood' (Or.inl (Nat.zero_le _))

/-- **Directories.** A handle opened by name is the one the joined path opens. -/
theorem openDir_of_child {d d' : Dir} (hs : v.SpelledWay h p true)
    (hd : v.openDir p h = .ok d) (hq : p.resolve n = .ok q) (hsure : SureStep v h p n q)
    (hn : d.openDir n h = .ok d') : v.openDir q h = .ok d' := by
  obtain ⟨l, hat⟩ := exists_handleAt hs hd
  obtain ⟨n', hname, hopen⟩ := except_bind_eq_ok.1 hn
  obtain ⟨rfl, hc, rfl⟩ := push_of_component hname hsure.spelled hq
  cases hi : d.inner.openDir [n'] h with
  | error e =>
    rw [hi] at hopen
    cases hopen
  | ok inner =>
    rw [hi] at hopen
    obtain rfl := Except.ok.inj hopen
    obtain ⟨root, s, i, hroot, hlook, hnode, rfl⟩ := CapDir.openDir_eq_ok.1 hi
    rw [hat.tree] at hroot hlook hnode
    obtain rfl := Option.some.inj (hroot.symm.trans hat.path)
    obtain ⟨q', hq'⟩ := locate_of_child hs hat.locate hsure (Tree.lookup_eq_ok.1 hlook).2.2
    refine (openDir_eq_ok hsure.good.spelled).2 ⟨_, i, hq', hnode, ?_⟩
    rw [hat.tree, hat.writable]

/-! ## Files -/

omit [Unicode] in
theorem openWith_congr {d d' : CapDir} {rel rel' : List OsStr} {root root' s : HostPath}
    {o : OpenOptions} {flags : OFlags} (ho : o.oflags = .ok flags) (ht : d.tree = d'.tree)
    (hroot : (h.tree d.tree).pathOf d.ino = some root)
    (hroot' : (h.tree d'.tree).pathOf d'.ino = some root')
    (hs : (h.tree d.tree).lookup root (Tree.followsFinal flags) rel = .ok s)
    (hs' : (h.tree d'.tree).lookup root' (Tree.followsFinal flags) rel' = .ok s) :
    d.openWith rel o h = d'.openWith rel' o h := by
  unfold CapDir.openWith
  rw [ho, check_ok_bind, check_ok_bind]
  unfold CapDir.openAs CapDir.call Op.change CapDir.ask
  dsimp only
  rw [hroot, hroot', ht]
  dsimp only
  rw [ht] at hs
  rw [Tree.openat_congr hs hs']
  cases (h.tree d'.tree).openat h.proc root' rel' flags o.mode with
  | error e => rfl
  | ok x =>
    obtain ⟨n, e⟩ := x
    cases e with
    | none => rfl
    | some e =>
      simp only [Except.map, CapDir.commit, ht]

omit [Unicode] in
theorem openWith_found {d : CapDir} {rel : List OsStr} {root : HostPath} {o : OpenOptions} {f : File}
    {h' : Host} (hroot : (h.tree d.tree).pathOf d.ino = some root)
    (hpath : o.customFlags.has .path = false) (htmp : o.customFlags.has .tmpfile = false)
    (hf : d.openWith rel o h = (.ok f, h')) : ∃ flags s, o.oflags = .ok flags ∧
      flags.accepted = true ∧ (h.tree d.tree).lookup root (Tree.followsFinal flags) rel = .ok s ∧
      (h.tree d.tree).lookup root true rel = .ok s := by
  unfold CapDir.openWith at hf
  cases ho : o.oflags with
  | error e =>
    rw [ho] at hf
    cases hf
  | ok flags =>
    rw [ho, check_ok_bind] at hf
    obtain ⟨e, hask, -⟩ := CapDir.call_eq_ok hf
    obtain ⟨⟨n, e'⟩, hn, -⟩ := CapDir.ask_map_eq_ok.1 hask
    obtain ⟨root', hroot', hopen⟩ := CapDir.ask_eq_ok.1 hn
    obtain rfl := Option.some.inj (hroot.symm.trans hroot')
    rw [← OpenOptions.has_oflags ho (Or.inr rfl)] at htmp
    rw [← OpenOptions.has_oflags ho (Or.inl rfl)] at hpath
    obtain ⟨s, hs, htrue, -⟩ := Tree.openat_named htmp hpath hopen
    refine ⟨flags, s, rfl, ?_, hs, htrue⟩
    unfold Tree.openat at hopen
    by_contra hacc
    rw [if_pos (by simpa using hacc)] at hopen
    cases hopen

section At

variable {α : Type} {op : Located → Op Host IoError α} {followFinal : Bool} {a : α} {h' : Host}
  {d : Located}

theorem at_of_walks (hd : v.locateExact p = .ok d) (hw : d.mount.shadowsNested = true ∨
    ∃ e, op d h = (.error e, h) ∧ e.kind = .permissionDenied)
    (hl : v.locate p followFinal h = .ok l) : v.at p followFinal op h = op l h := by
  have hcareful : v.careful p followFinal op h = op l h := read_bind_ok hl
  unfold Vfs.at
  rw [hd, check_ok_bind]
  split_ifs with hs
  · exact hcareful
  · obtain ⟨e, he, hk⟩ := hw.resolve_left hs
    rw [bind_ok (show (op d).attempt h = (.ok (.error e), h) by rw [attempt_apply, he])]
    dsimp only
    rw [if_pos hk]
    exact hcareful

theorem at_of_ok (hd : v.locateExact p = .ok d) (hs : d.mount.shadowsNested = false)
    (hop : op d h = (.ok a, h')) : v.at p followFinal op h = (.ok a, h') := by
  unfold Vfs.at
  rw [hd, check_ok_bind, if_neg (by simp [hs]),
    bind_ok (show (op d).attempt h = (.ok (.ok a), h') by rw [attempt_apply, hop])]
  rfl

end At

/-- Whether opening a path leads where the walk of it leads, and is not refused for a final link:
the one step beneath the mount is not taken or refused, and the path is no mount's root, or the host
arrives by it. -/
structure SureOpen (v : Vfs) (h : Host) (q : VirtualPath) (mode : OpenMode) : Prop where
  named : mode.opensNamed = true
  unrefused : mode.nofollow = true → (v.isSymlink q h).1 = .ok false
  steps : ∀ e, v.locateExact q = .ok e →
    ((e.mount.shadowsNested = true ∨ ∃ err, err.kind = .permissionDenied ∧
        (h.tree e.mount.dir.tree).lookup [] false e.relative = .error err) ∧
      ∀ l, v.locate q true h = .ok l → l.relative ≠ []) ∨
    (e.mount.shadowsNested = false ∧ v.ClearAbove h e.mount.at ∧
      ∃ s, (h.tree e.mount.dir.tree).lookup [] true e.relative = .ok s)

theorem openAt_refused {e : Located} {mode : OpenMode} {flags : OFlags} {err : IoError}
    (he : v.locateExact q = .ok e) (ho : mode.toCapStd.oflags = .ok flags)
    (hacc : flags.accepted = true) (herr : err.kind = .permissionDenied)
    (hl : (h.tree e.mount.dir.tree).lookup [] false e.relative = .error err) :
    ∃ err, openAt mode e h = (.error err, h) ∧ err.kind = .permissionDenied := by
  have hlook : (h.tree e.mount.dir.tree).lookup [] (Tree.followsFinal flags) e.relative =
      .error err := by
    cases hff : Tree.followsFinal flags with
    | false => exact hl
    | true =>
      rcases (h.tree e.mount.dir.tree).lookup_false_cases [] e.relative with hsame | ⟨s, hs⟩
      · rw [← hsame, hl]
      · rw [hs] at hl
        cases hl
  unfold openAt
  split_ifs with hro
  · exact ⟨_, rfl, rfl⟩
  · refine ⟨err, ?_, herr⟩
    unfold CapDir.openWith
    rw [ho, check_ok_bind]
    unfold CapDir.openAs CapDir.call CapDir.ask
    refine change_error ?_
    dsimp only
    rw [pathOf_root he]
    dsimp only
    rw [Tree.openat, if_neg (by simp [hacc]), hlook]
    rfl

theorem hostWalk_of_name {hc : IsComponent n} {e : Located} {s₂ : HostPath}
    (hl : v.locate p true h = .ok l) (hgood : v.GoodWay h (p.push n hc))
    (hcover : ¬ v.Covers l.mount (l.relative ++ [n])) (he : v.locateExact (p.push n hc) = .ok e)
    (hm : e.mount = l.mount) (hplain : e.mount.shadowsNested = false)
    (habove : v.ClearAbove h e.mount.at) (hs₂ : hostWalk h e.mount false e.relative = .ok s₂) :
    s₂ = l.relative ++ [n] := by
  have hvirtual := components_of_locateExact (exact_of_locate hl)
  have hfalse : v.locate (p.push n hc) false h =
      .ok ⟨l.mount, l.relative ++ [n], l.virtualPath.push n hc⟩ := by
    rw [locate_push hl]
    refine exact_of_not_covers (mem_of_locate hl) hcover ?_
    rw [VirtualPath.components_push, hvirtual, List.append_assoc]
  have hspelled : v.SpelledWay h (p.push n hc) false := fun t ht =>
    hgood.spelled t (targets_false_subset hgood.spelled
      (fun c hc => ((p.push n _).valid c hc).queued) clear_root ht)
  have hout := locate_outcome (mem_of_locateExact he) hplain habove (components_of_locateExact he)
    hspelled
  rw [hfalse, show (h.tree e.mount.dir.tree).walk [] false maxSymlinkHops [] e.relative = .ok s₂
    from hs₂, hm] at hout
  cases hout with
  | same _ => rfl

/-- **Files.** What a handle opens by name is what the joined path opens. -/
theorem openWith_of_child {d : Dir} {mode : OpenMode} {f : File} {h' : Host}
    (hs : v.SpelledWay h p true) (hd : v.openDir p h = .ok d) (hq : p.resolve n = .ok q)
    (hsure : SureStep v h p n q) (hopen : SureOpen v h q mode)
    (hf : d.openFile n mode h = (.ok f, h')) : v.openWith q mode h = (.ok f, h') := by
  obtain ⟨l, hat⟩ := exists_handleAt hs hd
  unfold Dir.openFile at hf
  cases hname : component n with
  | error e =>
    rw [hname] at hf
    cases hf
  | ok n' =>
    obtain ⟨rfl, hc, rfl⟩ := push_of_component hname hsure.spelled hq
    rw [hname, check_ok_bind] at hf
    split_ifs at hf with hro
    · cases hf
    have hnamed := hopen.named
    unfold OpenMode.opensNamed at hnamed
    rw [Bool.and_eq_true, Bool.not_eq_true', Bool.not_eq_true'] at hnamed
    have hroot : (h.tree d.inner.tree).pathOf d.inner.ino = some l.relative := by
      rw [hat.tree, hat.path]
    obtain ⟨flags, s, ho, hacc, hlook, htrue⟩ := openWith_found hroot
      (by rw [OpenMode.has_toCapStd (Or.inl rfl), hnamed.1])
      (by rw [OpenMode.has_toCapStd (Or.inr rfl), hnamed.2]) hf
    obtain ⟨q', hq'⟩ := locate_of_child hs hat.locate hsure
      (by rw [← hat.tree]; exact (Tree.lookup_eq_ok.1 htrue).2.2)
    have hunrefused : v.refusesLink (p.push n' hc) mode h = (.ok false, h) := by
      unfold refusesLink
      split_ifs with hnf
      · exact Prod.ext (hopen.unrefused hnf) (reads_isSymlink h)
      · rfl
    unfold Vfs.openWith
    rw [bind_ok hunrefused, if_neg (by simp)]
    -- the location the joined path is opened at, and how its last link is taken there
    have hlands : ∀ e : Located, e.mount = l.mount →
        (h.tree l.mount.dir.tree).lookup [] (Tree.followsFinal flags) e.relative = .ok s →
        openAt mode e h = (.ok f, h') := by
      intro e hm hs
      unfold openAt
      rw [hm, if_neg (by rw [← hat.writable, Bool.and_comm]; exact hro), ← hf]
      refine openWith_congr ho hat.tree.symm (pathOf_root (exact_of_locate hat.locate)) hroot hs ?_
      exact hlook
    cases he : v.locateExact (p.push n' hc) with
    | error e =>
      obtain ⟨e', he'⟩ := locate_of_ungoverned (h := h) he
      rw [he'] at hq'
      cases hq'
    | ok e =>
      rcases hopen.steps e he with ⟨hcareful, hne⟩ | ⟨hplain, habove, s', hs'⟩
      · rw [at_of_walks he (hcareful.imp_right (Exists.elim · fun err h =>
          openAt_refused he ho hacc h.1 h.2)) hq']
        have hexact := exact_of_locate hq'
        have hne := hne _ hq'
        have hparent := Tree.walk_parent hat.isDir
          (by rw [← hat.tree]; exact (Tree.lookup_eq_ok.1 htrue).2.2)
        obtain ⟨dir, c, rfl⟩ : ∃ dir c, s = dir ++ [c] :=
          ⟨_, _, (List.dropLast_concat_getLast hne).symm⟩
        rw [List.dropLast_concat] at hparent
        have hcomp := fun c hc => isComponent_of_exact hexact (c := c) hc
        have hlink := (clear_of_spelledWay hsure.good.spelled hq').2 rfl q' (List.prefix_refl _)
        rw [linkAt_of_exact hexact] at hlink
        refine hlands _ rfl (Tree.lookup_eq_ok.2 ⟨by simp, no_nul_of_exact hexact, ?_⟩)
        exact Tree.walk_in_dir (fun c hc => (hcomp c (List.mem_append_left _ hc)).isPlain)
          (hcomp c (by simp)).isPlain hparent fun _ => hlink
      · obtain ⟨q'', hq''⟩ := locate_of_direct he hplain habove hsure.good
          (Tree.lookup_eq_ok.1 hs').2.2
        obtain ⟨hm, rfl, -⟩ := Located.mk.inj (Except.ok.inj (hq''.symm.trans hq'))
        refine at_of_ok he hplain (hlands e hm ?_)
        rw [hm] at hs'
        cases hff : Tree.followsFinal flags with
        | true => exact hs'
        | false =>
          rcases (h.tree l.mount.dir.tree).lookup_false_cases [] e.relative with hsame | ⟨s₂, hs₂⟩
          · rw [hsame, hs']
          · have hskirts := hsure.skirts l hat.locate
            rw [maxSymlinks, Tree.skirts, Bool.and_eq_true] at hskirts
            have hcover := Tree.not_of_skirtsPlain hc.isPlain hskirts.1
            rw [hff] at hlook
            rw [hat.tree] at hlook
            obtain rfl := Tree.eq_of_lookup_name hc.isPlain hlook
            have hwalk : hostWalk h e.mount false e.relative = .ok s₂ := by
              rw [hostWalk, hm]
              exact (Tree.lookup_eq_ok.1 hs₂).2.2
            rw [hs₂, hostWalk_of_name hat.locate hsure.good hcover he hm hplain habove hwalk]

/-! ## Chains of names -/

/-- The handle a chain of names opens from `d`, one from the other. -/
def Dir.openDirs (d : Dir) (names : List OsStr) (h : Host) : Except IoError Dir :=
  names.foldlM (fun d n => d.openDir n h) d

def joined (p : VirtualPath) (names : List OsStr) : Except PathError VirtualPath :=
  names.foldlM VirtualPath.resolve p

variable (v h) in
/-- Whether every name of a chain is kept by the grammar and followed alike by both. -/
def SureSteps : VirtualPath → List OsStr → Prop
  | _, [] => True
  | p, n :: names => ∃ q, p.resolve n = .ok q ∧ SureStep v h p n q ∧ SureSteps q names

/-- **A chain of handles.** It ends at the handle the joined path opens. -/
theorem openDirs_joined {d d' : Dir} {names : List OsStr} (hs : v.SpelledWay h p true)
    (hd : v.openDir p h = .ok d) (hsure : v.SureSteps h p names)
    (hd' : d.openDirs names h = .ok d') :
    ∃ q, joined p names = .ok q ∧ v.openDir q h = .ok d' ∧ v.SpelledWay h q true := by
  induction names generalizing p d with
  | nil =>
    obtain rfl := Except.ok.inj hd'
    exact ⟨p, rfl, hd, hs⟩
  | cons n names ih =>
    obtain ⟨q, hq, hstep, hrest⟩ := hsure
    rw [Dir.openDirs, List.foldlM_cons] at hd'
    obtain ⟨d₁, hn, hd'⟩ := except_bind_eq_ok.1 hd'
    obtain ⟨r, hr, hopen⟩ := ih hstep.good.spelled (openDir_of_child hs hd hq hstep hn) hrest hd'
    refine ⟨r, ?_, hopen⟩
    rw [joined, List.foldlM_cons]
    exact except_bind_eq_ok.2 ⟨q, hq, hr⟩

end Seahaven.Vfs
