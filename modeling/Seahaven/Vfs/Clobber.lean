import Seahaven.Vfs.Listing
import Seahaven.Vfs.Chain

/-!
# Opening without clobbering

`guardedMode` opens what is not a regular file, and creates where the check found one. It spares the
regular files that are there exactly where the check and the open look at the same place, which
they do unless the path is in a read-only mount by its spelling and the walk leads out of it.
-/

namespace Seahaven.Vfs

open Host OsStr Op

/-- `OpenMode::default`. -/
def OpenMode.default : OpenMode :=
  ⟨false, false, false, false, false, false, false, false, none, 0⟩

/-- The mode of `>` under `noclobber`, by whether the check found a regular file. -/
def guardedMode (isFile : Bool) : OpenMode :=
  (if !isFile then OpenMode.default.withCreate true
    else OpenMode.default.withCreateNew true).withWrite true

def IsRegular (t : Tree) (n : Node) : Prop := n.kind = .file ∧ ∃ p, t.node p = some n

def Spares (h h' : Host) (f : File) : Prop :=
  (∀ i n, IsRegular (h.tree i) n → (h'.tree i).attr n.ino = (h.tree i).attr n.ino) ∧
    ¬ IsRegular (h.tree f.dev) f.node

variable [Unicode]

def RegularAt (l : Located) (h : Host) : Prop :=
  ∃ root p i, (h.tree l.mount.dir.tree).pathOf l.mount.dir.ino = some root ∧
    (h.tree l.mount.dir.tree).lookup root true l.relative = .ok p ∧
    (h.tree l.mount.dir.tree).node p = some ⟨i, .file⟩

section Guarded

variable {l : Located} {h h' : Host} {f : File} {isFile : Bool}

/-- What `facts` reads at a location. -/
def look (l : Located) (h : Host) : Except IoError FileFacts := (factsAt true l h).1

theorem look_regular : (∃ m, look l h = .ok m ∧ m.isFile = true) ↔ RegularAt l h := by
  unfold look factsAt RegularAt
  simp only [read_apply, if_true]
  split_ifs with hnil
  · constructor
    · rintro ⟨m, hm, hfile⟩
      obtain rfl := Except.ok.inj hm
      cases hfile
    · rintro ⟨root, p, i, -, hp, -⟩
      exact absurd hnil (Tree.lookup_eq_ok.1 hp).1
  · constructor
    · rintro ⟨m, hm, hfile⟩
      obtain ⟨d, hd, rfl⟩ := except_map_eq_ok.1 hm
      obtain ⟨root, p, ⟨i, k⟩, hroot, hp, hn, rfl⟩ := CapDir.statWith_eq_ok.1 hd
      obtain rfl : k = .file := by simpa [FileFacts.ofMetadata, Metadata.isFile] using hfile
      exact ⟨root, p, i, hroot, hp, hn⟩
    · rintro ⟨root, p, i, hroot, hp, hn⟩
      refine ⟨_, except_map_eq_ok.2 ⟨_, CapDir.statWith_eq_ok.2 ⟨root, p, _, hroot, hp, hn, rfl⟩,
        rfl⟩, ?_⟩
      simp [FileFacts.ofMetadata, Metadata.isFile]

omit [Unicode] in
theorem oflags_guarded (isFile : Bool) : ∃ flags, (guardedMode isFile).toCapStd.oflags = .ok flags ∧
    flags.accepted = true ∧ flags.has .creat = true ∧ flags.has .excl = isFile ∧
    flags.has .trunc = false ∧ flags.has .path = false ∧ flags.has .tmpfile = false ∧
    flags.has .directory = false ∧ Tree.followsFinal flags = !isFile := by
  cases isFile
  · exact ⟨_, rfl, by decide, by decide, by decide, by decide, by decide, by decide, by decide,
      by decide⟩
  · exact ⟨_, rfl, by decide, by decide, by decide, by decide, by decide, by decide, by decide,
      by decide⟩

/-- **A guarded open** opens what its path leads to, where the check found no regular file, or makes
a new file there. -/
theorem openAt_guarded (hf : openAt (guardedMode isFile) l h = (.ok f, h')) :
    l.mount.access.isWritable = true ∧ f.dev = l.mount.dir.tree ∧
    ((isFile = false ∧ h' = h ∧ ∃ root p, (h.tree f.dev).pathOf l.mount.dir.ino = some root ∧
        (h.tree f.dev).lookup root true l.relative = .ok p ∧
        (h.tree f.dev).node p = some f.node) ∨
      (f.node.ino = (h.tree f.dev).next ∧ ∃ t, h' = h.set f.dev t ∧
        (∀ root p, (h.tree f.dev).pathOf l.mount.dir.ino = some root →
          (h.tree f.dev).lookup root true l.relative = .ok p → (h.tree f.dev).node p = none) ∧
        ∀ j, j ≠ (h.tree f.dev).next → t.attr j = (h.tree f.dev).attr j)) := by
  obtain ⟨flags, ho, hacc, hcreat, hexcl, htrunc, hpath, htmp, hdir, hfollow⟩ :=
    oflags_guarded isFile
  unfold openAt at hf
  split_ifs at hf with hro
  · cases hf
  · have hw : l.mount.access.isWritable = true := by
      cases hm : l.mount.access.isWritable with
      | true => rfl
      | false =>
        refine absurd ?_ hro
        rw [hm]
        cases isFile <;> rfl
    unfold CapDir.openWith at hf
    rw [ho, check_ok_bind] at hf
    obtain ⟨e, hask, hcommit⟩ := CapDir.call_eq_ok hf
    obtain ⟨⟨n, e'⟩, hn, heq⟩ := CapDir.ask_map_eq_ok.1 hask
    obtain ⟨root, hroot, hopen⟩ := CapDir.ask_eq_ok.1 hn
    obtain ⟨rfl, rfl⟩ := Prod.mk.inj heq
    refine ⟨hw, rfl, ?_⟩
    obtain ⟨p, hp, hp', ⟨hnode, he⟩ | ⟨hnone, rfl, dir, name, a, rfl, rfl⟩⟩ :=
      Tree.openat_named htmp hpath hopen
    · have hfound : isFile = false := by
        rw [Tree.openat, hacc, hp] at hopen
        simp only [Bool.not_true, Bool.false_eq_true, if_false] at hopen
        rw [hnode] at hopen
        dsimp only at hopen
        rw [Tree.openFound, hcreat, hexcl] at hopen
        cases isFile with
        | false => rfl
        | true => cases hopen
      refine Or.inl ⟨hfound, ?_, root, p, hroot, hp', hnode⟩
      rcases he with rfl | ⟨a, rfl⟩
      · rcases hcommit with ⟨-, hsame⟩ | ⟨_, _, h, _⟩
        · exact hsame
        · cases h
      · obtain ⟨-, q, -, ⟨-, -, dir, name, -, hadd⟩ | ⟨ht, -⟩⟩ := Tree.openat_eq_ok hopen
        · cases hadd
        · rw [htrunc] at ht
          cases ht
    · obtain ⟨hno, -⟩ | ⟨e₁, t, he₁, ht, rfl⟩ := hcommit
      · cases hno
      · obtain rfl := Option.some.inj he₁
        refine Or.inr ⟨rfl, t, rfl, ?_, ?_⟩
        · intro root' q hroot' hq
          obtain rfl := Option.some.inj (hroot.symm.trans hroot')
          obtain rfl := Except.ok.inj (hp'.symm.trans hq)
          exact hnone
        · intro j hj
          rw [(Tree.apply_add ht).2.2, if_neg hj]

theorem spares_of_openAt (hf : openAt (guardedMode isFile) l h = (.ok f, h')) :
    Spares h h' f ↔ (isFile = true ∨ ¬ RegularAt l h) := by
  obtain ⟨-, hdev, hcase⟩ := openAt_guarded hf
  rw [RegularAt, ← hdev]
  obtain ⟨rfl, rfl, root, p, hroot, hp, hn⟩ | ⟨hino, t, rfl, hmissing, hattr⟩ := hcase
  · rw [Spares, and_iff_right fun _ _ _ => rfl]
    simp only [Bool.false_eq_true, false_or, not_iff_not]
    constructor
    · rintro ⟨hkind, -⟩
      exact ⟨root, p, f.node.ino, hroot, hp, by rw [hn, ← hkind]⟩
    · rintro ⟨root', p', i, hroot', hp', hn'⟩
      obtain rfl := Option.some.inj (hroot.symm.trans hroot')
      obtain rfl := Except.ok.inj (hp.symm.trans hp')
      exact ⟨by rw [Option.some.inj (hn.symm.trans hn')], p, hn⟩
  · refine iff_of_true ⟨?_, ?_⟩ (Or.inr ?_)
    · rintro i n ⟨-, q, hq⟩
      by_cases hi : i = f.dev
      · subst hi
        rw [tree_set_self, hattr n.ino ((h.tree f.dev).lt_next q n hq).ne]
      · rw [tree_set_of_ne hi]
    · rintro ⟨-, q, hq⟩
      have hlt := (h.tree f.dev).lt_next q _ hq
      omega
    · rintro ⟨root, p, i, hroot, hp, hn⟩
      rw [hmissing root p hroot hp] at hn
      cases hn

end Guarded

/-! ## The check and the open -/

section Check

variable {v : Vfs} {h h' : Host} {path : VirtualPath} {f : File}

theorem facts_answer : (v.facts path true h).1 = .ok (v.answer path true look h).toOption := rfl

/-- The path is in a read-only mount by its spelling, where the check finds something else than a
regular file and is not refused, and the walk of the path leads to a regular file of a mount that
can be written. -/
def LooksElsewhere (v : Vfs) (h : Host) (path : VirtualPath) : Prop :=
  ∃ d l, v.locateExact path = .ok d ∧ d.mount.shadowsNested = false ∧
    d.mount.access.isWritable = false ∧ ¬ RegularAt d h ∧
    (∀ e, look d h = .error e → e.kind ≠ .permissionDenied) ∧
    v.locate path true h = .ok l ∧ l.mount.access.isWritable = true ∧ RegularAt l h

theorem openWith_guarded {isFile : Bool}
    (hf : v.openWith path (guardedMode isFile) h = (.ok f, h')) :
    ∃ l, openAt (guardedMode isFile) l h = (.ok f, h') ∧
      ((v.locateExact path = .ok l ∧ l.mount.shadowsNested = false) ∨
        (Walks v path (openAt (guardedMode isFile)) h ∧ v.locate path true h = .ok l)) := by
  have hat : v.at path true (openAt (guardedMode isFile)) h = (.ok f, h') := by
    have hno : v.refusesLink path (guardedMode isFile) = pure false := by
      cases isFile <;> rfl
    rw [Vfs.openWith, hno, bind_ok (pure_apply _ _)] at hf
    exact hf
  have hcareful : v.careful path true (openAt (guardedMode isFile)) h = (.ok f, h') →
      ∃ l, openAt (guardedMode isFile) l h = (.ok f, h') ∧ v.locate path true h = .ok l := by
    intro hc
    cases hl : v.locate path true h with
    | error e =>
      rw [careful, read_bind_error hl] at hc
      cases hc
    | ok l =>
      rw [careful, read_bind_ok hl] at hc
      exact ⟨l, hc, rfl⟩
  unfold Vfs.at at hat
  cases hd : v.locateExact path with
  | error e =>
    rw [hd, check_error_bind] at hat
    cases hat
  | ok d =>
    rw [hd, check_ok_bind] at hat
    split_ifs at hat with hs
    · obtain ⟨l, hop, hl⟩ := hcareful hat
      exact ⟨l, hop, Or.inr ⟨⟨d, hd, Or.inl hs⟩, hl⟩⟩
    · cases hop : openAt (guardedMode isFile) d h with
      | mk r h₁ =>
        rw [bind_ok (show (openAt (guardedMode isFile) d).attempt h = (.ok r, h₁) by
          rw [attempt_apply, hop])] at hat
        cases r with
        | ok a => exact ⟨d, hop.trans hat, Or.inl ⟨rfl, by simpa using hs⟩⟩
        | error e =>
          obtain rfl : h₁ = h := by
            have hkeep : (openAt (guardedMode isFile) d h).2 = h :=
              openAt_error (e := e) (by rw [hop])
            rwa [hop] at hkeep
          dsimp only at hat
          split_ifs at hat with hk
          · obtain ⟨l, hop', hl⟩ := hcareful hat
            exact ⟨l, hop', Or.inr ⟨⟨d, hd, Or.inr ⟨e, by rw [hop], hk⟩⟩, hl⟩⟩
          · cases hat

omit [Unicode] in
theorem kind_of_apply {t : Tree} {edit : Edit} {e : IoError} (he : t.apply edit = .error e) :
    e.kind ≠ .permissionDenied := by
  cases edit with
  | add | move =>
    simp only [Tree.apply] at he
    split_ifs at he
    obtain rfl := Except.error.inj he
    decide
  | «alias» =>
    simp only [Tree.apply] at he
    split at he
    · obtain rfl := Except.error.inj he
      decide
    · split_ifs at he
      obtain rfl := Except.error.inj he
      decide
  | prune | set => cases he

omit [Unicode] in
theorem lookup_of_denied {t : Tree} {proc : Proc} {root : HostPath} {rel : List OsStr}
    {flags : OFlags} {mode : Nat} {e : IoError} (hacc : flags.accepted = true)
    (he : t.openat proc root rel flags mode = .error e) (hk : e.kind = .permissionDenied) :
    t.lookup root true rel = .error e := by
  have hno : ∀ x : Errno, e = .os x → x.kind ≠ .permissionDenied → False := by
    rintro x rfl hx
    exact hx hk
  rw [Tree.openat, hacc] at he
  simp only [Bool.not_true, Bool.false_eq_true, if_false] at he
  cases hp : t.lookup root (Tree.followsFinal flags) rel with
  | error err =>
    rw [hp] at he
    obtain rfl := Except.error.inj he
    cases hff : Tree.followsFinal flags with
    | true => rwa [hff] at hp
    | false =>
      rw [hff] at hp
      rcases t.lookup_false_cases root rel with hsame | ⟨s, hs⟩
      · rw [← hsame, hp]
      · rw [hs] at hp
        cases hp
  | ok p =>
    rw [hp] at he
    dsimp only at he
    exfalso
    cases hn : t.node p with
    | none =>
      rw [hn] at he
      dsimp only at he
      unfold Tree.openMissing at he
      split at he
      · split at he
        · cases he
        · exact hno _ (Except.error.inj he).symm (by decide)
      · exact hno _ (Except.error.inj he).symm (by decide)
    | some n =>
      rw [hn] at he
      dsimp only at he
      unfold Tree.openFound at he
      split at he
      · exact hno _ (Except.error.inj he).symm (by decide)
      · split at he <;> split_ifs at he <;>
          exact hno _ (Except.error.inj he).symm (by decide)

/-- The direct try of a guarded open is refused for the mount's access, or where the check is refused
as well. -/
theorem refused_of_openAt {d : Located} {isFile : Bool} {e : IoError}
    (he : (openAt (guardedMode isFile) d h).1 = .error e) (hk : e.kind = .permissionDenied) :
    d.mount.access.isWritable = false ∨ look d h = .error e := by
  obtain ⟨flags, ho, hacc, -⟩ := oflags_guarded isFile
  unfold openAt at he
  split_ifs at he with hro
  · exact Or.inl (by simpa using (Bool.and_eq_true_iff.1 hro).1)
  · right
    unfold CapDir.openWith at he
    rw [ho, check_ok_bind] at he
    unfold CapDir.openAs CapDir.call Op.change CapDir.ask at he
    cases hroot : (h.tree d.mount.dir.tree).pathOf d.mount.dir.ino with
    | none =>
      simp only [hroot] at he
      obtain rfl := Except.error.inj he
      cases hk
    | some root =>
      simp only [hroot] at he
      cases hopen : (h.tree d.mount.dir.tree).openat h.proc root d.relative flags
          (guardedMode isFile).toCapStd.mode with
      | error err =>
        simp only [hopen, Except.map] at he
        obtain rfl := Except.error.inj he
        have hl := lookup_of_denied hacc hopen hk
        have hrel : d.relative ≠ [] := by
          intro hnil
          rw [hnil] at hl
          obtain rfl := Except.error.inj hl
          cases hk
        simp only [look, factsAt, read_apply, if_neg hrel, if_true, CapDir.metadata,
          CapDir.statWith, CapDir.ask, hroot, Tree.stat, hl]
        rfl
      | ok x =>
        obtain ⟨n, edit⟩ := x
        simp only [hopen, Except.map, CapDir.commit] at he
        cases edit with
        | none => cases he
        | some edit =>
          cases ht : (h.tree d.mount.dir.tree).apply edit with
          | error err =>
            simp only [ht] at he
            obtain rfl := Except.error.inj he
            exact absurd hk (kind_of_apply ht)
          | ok t =>
            simp only [ht] at he
            cases he

theorem checked {x : Option FileFacts} (hx : (v.facts path true h).1 = .ok x) :
    x.any FileFacts.isFile = true ↔ ∃ l, v.AnsweredAt h path true look l ∧ RegularAt l h := by
  rw [facts_answer] at hx
  obtain rfl := Except.ok.inj hx
  rw [Option.any_eq_true]
  constructor
  · rintro ⟨m, hm, hfile⟩
    obtain ⟨l, hl, hask⟩ := answer_eq_ok.1 (toOption_eq_some.1 hm)
    exact ⟨l, hl, look_regular.1 ⟨m, hask, hfile⟩⟩
  · rintro ⟨l, hl, hreg⟩
    obtain ⟨m, hask, hfile⟩ := look_regular.2 hreg
    exact ⟨m, toOption_eq_some.2 (answer_eq_ok.2 ⟨l, hl, hask⟩), hfile⟩

/-- **The check and the open.** A guarded open spares the regular files there are unless the check
looked elsewhere. -/
theorem spares_iff {x : Option FileFacts} (hx : (v.facts path true h).1 = .ok x)
    (hf : v.openWith path (guardedMode (x.any FileFacts.isFile)) h = (.ok f, h')) :
    Spares h h' f ↔ ¬ LooksElsewhere v h path := by
  obtain ⟨l, hop, hl⟩ := openWith_guarded hf
  have hw := (openAt_guarded hop).1
  rw [spares_of_openAt hop, checked hx, iff_not_comm, not_or, not_not, not_exists]
  constructor
  · rintro ⟨d, l₁, hd, hflat, hro, hnot, hlook, hl₁, hw₁, hreg⟩
    have hloc : l = l₁ := by
      obtain ⟨hd', -⟩ | ⟨-, hl⟩ := hl
      · obtain rfl := Except.ok.inj (hd.symm.trans hd')
        rw [hro] at hw
        cases hw
      · exact Except.ok.inj (hl.symm.trans hl₁)
    refine ⟨?_, hloc ▸ hreg⟩
    rintro l' ⟨hans, hreg'⟩
    cases hans with
    | direct hd' _ _ =>
      obtain rfl := Except.ok.inj (hd.symm.trans hd')
      exact hnot hreg'
    | walked d' hd' hs _ =>
      obtain rfl := Except.ok.inj (hd.symm.trans hd')
      rcases hs with hs | ⟨e, he, hk⟩
      · rw [hflat] at hs
        cases hs
      · exact hlook e he hk
  · rintro ⟨hnone, hreg⟩
    have hdirect : ∀ {d}, v.locateExact path = .ok d → d.mount.shadowsNested = false →
        ¬ RegularAt d h := by
      intro d hd hflat hreg'
      obtain ⟨m, hm, -⟩ := look_regular.2 hreg'
      have hlook : ∀ e, look d h = .error e → e.kind ≠ .permissionDenied := by simp [hm]
      exact hnone d ⟨.direct hd hflat hlook, hreg'⟩
    obtain ⟨hd, hflat⟩ | ⟨⟨d, hd, hwalks⟩, hl⟩ := hl
    · exact absurd hreg (hdirect hd hflat)
    · have hstay : ¬ (d.mount.shadowsNested = true ∨
          ∃ e, look d h = .error e ∧ e.kind = .permissionDenied) :=
        fun hs => hnone l ⟨.walked d hd hs hl, hreg⟩
      rw [not_or, Bool.not_eq_true] at hstay
      obtain ⟨hflat, hlook⟩ := hstay
      obtain ⟨e, he, hk⟩ := hwalks.resolve_left (by simp [hflat])
      have hro := (refused_of_openAt he hk).resolve_right fun he' => hlook ⟨e, he', hk⟩
      exact ⟨d, l, hd, hflat, hro, hdirect hd hflat, fun e he hk => hlook ⟨e, he, hk⟩, hl, hw,
        hreg⟩

end Check

end Seahaven.Vfs
