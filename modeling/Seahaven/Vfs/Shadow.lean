import Seahaven.Vfs.Effects

/-!
# What a nested mount shadows

A mount point nested in another mount stands for its own directory; what the outer mount's host
directory holds at or beneath that point has no virtual path. `Covers` is the set of those paths.

1. No location lies in it, and no walk to a location leads into it.
2. A request that moves and removes no directory over it, and follows no link into it after the
   location has been found, leaves what is there where and as it is.
-/

namespace Seahaven.Vfs

open Host OsStr Op

variable [Unicode]

variable (v : Vfs)

/-- Whether `p` in the directory of `m` lies at or beneath the point of a mount nested in `m`. -/
def Covers (m : Mount) (p : HostPath) : Prop :=
  ∃ m' ∈ v.table.mounts, m'.at ≠ m.at ∧ m.at.components <+: m'.at.components ∧
    m'.at.components <+: m.at.components ++ p

instance (m : Mount) (p : HostPath) : Decidable (v.Covers m p) :=
  inferInstanceAs (Decidable (∃ m' ∈ v.table.mounts, _))

/-- Whether the inode `i` is an object of the directory of `m` that nested mounts shadow: they cover
every name it has. -/
def Shadows (h : Host) (m : Mount) (i : Nat) : Prop := (h.tree m.dir.tree).Hides (v.Covers m) i

/-- Whether a virtual path resolves to the inode `i` of the directory of `m`: it names it, or the
host follows it there. -/
def Reaches (h : Host) (path : VirtualPath) (m : Mount) (i : Nat) : Prop :=
  ∃ followFinal l p n, v.locate path followFinal h = .ok l ∧ l.mount = m ∧
    (p = l.relative ∨ (h.tree m.dir.tree).lookup [] followFinal l.relative = .ok p) ∧
    (h.tree m.dir.tree).node p = some n ∧ n.ino = i

variable {v} {h : Host} {m : Mount} {p : HostPath} {l : Located}

variable {path : VirtualPath}

theorem not_covers_of_exact (hl : v.locateExact path = .ok l) :
    ¬ v.Covers l.mount l.relative := by
  rintro ⟨m', hm', hne, hover, hpre⟩
  have hres := MountTable.resolve_eq_some.1 (locateExact_eq_ok.1 hl).1
  rw [← hres.2.1] at hpre
  have hle := hres.2.2 m' hm' hpre
  exact hne (VirtualPath.ext (hle.eq_of_length (Nat.le_antisymm hle.length_le hover.length_le)))

theorem not_covers_of_flat (hm : m ∈ v.table.mounts) (hs : m.shadowsNested = false) :
    ¬ v.Covers m p := by
  rintro ⟨m', hm', hne, hover, -⟩
  rw [(MountTable.shadowsNested_iff hm).2 ⟨m', hm', hne, hover⟩] at hs
  cases hs

/-! ## Where requests lead -/

/-- A location some walk has found, or one in a mount that shadows nothing. -/
structure Found (v : Vfs) (h : Host) (followFinal : Bool) (l : Located) : Prop where
  exact : v.locateExact l.virtualPath = .ok l
  clear : l.mount.shadowsNested = false ∨ v.ClearAbove h l.virtualPath ∧
    (followFinal = true → v.Clear h l.virtualPath)

variable {followFinal : Bool}

theorem found_of_locate (hs : v.Spells h)
    (hl : v.locate path followFinal h = .ok l) : Found v h followFinal l :=
  ⟨exact_of_locate hl, Or.inr (clear_of_locate hs hl)⟩

theorem found_of_runsAt {α : Type}
    {op : Located → Op Host IoError α} (hs : v.Spells h) (hl : RunsAt v h path followFinal op l) :
    Found v h followFinal l := by
  rcases hl with ⟨hl, hflat⟩ | ⟨-, hl⟩
  · exact ⟨by rwa [(locateExact_eq_ok.1 hl).2], Or.inl hflat⟩
  · exact found_of_locate hs hl

theorem Found.not_covers {follow : Bool} (hl : Found v h followFinal l)
    (hfollow : follow = true → followFinal = true)
    (hp : (h.tree l.mount.dir.tree).lookup [] follow l.relative = .ok p) :
    ¬ v.Covers l.mount p := by
  rcases hl.clear with hflat | ⟨habove, hclear⟩
  · exact not_covers_of_flat (mem_of_locateExact hl.exact) hflat
  · obtain rfl := eq_of_lookup habove hl.exact (fun hf => by
      rw [← linkAt_of_exact hl.exact]
      exact hclear (hfollow hf) _ (List.prefix_refl _)) hp
    exact not_covers_of_exact hl.exact

theorem Found.eq_or_flat (hl : Found v h followFinal l)
    (hp : (h.tree l.mount.dir.tree).lookup [] false l.relative = .ok p) :
    p = l.relative ∨ ∀ q, ¬ v.Covers l.mount q := by
  rcases hl.clear with hflat | ⟨habove, -⟩
  · exact Or.inr fun _ => not_covers_of_flat (mem_of_locateExact hl.exact) hflat
  · exact Or.inl (eq_of_lookup habove hl.exact (by simp) hp)

/-! ## Requests that spare what is shadowed -/

variable (v) in
/-- No shadowed entry of the directory of `m` stood beneath `p`. -/
def NotOver (h₀ : Host) (m : Mount) (p : HostPath) : Prop :=
  ∀ q, v.Covers m q → (h₀.tree m.dir.tree).isPresent q = true → ¬ p <+: q

variable (v) in
/-- The host follows the path of `l` to no object shadowed at the start. -/
def NotThrough (h₀ h : Host) (l : Located) : Prop :=
  ∀ p n, (h.tree l.mount.dir.tree).lookup [] true l.relative = .ok p →
    (h.tree l.mount.dir.tree).node p = some n → ¬ v.Shadows h₀ l.mount n.ino

variable (v) in
/-- A request that moves and removes no directory over what was shadowed in `h₀`, and lets the host
follow no final link to it. -/
def SparesShadowed (h₀ h : Host) : Request → Prop
  | .removeDirAll path => ∀ l, RunsAt v h path false removeDirAllAt l →
      l.mount.access.isWritable = true → v.NotOver h₀ l.mount l.relative
  | .rename src dst => ∀ l l', v.locate src false h = .ok l → v.locate dst false h = .ok l' →
      l'.mount = l.mount → l.mount.access.isWritable = true → v.NotOver h₀ l.mount l.relative
  | .copy _ dst => ∀ l, v.locate dst false h = .ok l → l.mount.access.isWritable = true →
      v.NotThrough h₀ h l
  | .setTimes path atime mtime true => ∀ l, RunsAt v h path false (setTimesAt atime mtime true) l →
      l.mount.access.isWritable = true → v.NotThrough h₀ h l
  | _ => True

/-- What the trees of the mounts keep: the spelling of links, and what was shadowed in `h₀`. -/
def ShadowKept (v : Vfs) (h₀ : Host) (m : Mount) (t : Tree) : Prop :=
  SpelledLinks t ∧ Tree.Sheltered (v.Covers m) (h₀.tree m.dir.tree) t

variable {h₀ : Host} {r : Request}

/-- **One request.** What it comes down to spares what was shadowed at the start. -/
theorem spares_of_asks (hI : v.Holds (ShadowKept v h₀) h) (hr : v.SparesShadowed h₀ h r)
    (hm : m ∈ v.table.mounts) {e : Edit} (hask : Asks v h r m e) :
    Tree.Spares (v.Covers m) (h₀.tree m.dir.tree) e := by
  have hs : v.Spells h := fun m hm => (hI m hm).1
  have hk := (hI m hm).2
  cases hask with
  | make => trivial
  | truncate hl hp hn =>
    exact hk.not_hides hn ((found_of_runsAt hs hl).not_covers (fun _ => rfl) hp)
  | @removeFile path l dir name n hl hp hn hkind =>
    intro q hq hpres hpre
    have hne : dir ++ [name] ≠ q := by
      rintro rfl
      exact (found_of_runsAt hs hl).not_covers (by simp) hp hq
    have hdir := Tree.isDir_above hpre hne (hk.present hq hpres)
    rw [Tree.isDir_eq_false_of_node hn hkind] at hdir
    cases hdir
  | @removeDir path l dir name hl hp hempty =>
    intro q hq hpres hpre
    have hne : dir ++ [name] ≠ q := by
      rintro rfl
      exact (found_of_runsAt hs hl).not_covers (by simp) hp hq
    exact Tree.names_ne_nil hpre hne (hk.present hq hpres) hempty
  | removeDirAll hl hw hp =>
    intro q hq hpres
    rcases (found_of_runsAt hs hl).eq_or_flat hp with heq | hflat
    · rw [heq]
      exact hr _ hl hw q hq hpres
    · exact absurd hq (hflat q)
  | @rename src dst l l' sdir ddir sname dname n hl hl' hmount hw hstays hp hp' hn hempty =>
    intro q hq hpres
    refine ⟨?_, fun hpre => ?_⟩
    · rcases (found_of_locate hs hl).eq_or_flat hp with heq | hflat
      · rw [heq]
        exact hr _ _ hl hl' hmount hw q hq hpres
      · exact absurd hq (hflat q)
    · -- an entry over what is shadowed would be a directory that is not empty
      have hne : ddir ++ [dname] ≠ q := by
        rintro rfl
        rw [← hmount] at hp' hq
        exact (found_of_locate hs hl').not_covers (by simp) hp' hq
      have hthere := hk.present hq hpres
      obtain ⟨i, hdir⟩ := Tree.isDir_iff.1 (Tree.isDir_above hpre hne hthere)
      exact Tree.names_ne_nil hpre hne hthere (hempty _ hdir rfl)
  | copy hl hw hi =>
    intro hhides
    rcases hi with rfl | ⟨p, n, hp, hn, rfl⟩
    · exact lt_irrefl _ (hk.lt_next hhides)
    · exact hr _ hl hw p n hp hn hhides
  | hardLink hl hl' hmount hw hp hn hp' => exact (found_of_locate hs hl).not_covers (by simp) hp
  | symlink => trivial
  | @setTimes path atime mtime follow l p n a hl hw hp hn =>
    cases follow with
    | false => exact hk.not_hides hn ((found_of_runsAt hs hl).not_covers (by simp) hp)
    | true => exact hr _ hl hw p n hp hn
  | setPermissions hl hp hn =>
    exact hk.not_hides hn ((found_of_runsAt hs hl).not_covers (fun _ => rfl) hp)

theorem shadowKept_step {s : Session} (hI : v.Holds (ShadowKept v h₀) s.host)
    (hvfs : r.OfVfs) (hr : v.SparesShadowed h₀ s.host r) :
    v.Holds (ShadowKept v h₀) (step v s r).host := by
  rw [host_step]
  refine keepsAt_perform (R := Preserves (v.Holds (ShadowKept v h₀)))
    (grants_of_apply fun h' m e t hm hask _ ht hk => ?_) hvfs s.dirs hI
  exact ⟨spelledLinks_of_asks hask hk.1 ht, hk.2.apply (spares_of_asks hI hr hm hask) ht⟩

theorem not_reaches (hI : v.Holds (ShadowKept v h₀) h) (hm : m ∈ v.table.mounts) {i : Nat}
    (hi : v.Shadows h₀ m i) (path : VirtualPath) : ¬ v.Reaches h path m i := by
  rintro ⟨followFinal, l, p, n, hl, rfl, hp, hn, rfl⟩
  refine (hI _ hm).2.not_hides hn ?_ hi
  rcases hp with rfl | hp
  · exact not_covers_of_exact (exact_of_locate hl)
  · exact (found_of_locate (fun m hm => (hI m hm).1) hl).not_covers (fun h => h) hp

/-- **Shadowed objects.** Where links are spelled the way the grammar spells paths, a run of
requests that spare what is shadowed at its start leaves every entry under a nested mount point
where it is, and the objects that are only there as they are; and no virtual path comes to resolve
to one. -/
theorem shadowed_run {h : Host} {rs : List Request} (hs : v.Spells h)
    (hrs : Run.Along (step v) (fun s r => r.OfVfs ∧ v.SparesShadowed h s.host r) ⟨h, []⟩ rs) :
    ∀ m ∈ v.table.mounts,
      (∀ p n, v.Covers m p → (h.tree m.dir.tree).node p = some n →
        ((rs.foldl (step v) ⟨h, []⟩).host.tree m.dir.tree).node p = some n) ∧
      ∀ i, v.Shadows h m i →
        ((rs.foldl (step v) ⟨h, []⟩).host.tree m.dir.tree).attr i = (h.tree m.dir.tree).attr i ∧
        ∀ path, ¬ v.Reaches (rs.foldl (step v) ⟨h, []⟩).host path m i := by
  have hI : v.Holds (ShadowKept v h) (rs.foldl (step v) ⟨h, []⟩).host :=
    Run.invariant (I := fun s => v.Holds (ShadowKept v h) s.host)
      (fun s r hI hr => shadowKept_step hI hr.1 hr.2)
      (fun m hm => ⟨hs m hm, Tree.Sheltered.refl⟩) hrs
  intro m hm
  exact ⟨(hI m hm).2.stays, fun i hi => ⟨(hI m hm).2.same i hi, not_reaches hI hm hi⟩⟩

end Seahaven.Vfs

namespace Seahaven.Vfs

open Host OsStr Op

section Fixture

attribute [local instance] composed

/-- A host whose first tree holds `lib/vendor/key` and `notes`. -/
def vendorHost : Host := .ofTrees [.ofEntries [([os "lib"], .dir), ([os "lib", os "vendor"], .dir),
  ([os "lib", os "vendor", os "key"], .file), ([os "notes"], .file)]]

/-- `/work`, writable. -/
def workMount : Mount := ⟨⟨[os "work"], work_valid⟩, ⟨0, 0⟩, none, none, .readWrite, true⟩

/-- `/work/lib/vendor`, over what the first mount holds there. -/
def vendorMount : Mount :=
  ⟨⟨[os "work", os "lib", os "vendor"], by decide⟩, ⟨1, 0⟩, none, none, .readOnly, false⟩

def vendorVfs : Vfs where
  table := .fromMounts [workMount, vendorMount] (by decide)
  roots := by decide
  apart := by decide

theorem spells_vendorHost : vendorVfs.Spells vendorHost := by
  have hkeys : ∀ m ∈ vendorVfs.table.mounts, ∀ p ∈ (vendorHost.tree m.dir.tree).keys,
      ∀ target ∈ (vendorHost.tree m.dir.tree).linkAt p, ∀ c ∈ target.components, Spelled c := by
    decide
  exact fun m hm => Tree.linksAre_of_keys (hkeys m hm)

theorem shadows_key : vendorVfs.Shadows vendorHost workMount 3 := by
  have hkeys : ∀ p ∈ (vendorHost.tree 0).keys, ∀ n ∈ (vendorHost.tree 0).node p, n.ino = 3 →
      vendorVfs.Covers workMount p := by decide
  exact ⟨⟨[os "lib", os "vendor", os "key"], ⟨3, .file⟩, by decide, rfl⟩, Tree.forall_node hkeys⟩

/-- **A directory takes along what it shadows.** Renaming `/work/lib` moves the key out from under
the nested mount, to where a virtual path reaches it. -/
theorem shadowed_renamed : vendorVfs.Spells vendorHost ∧ vendorVfs.Shadows vendorHost workMount 3 ∧
      vendorVfs.Reaches (step vendorVfs ⟨vendorHost, []⟩
          (.rename ⟨[os "work", os "lib"], by decide⟩ ⟨[os "work", os "old"], by decide⟩)).host
        ⟨[os "work", os "old", os "vendor", os "key"], by decide⟩ workMount 3 := by
  refine ⟨spells_vendorHost, shadows_key, false, ⟨workMount, [os "old", os "vendor", os "key"],
    ⟨[os "work", os "old", os "vendor", os "key"], by decide⟩⟩, [os "old", os "vendor", os "key"],
    ⟨3, .file⟩, ?_, rfl, Or.inl rfl, ?_, rfl⟩
  · decide
  · decide

/-- Renaming what stands beside the mount point, and writing there, spares the key. -/
theorem shadowed_run_beside : ¬ vendorVfs.Reaches (([.rename ⟨[os "work", os "notes"], by decide⟩
        ⟨[os "work", os "lib", os "notes"], by decide⟩,
      .openWith ⟨[os "work", os "lib", os "notes"], by decide⟩ .ofWrite] :
        List Request).foldl (step vendorVfs) ⟨vendorHost, []⟩).host
      ⟨[os "work", os "lib", os "vendor", os "key"], by decide⟩ workMount 3 := by
  refine ((shadowed_run spells_vendorHost ?_ workMount (by decide)).2 3 shadows_key).2 _
  refine ⟨⟨trivial, fun l l' hl _ _ _ q hq hpres => ?_⟩, ⟨trivial, trivial⟩, trivial⟩
  obtain rfl : (⟨workMount, [os "notes"], ⟨[os "work", os "notes"], by decide⟩⟩ : Located) = l :=
    Except.ok.inj (Eq.trans (by decide) hl)
  have hbeside : ∀ q ∈ (vendorHost.tree 0).keys, vendorVfs.Covers workMount q →
      ¬ [os "notes"] <+: q := by decide
  obtain ⟨n, hn⟩ := Tree.isPresent_iff.1 hpres
  exact hbeside q ((vendorHost.tree 0).mem_keys q n hn) hq

end Fixture

end Seahaven.Vfs
