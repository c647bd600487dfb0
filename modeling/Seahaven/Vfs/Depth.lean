import Seahaven.Vfs.Lockstep

/-!
# One mount, at any depth

With one mount at `/a/b/work`, the directories `/a` and `/a/b` are there only because the mount is.
A scan steps through them, so a relative link that climbs out of the mount comes back in by the name
of the mount point. The host's own walk of the same link has left the mount's directory.
-/

namespace Seahaven.Vfs

open Host OsStr

variable [Unicode]

def hostWalk (h : Host) (m : Mount) (followFinal : Bool) (r : HostPath) : Except IoError HostPath :=
  (h.tree m.dir.tree).walk [] followFinal maxSymlinks [] r

/-- Whether the host's walk never climbs above the mount's directory, and has only names left where
it comes to nothing or to what is no directory. -/
def Firm (h : Host) (m : Mount) (followFinal : Bool) (r : HostPath) : Prop :=
  (h.tree m.dir.tree).firm followFinal maxSymlinks [] r = true

variable {v : Vfs} {h : Host} {m : Mount} {p : VirtualPath} {r : HostPath} {followFinal : Bool}

/-- **One mount.** What is reached through relative links is what the host reaches, if its own walk
is firm and every link is spelled the way the grammar spells it; and only if it is firm. -/
theorem hostWalk_of_locate (hone : v.table.mounts = [m]) (hp : p.components = m.at.components ++ r)
    {l : Located} (hl : v.locate p followFinal h = .ok l)
    (hrel : ∀ target ∈ v.targetsOf p followFinal h, target.isAbsolute = false)
    (hpres : (h.tree m.dir.tree).isPresent l.relative = true) :
    (Firm h m followFinal r → v.SpelledWay h p followFinal →
      hostWalk h m followFinal r = .ok l.relative) ∧
    (hostWalk h m followFinal r = .ok l.relative → Firm h m followFinal r) := by
  refine ⟨fun hfirm hspelled => ?_, Tree.firm_of_walk⟩
  have hout := locate_outcome (mem_of_one hone) (plain_of_one hone) (above_of_one hone) hp hspelled
  rw [hl] at hout
  unfold hostWalk
  generalize hW : (h.tree m.dir.tree).walk [] followFinal maxSymlinks [] r = W
  change Outcome h m _ _ _ ((h.tree m.dir.tree).walk [] followFinal maxSymlinks [] r) _ at hout
  rw [hW] at hout
  cases hout with
  | same hq => rfl
  | absent he hm habsent =>
    rw [hpres] at habsent
    cases habsent
  | loose he hloose => exact absurd (hfirm.symm.trans hloose) (by simp)
  | left hleft =>
    rcases hleft with hloose | ⟨target, ht, habs⟩
    · exact absurd (hfirm.symm.trans hloose) (by simp)
    · rw [hrel target ht] at habs
      cases habs

end Seahaven.Vfs

namespace Seahaven.Vfs

open Host OsStr

section Fixture

attribute [local instance] composed

def viaHost : Host :=
  .ofTrees [.ofEntries [([os "x"], .file), ([os "via"], .link (os "../work/x")),
    ([os "near"], .link (os "x"))]]

/-- `/a/b/work`, alone. -/
def deepMount : Mount :=
  ⟨⟨[os "a", os "b", os "work"], by decide⟩, ⟨0, 0⟩, none, none, .readWrite, false⟩

def deepVfs : Vfs where
  table := .fromMounts [deepMount] (by simp)
  roots := by decide
  apart := by decide

theorem near_hostWalk : hostWalk viaHost deepMount true [os "near"] = .ok [os "x"] :=
  (hostWalk_of_locate (v := deepVfs) (p := ⟨[os "a", os "b", os "work", os "near"], by decide⟩)
    (l := ⟨deepMount, [os "x"], ⟨[os "a", os "b", os "work", os "x"], by decide⟩⟩) (by decide)
    (by decide) (by decide) (by decide) (by decide)).1 (by unfold Firm; decide)
    (by unfold SpelledWay; decide)

/-- **Out and back in.** `/a/b/work/via` reaches the file `x` through a relative link, and the host's
own walk of `via` has left the mount's directory. -/
theorem via_not_hostWalk : deepVfs.locate ⟨[os "a", os "b", os "work", os "via"], by decide⟩ true
      viaHost = .ok ⟨deepMount, [os "x"], ⟨[os "a", os "b", os "work", os "x"], by decide⟩⟩ ∧
    deepVfs.targetsOf ⟨[os "a", os "b", os "work", os "via"], by decide⟩ true viaHost =
      [os "../work/x"] ∧ (viaHost.tree 0).isPresent [os "x"] = true ∧
    hostWalk viaHost deepMount true [os "via"] = .error escapeAttempt :=
  ⟨by decide, by decide, by decide, by decide⟩

end Fixture

end Seahaven.Vfs
