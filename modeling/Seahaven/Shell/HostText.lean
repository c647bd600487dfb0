import Seahaven.Vfs.Resolution
import Seahaven.Shell.Redirect

/-!
# Texts of the host in the namespace

The shell carries paths as the host writes them, and `toVirtualPath` reads them in the grammar of
the namespace.

1. `toVirtualPath_of_text`: a text without a host's dialect is resolved as it is written.
2. `resolveLoop_joinPath`: what is joined to a directory is read from the directory.
-/

namespace Seahaven.Shell

open OsStr Vfs

variable {s : OsStr}

theorem splitDrive_of_not_mem (h : .chr ':' ∉ s) : splitDrive s = none := by
  induction s with
  | nil => rfl
  | cons x s ih =>
    rw [List.mem_cons, not_or] at h
    unfold splitDrive
    split
    · rename_i heq
      exact absurd (List.cons.inj heq).1.symm h.1
    · rename_i heq
      obtain ⟨rfl, rfl⟩ := List.cons.inj heq
      rw [ih h.2]
      rfl
    · rfl

variable {path : OsStr}

theorem mem_joinPath {base : OsStr} {x : OsChar} (h : x ∈ joinPath base path) :
    x ∈ base ∨ x = slash ∨ x ∈ path := by
  unfold joinPath at h
  split_ifs at h
  · exact .inr (.inr h)
  · exact (List.mem_append.1 h).imp_right .inr
  · exact (List.mem_append.1 h).imp_right List.mem_cons.1

theorem isUtf8_toStringLossy (s : OsStr) : s.toStringLossy.isUtf8 = true := by
  have hloop : ∀ (fuel : Nat) (b : List UInt8), (lossyLoop fuel b).isUtf8 = true := by
    intro fuel
    induction fuel with
    | zero => exact fun _ => rfl
    | succ fuel ih =>
      intro b
      cases b with
      | nil => rfl
      | cons byte b =>
        rw [lossyLoop]
        · split
          · exact ih _
          · exact ih _
        · exact List.cons_ne_nil _ _
  exact hloop _ _

theorem isAbsolute_toStringLossy (h : s.isAbsolute = true) :
    s.toStringLossy.isAbsolute = true := by
  cases s with
  | nil => cases h
  | cons x s =>
    obtain rfl : x = slash := by simpa [isAbsolute] using h
    have hbytes : OsStr.bytes (slash :: s) = String.utf8EncodeChar '/' ++ bytes s := rfl
    rw [toStringLossy, hbytes, fromUtf8Lossy_encode]
    rfl

theorem mem_of_splitDrive {before rest : OsStr} (h : splitDrive s = some (before, rest)) :
    ∀ x ∈ rest, x ∈ s := by
  induction s generalizing before with
  | nil => cases h
  | cons c s ih =>
    unfold splitDrive at h
    split at h
    · rename_i heq
      obtain ⟨rfl, rfl⟩ := List.cons.inj heq
      obtain ⟨-, rfl⟩ := Prod.mk.inj (Option.some.inj h)
      exact fun x hx => List.mem_cons_of_mem _ (List.mem_cons_of_mem _ hx)
    · rename_i heq
      obtain ⟨rfl, rfl⟩ := List.cons.inj heq
      obtain ⟨⟨before', rest'⟩, hsplit, hpair⟩ := Option.map_eq_some_iff.1 h
      obtain ⟨-, rfl⟩ := Prod.mk.inj hpair
      exact fun x hx => List.mem_cons_of_mem _ (ih hsplit x hx)
    · cases h

section

variable [Unicode]

variable {session : Session}

theorem toVirtualPath_of_lossy
    (hback : .chr '\\' ∉ path.toStringLossy) (hcolon : .chr ':' ∉ path.toStringLossy) :
    toVirtualPath session path = (session.resolve path.toStringLossy).mapError invalidPath := by
  have hmap : path.toStringLossy.map (fun c => if c = .chr '\\' then slash else c) =
      path.toStringLossy := by
    refine (List.map_congr_left fun c hc => if_neg ?_).trans (List.map_id _)
    exact ne_of_mem_of_not_mem hc hback
  unfold toVirtualPath
  dsimp only
  rw [hmap, splitDrive_of_not_mem hcolon]

theorem toVirtualPath_of_text {text : OsStr} (hutf : text.isUtf8 = true)
    (hback : .chr '\\' ∉ text) (hcolon : .chr ':' ∉ text) :
    toVirtualPath session text = (session.resolve text).mapError invalidPath := by
  have hlossy : text.toStringLossy = text := fromUtf8Lossy_bytes hutf
  rw [toVirtualPath_of_lossy (hlossy.symm ▸ hback) (hlossy.symm ▸ hcolon), hlossy]

theorem resolveLoop_asStr (p : VirtualPath) : resolveLoop [] p.asStr.split = .ok p.components := by
  have h := VirtualPath.resolve_asStr .root p
  obtain ⟨hne, hnul, hback⟩ := VirtualPath.plain_of_resolve h
  rw [VirtualPath.resolve_eq_ok, VirtualPath.resolveComponents, if_neg hne, if_neg hnul,
    if_neg hback] at h
  exact (ite_self _ : (if p.asStr.isAbsolute then [] else VirtualPath.root.components) = []) ▸ h

theorem resolveLoop_joinPath (p : VirtualPath) (hrel : path.isAbsolute = false) :
    resolveLoop [] (joinPath p.asStr path).split = resolveLoop p.components path.split := by
  have hp := resolveLoop_asStr p
  rw [joinPath, if_neg (by simp [hrel])]
  split_ifs with hend
  · have hlast : p.asStr.getLast? = some slash := by
      rcases Bool.or_eq_true_iff.1 hend with hnil | hlast
      · cases of_decide_eq_true hnil
      · exact of_decide_eq_true hlast
    obtain ⟨t, ht⟩ := List.getLast?_eq_some_iff.1 hlast
    rw [ht, split_append_slash, split_nil, resolveLoop_append] at hp
    rw [ht, List.append_assoc, List.singleton_append, split_append_slash, resolveLoop_append]
    cases hloop : resolveLoop [] (split t) with
    | error e =>
      rw [hloop] at hp
      cases hp
    | ok out =>
      rw [hloop] at hp
      obtain rfl : out = p.components := Except.ok.inj hp
      rfl
  · rw [split_append_slash, resolveLoop_append, hp]
    rfl

theorem colon_of_resolveLoop {base raws out : List OsStr} (h : resolveLoop base raws = .ok out) :
    ∀ raw ∈ raws, .chr ':' ∉ raw := by
  induction raws generalizing base with
  | nil => nofun
  | cons raw rest ih =>
    unfold resolveLoop at h
    split_ifs at h with hskip hup hroot
    · refine List.forall_mem_cons.2 ⟨?_, ih h⟩
      rcases hskip with rfl | rfl <;> decide
    · refine List.forall_mem_cons.2 ⟨?_, ih h⟩
      subst hup
      decide
    · cases hv : validateComponent raw with
      | error e =>
        rw [hv] at h
        cases h
      | ok c =>
        rw [hv] at h
        exact List.forall_mem_cons.2 ⟨(validateComponent_eq_ok.1 hv).1, ih h⟩

variable {p : VirtualPath}

theorem colon_of_resolve {base : VirtualPath} (h : base.resolve path = .ok p) :
    .chr ':' ∉ path := by
  obtain ⟨hne, hnul, hback⟩ := VirtualPath.plain_of_resolve h
  rw [VirtualPath.resolve_eq_ok, VirtualPath.resolveComponents_plain hne hnul hback] at h
  intro hmem
  obtain ⟨c, hc, hmem⟩ := (mem_iff_components (by decide)).1 hmem
  exact colon_of_resolveLoop h c (mem_components.1 hc).1 hmem

/-! ## What a path of the host leads to -/

theorem isUtf8_of_resolveLoop (hnfc : ∀ c : OsStr, c.isUtf8 = true → (Unicode.nfc c).isUtf8 = true)
    {base raws out : List OsStr}
    (hbase : ∀ c ∈ base, c.isUtf8 = true) (hraws : ∀ c ∈ raws, c.isUtf8 = true)
    (h : resolveLoop base raws = .ok out) : ∀ c ∈ out, c.isUtf8 = true := by
  induction raws generalizing base with
  | nil =>
    obtain rfl : base = out := Except.ok.inj h
    exact hbase
  | cons raw rest ih =>
    obtain ⟨hraw, hrest⟩ := List.forall_mem_cons.1 hraws
    unfold resolveLoop at h
    split_ifs at h with hskip hup hroot
    · exact ih hbase hrest h
    · exact ih (fun c hc => hbase c (List.dropLast_subset _ hc)) hrest h
    · cases hv : validateComponent raw with
      | error e =>
        rw [hv] at h
        cases h
      | ok c =>
        rw [hv] at h
        refine ih (fun d hd => ?_) hrest h
        rcases List.mem_append.1 hd with hd | hd
        · exact hbase d hd
        · rw [List.mem_singleton.1 hd, (validateComponent_eq_ok.1 hv).2.2.2]
          exact hnfc raw hraw

theorem isUtf8_of_toVirtualPath
    (hnfc : ∀ c : OsStr, c.isUtf8 = true → (Unicode.nfc c).isUtf8 = true)
    (habs : path.isAbsolute = true)
    (hp : toVirtualPath session path = .ok p) : p.asStr.isUtf8 = true := by
  obtain ⟨text, hutf, htext, hresolve⟩ : ∃ text : OsStr, text.isUtf8 = true ∧
      text.isAbsolute = true ∧ session.cwd.resolve text = .ok p := by
    have hlossy : ∀ x ∈ path.toStringLossy.map fun c => if c = .chr '\\' then slash else c,
        ∃ c, x = .chr c := by
      intro x hx
      obtain ⟨y, hy, rfl⟩ := List.mem_map.1 hx
      split_ifs
      · exact ⟨_, rfl⟩
      · exact isUtf8_iff.1 (isUtf8_toStringLossy path) y hy
    have hroot : isAbsolute (path.toStringLossy.map fun c =>
        if c = .chr '\\' then slash else c) = true := by
      have hfirst := isAbsolute_toStringLossy habs
      cases hlist : path.toStringLossy with
      | nil =>
        rw [hlist] at hfirst
        cases hfirst
      | cons x text =>
        rw [hlist] at hfirst
        obtain rfl : x = slash := by simpa [isAbsolute] using hfirst
        rfl
    unfold toVirtualPath Session.resolve at hp
    dsimp only at hp
    have hmap : ∀ {text : OsStr}, (session.cwd.resolve text).mapError invalidPath = .ok p →
        session.cwd.resolve text = .ok p := by
      intro text h
      cases hr : session.cwd.resolve text with
      | ok q =>
        rw [hr] at h
        exact congrArg Except.ok (Except.ok.inj h)
      | error e =>
        rw [hr] at h
        cases h
    split at hp
    · rename_i before rest hsplit
      split_ifs at hp
      · refine ⟨slash :: rest, isUtf8_iff.2 (List.forall_mem_cons.2 ⟨⟨_, rfl⟩, fun x hx => ?_⟩), rfl,
          hmap hp⟩
        exact hlossy x (mem_of_splitDrive hsplit x hx)
      · exact ⟨_, isUtf8_iff.2 hlossy, hroot, hmap hp⟩
    · exact ⟨_, isUtf8_iff.2 hlossy, hroot, hmap hp⟩
  obtain ⟨hne, hnul, hback⟩ := VirtualPath.plain_of_resolve hresolve
  rw [VirtualPath.resolve_eq_ok, VirtualPath.resolveComponents_plain hne hnul hback,
    VirtualPath.start, if_pos htext] at hresolve
  have hcomponents := isUtf8_of_resolveLoop hnfc (List.forall_mem_nil _)
    (fun c hc => isUtf8_iff.2 fun x hx => isUtf8_iff.1 hutf x (mem_of_mem_split hc hx)) hresolve
  refine isUtf8_iff.2 fun x hx => ?_
  rcases VirtualPath.mem_asStr hx with rfl | ⟨c, hc, hx⟩
  · exact ⟨_, rfl⟩
  · exact isUtf8_iff.1 (hcomponents c hc) x hx

theorem resolve_of_isAbsolute {q r : VirtualPath} (habs : path.isAbsolute = true)
    (h : p.resolve path = .ok r) : q.resolve path = .ok r := by
  obtain ⟨hne, hnul, hback⟩ := VirtualPath.plain_of_resolve h
  rw [VirtualPath.resolve_eq_ok, VirtualPath.resolveComponents_plain hne hnul hback,
    VirtualPath.start, if_pos habs] at h ⊢
  exact h

theorem toVirtualPath_asStr (hutf : p.asStr.isUtf8 = true) :
    toVirtualPath session p.asStr = .ok p := by
  have hresolve := VirtualPath.resolve_asStr session.cwd p
  rw [toVirtualPath_of_text hutf (VirtualPath.plain_of_resolve hresolve).2.2
    (colon_of_resolve hresolve), Session.resolve, hresolve]
  rfl

/-! ## A namespace with one mount -/

/-- A namespace whose one mount is at this path. -/
def mountedAt (p : VirtualPath) : Vfs where
  table :=
    { mounts := [⟨p, ⟨0, 0⟩, none, none, .readWrite, false⟩]
      sorted := List.pairwise_singleton _ _
      points := List.pairwise_singleton _ _
      nesting := by simp [hasPointBelow] }
  roots := by simp
  apart := List.pairwise_singleton _ _

end

end Seahaven.Shell
