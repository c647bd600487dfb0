import Seahaven.Vfs.Path

/-!
# Resolution

1. `resolveLoop_append`: the loop goes through a split in two parts one after the other.
2. `resolve_ok_iff_fold`: a path resolves as its components do, one by one.
3. `resolve_accepted`: what is accepted is normal, and extending it is resolving from it.
4. `escape_of_resolve`: only a prefix that goes up more often than down escapes.
-/

namespace Seahaven.Vfs

open OsStr

/-! ## The form of a result -/

/-- A component that means the same on every host. -/
structure Portable (c : OsStr) : Prop where
  ne_nil : c ≠ []
  ne_dot : c ≠ dot
  ne_dotdot : c ≠ dotdot
  no_slash : slash ∉ c
  no_backslash : .chr '\\' ∉ c
  no_colon : .chr ':' ∉ c
  no_nul : .chr '\x00' ∉ c
  not_ends : endsDotOrSpace c = false
  not_reserved : isReserved c = false

theorem IsComponent.portable [Unicode] {c : OsStr} (h : IsComponent c) : Portable c := by
  obtain ⟨hcolon, hends, hres, -⟩ := validateComponent_eq_ok.1 h.validated
  exact ⟨h.ne_nil, h.ne_dot, h.ne_dotdot, h.no_slash, h.no_backslash, hcolon, h.no_nul, hends, hres⟩

def Normal (s : OsStr) : Prop :=
  ∃ cs : List OsStr, s = slash :: join cs ∧ ∀ c ∈ cs, Portable c

/-! ## The loop -/

theorem split_append_slash (s t : OsStr) : split (s ++ slash :: t) = split s ++ split t := by
  induction s with
  | nil => rw [List.nil_append, split_cons, if_pos rfl, split_nil, List.singleton_append]
  | cons a s ih =>
    rw [List.cons_append, split_cons, split_cons, ih]
    split_ifs
    · rfl
    · obtain ⟨c, l, hl⟩ := List.exists_cons_of_ne_nil (split_ne_nil s)
      rw [hl]
      rfl

variable {s : OsStr}

theorem isAbsolute_append (h : s ≠ []) (t : OsStr) :
    (s ++ t).isAbsolute = s.isAbsolute := by
  obtain ⟨a, s, rfl⟩ := List.exists_cons_of_ne_nil h
  rfl

theorem mem_iff_components {x : OsChar} (hx : x ≠ slash) :
    x ∈ s ↔ ∃ c ∈ s.components, x ∈ c := by
  constructor
  · intro h
    rw [← join_split s] at h
    rcases mem_join h with h | ⟨c, hc, h⟩
    · exact absurd h hx
    · exact ⟨c, mem_components.2 ⟨hc, List.ne_nil_of_mem h⟩, h⟩
  · rintro ⟨c, hc, h⟩
    exact mem_of_mem_split (mem_components.1 hc).1 h

def GoesDown (raw : OsStr) : Prop := raw ≠ [] ∧ raw ≠ dot ∧ raw ≠ dotdot

instance (raw : OsStr) : Decidable (GoesDown raw) := inferInstanceAs (Decidable (_ ∧ _ ∧ _))

def pushes (raws : List OsStr) : Nat := raws.countP fun raw => GoesDown raw

def pops (raws : List OsStr) : Nat := raws.count dotdot

section

variable [Unicode]

theorem resolveLoop_append {components l l' : List OsStr} :
    resolveLoop components (l ++ l') =
      resolveLoop components l >>= fun out => resolveLoop out l' := by
  induction l generalizing components with
  | nil => rfl
  | cons raw rest ih =>
    rw [List.cons_append, resolveLoop, resolveLoop]
    split_ifs with h₁ h₂ h₃
    · exact ih
    · rfl
    · exact ih
    · cases validateComponent raw with
      | ok c => exact ih
      | error e => rfl

theorem resolveLoop_filter (components l : List OsStr) :
    resolveLoop components (l.filter (· ≠ [])) = resolveLoop components l := by
  induction l generalizing components with
  | nil => rfl
  | cons raw rest ih =>
    by_cases hraw : raw = []
    · rw [List.filter_cons_of_neg (by simpa using hraw), ih, resolveLoop, if_pos (.inl hraw)]
    · rw [List.filter_cons_of_pos (by simpa using hraw), resolveLoop, resolveLoop]
      simp only [ih]

/-! ## The errors of the loop -/

theorem resolveLoop_escape {components raws : List OsStr}
    (h : resolveLoop components raws = .error .escape) :
    ∃ pre, pre <+: raws ∧ components.length + pushes pre < pops pre := by
  induction raws generalizing components with
  | nil => simp [resolveLoop] at h
  | cons raw rest ih =>
    unfold resolveLoop at h
    split_ifs at h with h₁ h₂ h₃
    · obtain ⟨pre, hpre, hlt⟩ := ih h
      have hname : ¬ GoesDown raw := fun hn => h₁.elim hn.1 hn.2.1
      have hup : raw ≠ dotdot := by
        rintro rfl
        rcases h₁ with h₁ | h₁ <;> cases h₁
      exact ⟨raw :: pre, List.cons_prefix_cons.2 ⟨rfl, hpre⟩,
        by simpa [pushes, pops, hname, hup] using hlt⟩
    · refine ⟨[raw], List.cons_prefix_cons.2 ⟨rfl, List.nil_prefix⟩, ?_⟩
      subst h₂ h₃
      decide
    · obtain ⟨pre, hpre, hlt⟩ := ih h
      have hpos : 0 < components.length := List.length_pos_iff.2 h₃
      rw [List.length_dropLast] at hlt
      subst h₂
      have hname : ¬ GoesDown dotdot := fun hn => hn.2.2 rfl
      refine ⟨dotdot :: pre, List.cons_prefix_cons.2 ⟨rfl, hpre⟩, ?_⟩
      simp only [pushes, pops, List.countP_cons, List.count_cons, hname, decide_false,
        Bool.false_eq_true, if_false, beq_self_eq_true, if_true] at hlt ⊢
      omega
    · have hname : GoesDown raw := ⟨fun e => h₁ (.inl e), fun e => h₁ (.inr e), h₂⟩
      cases hv : validateComponent raw with
      | error e =>
        rw [hv] at h
        dsimp only at h
        unfold validateComponent at hv
        split_ifs at hv <;> obtain rfl := Except.error.inj hv <;> cases h
      | ok c =>
        rw [hv] at h
        obtain ⟨pre, hpre, hlt⟩ := ih h
        refine ⟨raw :: pre, List.cons_prefix_cons.2 ⟨rfl, hpre⟩, ?_⟩
        rw [List.length_append, List.length_singleton] at hlt
        simp only [pushes, pops, List.countP_cons, List.count_cons, hname, decide_true, if_true,
          beq_false_of_ne h₂, Bool.false_eq_true, if_false] at hlt ⊢
        omega

namespace VirtualPath

/-- Where the resolution of `path` starts. -/
def start (b : VirtualPath) (path : OsStr) : VirtualPath := if path.isAbsolute then root else b

variable {b : VirtualPath}

theorem resolveComponents_plain (hne : s ≠ [])
    (hnul : .chr '\x00' ∉ s) (hback : .chr '\\' ∉ s) :
    b.resolveComponents s = resolveLoop (b.start s).components s.split := by
  rw [resolveComponents, if_neg hne, if_neg hnul, if_neg hback, start]
  split_ifs <;> rfl

variable {r : VirtualPath}

theorem plain_of_resolve (h : b.resolve s = .ok r) :
    s ≠ [] ∧ .chr '\x00' ∉ s ∧ .chr '\\' ∉ s := by
  rw [resolve_eq_ok, resolveComponents] at h
  split_ifs at h with h₁ h₂ h₃ <;> exact ⟨h₁, h₂, h₃⟩

theorem escape_of_resolve (h : b.resolve s = .error .escape) :
    ∃ pre, pre <+: s.split ∧ (b.start s).components.length + pushes pre < pops pre := by
  rw [resolve_eq_error] at h
  by_cases hs : s ≠ [] ∧ .chr '\x00' ∉ s ∧ .chr '\\' ∉ s
  · rw [resolveComponents_plain hs.1 hs.2.1 hs.2.2] at h
    exact resolveLoop_escape h
  · rw [resolveComponents] at h
    split_ifs at h with h₁ h₂ h₃ <;> first | cases h | exact absurd ⟨h₁, h₂, h₃⟩ hs

/-! ## One component after another -/

def resolveEach (p : VirtualPath) (cs : List OsStr) : Except PathError VirtualPath :=
  cs.foldlM resolve p

theorem resolveEach_eq_ok {p q : VirtualPath} {cs : List OsStr}
    (h : ∀ c ∈ cs, slash ∉ c ∧ c ≠ []) : resolveEach p cs = .ok q ↔
      (∀ c ∈ cs, .chr '\x00' ∉ c ∧ .chr '\\' ∉ c) ∧
        resolveLoop p.components cs = .ok q.components := by
  induction cs generalizing p with
  | nil => simp [resolveEach, resolveLoop, VirtualPath.ext_iff, pure, Except.pure]
  | cons c cs ih =>
    obtain ⟨⟨hslash, hne⟩, hcs⟩ := List.forall_mem_cons.1 h
    have hfold : resolveEach p (c :: cs) = p.resolve c >>= fun p' => resolveEach p' cs := by
      unfold resolveEach
      rw [List.foldlM_cons]
    have hloop : resolveLoop p.components (c :: cs) =
        resolveLoop p.components [c] >>= fun out => resolveLoop out cs := resolveLoop_append (l := [c])
    rw [hfold, hloop, List.forall_mem_cons]
    by_cases hc : .chr '\x00' ∉ c ∧ .chr '\\' ∉ c
    · have hone := resolveComponents_of_slash_not_mem (p := p) hne hslash hc.1 hc.2
      cases hr : p.resolve c with
      | error e =>
        rw [resolve_eq_error, hone] at hr
        rw [hr]
        simp [bind, Except.bind]
      | ok p' =>
        rw [resolve_eq_ok, hone] at hr
        rw [hr]
        exact (ih hcs).trans (and_congr_left fun _ => (and_iff_right hc).symm)
    · have hr : ∃ e, p.resolve c = .error e := by
        simp only [resolve_eq_error, resolveComponents]
        split_ifs with h₁ h₂ h₃
        · exact ⟨_, rfl⟩
        · exact ⟨_, rfl⟩
        · exact ⟨_, rfl⟩
        · exact absurd ⟨h₂, h₃⟩ hc
        · exact absurd ⟨h₂, h₃⟩ hc
      obtain ⟨e, hr⟩ := hr
      rw [hr]
      simp only [bind, Except.bind, reduceCtorEq, false_iff]
      exact fun h => hc h.1.1

/-- **A path resolves as its components do**, one after another. -/
theorem resolve_ok_iff_fold :
    b.resolve s = .ok r ↔ s ≠ [] ∧ resolveEach (b.start s) s.components = .ok r := by
  have hplain : (∀ c ∈ s.components, .chr '\x00' ∉ c ∧ .chr '\\' ∉ c) ↔
      .chr '\x00' ∉ s ∧ .chr '\\' ∉ s := by
    rw [mem_iff_components (x := .chr '\x00') (by decide),
      mem_iff_components (x := .chr '\\') (by decide)]
    simp only [not_exists, not_and, forall_and]
  rw [resolveEach_eq_ok fun c hc => ⟨slash_not_mem_of_mem_components hc, components_ne_nil hc⟩,
    hplain, OsStr.components, resolveLoop_filter]
  constructor
  · intro h
    obtain ⟨hne, hnul, hback⟩ := plain_of_resolve h
    rw [resolve_eq_ok, resolveComponents_plain hne hnul hback] at h
    exact ⟨hne, ⟨hnul, hback⟩, h⟩
  · rintro ⟨hne, ⟨hnul, hback⟩, h⟩
    rwa [resolve_eq_ok, resolveComponents_plain hne hnul hback]

/-! ## What is accepted -/

theorem normal_asStr (p : VirtualPath) : Normal p.asStr :=
  ⟨p.components, rfl, fun c hc => (p.valid c hc).portable⟩

/-- **Extending a path that resolves is resolving from where it leads.** -/
theorem resolve_append {t : OsStr} (h : b.resolve s = .ok r) (ht : t ≠ [])
    (hrel : t.isAbsolute = false) : b.resolve (s ++ slash :: t) = r.resolve t := by
  obtain ⟨hne, hnul, hback⟩ := plain_of_resolve h
  rw [resolve_eq_ok, resolveComponents_plain hne hnul hback] at h
  have hcomponents : b.resolveComponents (s ++ slash :: t) = r.resolveComponents t := by
    have hmem : ∀ x, x ≠ slash → x ∉ s → (x ∈ s ++ slash :: t ↔ x ∈ t) := by
      intro x hx hxs
      simp [hxs, hx]
    by_cases htn : .chr '\x00' ∈ t
    · rw [resolveComponents, resolveComponents, if_neg (by simp), if_neg ht,
        if_pos ((hmem _ (by decide) hnul).2 htn), if_pos htn]
    by_cases htb : .chr '\\' ∈ t
    · rw [resolveComponents, resolveComponents, if_neg (by simp), if_neg ht,
        if_neg (mt (hmem _ (by decide) hnul).1 htn), if_neg htn,
        if_pos ((hmem _ (by decide) hback).2 htb), if_pos htb]
    have hstart : b.start (s ++ slash :: t) = b.start s := by
      rw [start, start, isAbsolute_append hne]
    have hstart' : r.start t = r := by simp [start, hrel]
    rw [resolveComponents_plain (by simp) (mt (hmem _ (by decide) hnul).1 htn)
      (mt (hmem _ (by decide) hback).1 htb), resolveComponents_plain ht htn htb, hstart, hstart',
      split_append_slash, resolveLoop_append, h]
    rfl
  cases hr : r.resolve t with
  | ok q => rw [resolve_eq_ok, hcomponents, ← resolve_eq_ok, hr]
  | error e => rw [resolve_eq_error, hcomponents, ← resolve_eq_error, hr]

/-- **What resolution accepts** is normal, reads back as itself, is extended from where it leads
and is found component by component; only what goes above its start escapes. -/
theorem resolve_accepted (b : VirtualPath) (s : OsStr) :
    (∀ r, b.resolve s = .ok r → Normal r.asStr ∧ VirtualPath.new r.asStr = .ok r ∧
      (∀ t : OsStr, t ≠ [] → t.isAbsolute = false → b.resolve (s ++ slash :: t) = r.resolve t) ∧
      resolveEach (b.start s) s.components = .ok r) ∧
    (s ≠ [] → ∀ r, resolveEach (b.start s) s.components = .ok r → b.resolve s = .ok r) ∧
    (b.resolve s = .error .escape → ∃ pre, pre <+: s.split ∧
      (b.start s).components.length + pushes pre < pops pre) :=
  ⟨fun r h => ⟨normal_asStr r, resolve_asStr root r, fun _ ht hrel => resolve_append h ht hrel,
    (resolve_ok_iff_fold.1 h).2⟩, fun hne _ h => resolve_ok_iff_fold.2 ⟨hne, h⟩,
    escape_of_resolve⟩

end VirtualPath

end

attribute [local instance] composed

theorem dotted_accepted : ∃ r, VirtualPath.root.resolve (os "a/./../b") = .ok r ∧ Normal r.asStr ∧
    VirtualPath.new r.asStr = .ok r ∧
    VirtualPath.root.resolve (os "a/./../b" ++ slash :: os "../c") = r.resolve (os "../c") := by
  have h : VirtualPath.root.resolve (os "a/./../b") = .ok ⟨[os "b"], by decide⟩ := by decide +kernel
  obtain ⟨hnormal, hnew, happend, -⟩ := (VirtualPath.resolve_accepted .root _).1 _ h
  exact ⟨_, h, hnormal, hnew, happend _ (by decide) (by decide)⟩

end Seahaven.Vfs
