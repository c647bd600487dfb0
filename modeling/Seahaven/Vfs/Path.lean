import Mathlib.Data.List.Infix
import Mathlib.Data.List.TakeWhile
import Seahaven.Text

/-!
# The virtual path grammar

A virtual path is `/`-separated and absolute, `..` is resolved lexically, and a component carries no
host dialect. The Unicode tables are not the repository's: they enter as the class `Unicode`, with
what the grammar relies on.
-/

namespace Seahaven.Vfs

open OsStr

/-! ## Unicode -/

def grammarChars : List OsChar := [.chr '/', .chr '\\', .chr ':', .chr '.', .chr ' ', .chr '\x00']

/-- What the grammar takes from the Unicode tables, with the facts of form C it relies on. -/
class Unicode where
  /-- `s.nfc().collect()`. -/
  nfc : OsStr → OsStr
  /-- `is_nfc_quick(s.chars()) == IsNormalized::Yes`. -/
  quick : OsStr → Bool
  /-- `s.flat_map(char::to_lowercase)`. -/
  lower : OsStr → OsStr
  /-- `format!("{s:?}")`. -/
  debug : OsStr → OsStr
  quick_sound : ∀ s, quick s = true → nfc s = s
  nfc_idem : ∀ s, nfc (nfc s) = nfc s
  nfc_nil : nfc [] = []
  /-- A grammar character is a boundary of normalization. -/
  nfc_boundary : ∀ a x b, x ∈ grammarChars → nfc (a ++ x :: b) = nfc a ++ x :: nfc b
  /-- No grammar character is the normal form of anything else. -/
  nfc_not_mem : ∀ s x, x ∈ grammarChars → x ∉ s → x ∉ nfc s
  /-- Only a Kelvin sign, a Greek question mark and a spacing varia normalize to ASCII. -/
  nfc_ascii : ∀ s, (∀ x ∈ nfc s, ∃ c : Char, x = .chr c ∧ c.toNat < 128 ∧
    c ≠ 'K' ∧ c ≠ ';' ∧ c.toNat ≠ 96) → nfc s = s
  nfc_ne_nil : ∀ s, s ≠ [] → nfc s ≠ []

/-! ## Components -/

/-- Why a path could not be interpreted as a virtual path. -/
inductive PathError
  | escape
  | backslash
  | colon (component : OsStr)
  | reservedName (component : OsStr)
  | trailingDotOrSpace (component : OsStr)
  | interiorNul
  | empty
  deriving DecidableEq

def reservedNames : List OsStr :=
  ["con", "prn", "aux", "nul", "com0", "com1", "com2", "com3", "com4", "com5", "com6", "com7",
    "com8", "com9", "lpt0", "lpt1", "lpt2", "lpt3", "lpt4", "lpt5", "lpt6", "lpt7", "lpt8",
    "lpt9"].map os

/-- `char::to_ascii_lowercase` on a unit. -/
def asciiLower : OsChar → OsChar
  | .chr c => .chr c.toLower
  | .raw b => .raw b

/-- `component.split_once('.').map_or(component, |(s, _)| s)`. -/
def stem (component : OsStr) : OsStr := component.takeWhile (· ≠ .chr '.')

def isReserved (component : OsStr) : Bool :=
  reservedNames.any fun r => (stem component).map asciiLower = r.map asciiLower

def endsDotOrSpace (component : OsStr) : Bool :=
  component.getLast? = some (.chr '.') || component.getLast? = some (.chr ' ')

theorem stem_of_not_mem {c : OsStr} (h : .chr '.' ∉ c) : stem c = c := by
  unfold stem
  rw [List.takeWhile_eq_self_iff]
  exact fun x hx => by simpa using ne_of_mem_of_not_mem hx h

theorem stem_append {a b : OsStr} (h : .chr '.' ∉ a) : stem (a ++ .chr '.' :: b) = a := by
  unfold stem
  rw [List.takeWhile_append_of_pos fun x hx => by simpa using ne_of_mem_of_not_mem hx h]
  simp

theorem toLower_eq_self {c : Char} (h : ¬ (65 ≤ c.toNat ∧ c.toNat ≤ 90)) : c.toLower = c :=
  dif_neg h

variable {s : OsStr} {x : OsChar}

theorem ascii_of_reserved {r : OsStr} (hr : r ∈ reservedNames)
    (h : s.map asciiLower = r.map asciiLower) (hx : x ∈ s) :
    ∃ c : Char, x = .chr c ∧ c.toNat < 128 ∧ c ≠ 'K' ∧ c ≠ ';' ∧ c.toNat ≠ 96 := by
  have hletters : ∀ r ∈ reservedNames, ∀ y ∈ r.map asciiLower,
      y ∈ "acdlmnoprtux0123456789".toList.map OsChar.chr := by decide
  obtain ⟨d, hd, hxd⟩ := List.mem_map.1 (hletters r hr (asciiLower x) (h ▸ List.mem_map_of_mem hx))
  have hplain : "acdlmnoprtux0123456789".toList.all fun d =>
      d.toNat < 128 ∧ d ≠ 'k' ∧ d ≠ ';' ∧ d.toNat ≠ 96 := by decide
  obtain ⟨hlt, hk, hq, hv⟩ := of_decide_eq_true (List.all_eq_true.1 hplain d hd)
  cases x with
  | raw b => cases hxd
  | chr c =>
    obtain rfl : d = c.toLower := by simpa [asciiLower] using hxd
    refine ⟨c, rfl, ?_, ?_, ?_, ?_⟩
    · by_contra hc
      exact hc (by rwa [toLower_eq_self fun h => hc (by have := h.2; omega)] at hlt)
    · rintro rfl
      exact hk (by decide)
    · rintro rfl
      exact hq (by decide)
    · intro hc
      exact hv (by rwa [toLower_eq_self fun h => by have := h.2; omega])

section

variable [Unicode]

open Unicode

/-- The text of an error. -/
def PathError.message : PathError → OsStr
  | .escape => os "path escapes the virtual root"
  | .backslash => os "path contains a backslash: only '/' separates components"
  | .colon c => os "path component contains a colon: " ++ debug c
  | .reservedName c => os "path component is a reserved device name: " ++ debug c
  | .trailingDotOrSpace c => os "path component ends with a dot or space: " ++ debug c
  | .interiorNul => os "path contains an interior NUL byte"
  | .empty => os "path is empty"

/-- Validates one path component and returns it in NFC. -/
def validateComponent (component : OsStr) : Except PathError OsStr :=
  if .chr ':' ∈ component then
    .error (.colon component)
  else if endsDotOrSpace component then
    .error (.trailingDotOrSpace component)
  else if isReserved component then
    .error (.reservedName component)
  else
    .ok (if quick component then component else nfc component)

def foldForCollision (component : OsStr) : OsStr := lower (nfc component)

/-- A component a virtual path holds: one the grammar keeps as it is. -/
structure IsComponent (c : OsStr) : Prop where
  ne_nil : c ≠ []
  no_slash : slash ∉ c
  no_backslash : .chr '\\' ∉ c
  no_nul : .chr '\x00' ∉ c
  validated : validateComponent c = .ok c

theorem quick_or_nfc (c : OsStr) : (if quick c then c else nfc c) = nfc c := by
  split_ifs with h
  · exact (quick_sound c h).symm
  · rfl

theorem validateComponent_eq_ok {c d : OsStr} : validateComponent c = .ok d ↔
    .chr ':' ∉ c ∧ endsDotOrSpace c = false ∧ isReserved c = false ∧ d = nfc c := by
  unfold validateComponent
  rw [quick_or_nfc]
  split_ifs with h₁ h₂ h₃
  · simp [h₁]
  · simp [h₂]
  · simp [h₃]
  · simp [h₁, h₂, h₃, eq_comm]

/-! ### The normal form of a component passes its own check -/

theorem nfc_snoc {a : OsStr} (hx : x ∈ grammarChars) :
    nfc (a ++ [x]) = nfc a ++ [x] := by
  rw [nfc_boundary a x [] hx, nfc_nil]

theorem mem_nfc (hx : x ∈ grammarChars) : x ∈ nfc s ↔ x ∈ s := by
  constructor
  · intro h
    by_contra hs
    exact nfc_not_mem s x hx hs h
  · intro h
    obtain ⟨a, b, rfl⟩ := List.append_of_mem h
    rw [nfc_boundary a x b hx]
    simp

theorem getLast?_nfc (hx : x ∈ grammarChars) :
    (nfc s).getLast? = some x ↔ s.getLast? = some x := by
  constructor
  · intro h
    have hmem : x ∈ s.reverse := List.mem_reverse.2 ((mem_nfc hx).1 (List.mem_of_getLast? h))
    -- the last occurrence of `x`: anything after it would be last in the normal form as well
    obtain ⟨b, a, hs, hb⟩ := List.eq_append_cons_of_mem hmem
    have hs : s = a.reverse ++ x :: b.reverse := by
      rw [← List.reverse_reverse s, hs]
      simp
    by_cases hnil : b.reverse = []
    · rw [hs, hnil]
      simp
    · rw [hs, nfc_boundary _ x _ hx, ← List.singleton_append, ← List.append_assoc,
        List.getLast?_append_of_ne_nil _ (nfc_ne_nil _ hnil)] at h
      exact absurd (List.mem_reverse.1 ((mem_nfc hx).1 (List.mem_of_getLast? h))) hb
  · intro h
    obtain ⟨a, rfl⟩ := List.getLast?_eq_some_iff.1 h
    rw [nfc_snoc hx]
    simp

theorem endsDotOrSpace_nfc (c : OsStr) : endsDotOrSpace (nfc c) = endsDotOrSpace c := by
  simp only [endsDotOrSpace, getLast?_nfc (show OsChar.chr '.' ∈ grammarChars by decide),
    getLast?_nfc (show OsChar.chr ' ' ∈ grammarChars by decide)]

theorem stem_nfc (c : OsStr) : stem (nfc c) = nfc (stem c) := by
  have hdot : OsChar.chr '.' ∈ grammarChars := by decide
  by_cases h : OsChar.chr '.' ∈ c
  · obtain ⟨a, b, rfl, ha⟩ := List.eq_append_cons_of_mem h
    rw [nfc_boundary a _ b hdot, stem_append ha, stem_append (mt (mem_nfc hdot).1 ha)]
  · rw [stem_of_not_mem h, stem_of_not_mem (mt (mem_nfc hdot).1 h)]

theorem isReserved_of_nfc {c : OsStr} (h : isReserved (nfc c) = true) : isReserved c = true := by
  simp only [isReserved, List.any_eq_true, decide_eq_true_eq, stem_nfc] at h ⊢
  obtain ⟨r, hr, h⟩ := h
  have hs : nfc (stem c) = stem c := nfc_ascii _ fun x hx => ascii_of_reserved hr h hx
  exact ⟨r, hr, hs ▸ h⟩

/-- **What the validation answers passes it unchanged.** -/
theorem isComponent_of_validate {c d : OsStr} (hne : c ≠ []) (hslash : slash ∉ c)
    (hback : .chr '\\' ∉ c) (hnul : .chr '\x00' ∉ c) (h : validateComponent c = .ok d) :
    IsComponent d := by
  obtain ⟨hcolon, hends, hres, rfl⟩ := validateComponent_eq_ok.1 h
  refine ⟨nfc_ne_nil c hne, mt (mem_nfc (by decide)).1 hslash, mt (mem_nfc (by decide)).1 hback,
    mt (mem_nfc (by decide)).1 hnul, validateComponent_eq_ok.2 ⟨mt (mem_nfc (by decide)).1 hcolon,
    (endsDotOrSpace_nfc c).trans hends, ?_, (nfc_idem c).symm⟩⟩
  by_contra hr
  rw [isReserved_of_nfc (by simpa using hr)] at hres
  cases hres

namespace IsComponent

variable {c : OsStr} (h : IsComponent c)

include h

theorem not_ends : endsDotOrSpace c = false := (validateComponent_eq_ok.1 h.validated).2.1

theorem ne_dot : c ≠ dot := by
  rintro rfl
  cases h.not_ends

theorem ne_dotdot : c ≠ dotdot := by
  rintro rfl
  cases h.not_ends

end IsComponent

instance (c : OsStr) : Decidable (IsComponent c) :=
  decidable_of_iff (c ≠ [] ∧ slash ∉ c ∧ .chr '\\' ∉ c ∧ .chr '\x00' ∉ c ∧
      validateComponent c = .ok c)
    ⟨fun ⟨h₁, h₂, h₃, h₄, h₅⟩ => ⟨h₁, h₂, h₃, h₄, h₅⟩,
      fun h => ⟨h.ne_nil, h.no_slash, h.no_backslash, h.no_nul, h.validated⟩⟩

/-! ## Virtual paths -/

/-- An absolute, normalized path in the virtual namespace, by its components. -/
@[ext] structure VirtualPath where
  components : List OsStr
  valid : ∀ c ∈ components, IsComponent c

instance : DecidableEq VirtualPath := fun p q =>
  decidable_of_iff (p.components = q.components) VirtualPath.ext_iff.symm

/-- The loop of `resolve` over the raw components. -/
def resolveLoop (components : List OsStr) : List OsStr → Except PathError (List OsStr)
  | [] => .ok components
  | raw :: rest =>
    if raw = [] ∨ raw = dot then
      resolveLoop components rest
    else if raw = dotdot then
      if components = [] then .error .escape else resolveLoop components.dropLast rest
    else
      match validateComponent raw with
      | .ok c => resolveLoop (components ++ [c]) rest
      | .error e => .error e

theorem resolveLoop_valid {components raws out : List OsStr}
    (hc : ∀ c ∈ components, IsComponent c)
    (hraws : ∀ r ∈ raws, slash ∉ r ∧ .chr '\\' ∉ r ∧ .chr '\x00' ∉ r)
    (h : resolveLoop components raws = .ok out) : ∀ c ∈ out, IsComponent c := by
  induction raws generalizing components with
  | nil =>
    obtain rfl : components = out := by simpa [resolveLoop] using h
    exact hc
  | cons raw rest ih =>
    have hrest := fun r hr => hraws r (List.mem_cons_of_mem _ hr)
    unfold resolveLoop at h
    split_ifs at h with h₁ h₂ h₃
    · exact ih hc hrest h
    · exact ih (fun c h => hc c (List.dropLast_subset _ h)) hrest h
    · obtain ⟨hslash, hback, hnul⟩ := hraws raw List.mem_cons_self
      cases hv : validateComponent raw with
      | error e => simp [hv] at h
      | ok c =>
        simp only [hv] at h
        refine ih (fun d hd => ?_) hrest h
        rcases List.mem_append.1 hd with hd | hd
        · exact hc d hd
        · rw [List.mem_singleton.1 hd]
          exact isComponent_of_validate (fun e => h₁ (Or.inl e)) hslash hback hnul hv

namespace VirtualPath

/-- The virtual root, `/`. -/
def root : VirtualPath := ⟨[], by simp⟩

/-- The components of `resolve`. -/
def resolveComponents (p : VirtualPath) (path : OsStr) : Except PathError (List OsStr) :=
  if path = [] then
    .error .empty
  else if .chr '\x00' ∈ path then
    .error .interiorNul
  else if .chr '\\' ∈ path then
    .error .backslash
  else
    resolveLoop (if path.isAbsolute then [] else p.components) path.split

variable {p : VirtualPath} {path : OsStr}

theorem resolveComponents_valid {out : List OsStr}
    (h : p.resolveComponents path = .ok out) : ∀ c ∈ out, IsComponent c := by
  unfold resolveComponents at h
  split_ifs at h with _ hnul hback habs
  all_goals
    refine resolveLoop_valid ?_ (fun _ hr => ⟨slash_not_mem_of_mem_split hr,
      mt (mem_of_mem_split hr) hback, mt (mem_of_mem_split hr) hnul⟩) h
  · simp
  · exact p.valid

/-- Resolves `path` against this path, which is treated as a directory. -/
def resolve (p : VirtualPath) (path : OsStr) : Except PathError VirtualPath :=
  match h : p.resolveComponents path with
  | .ok components => .ok ⟨components, resolveComponents_valid h⟩
  | .error e => .error e

/-- Interprets `path` as absolute. -/
def new (path : OsStr) : Except PathError VirtualPath := root.resolve path

/-- The path as a string, always beginning with `/`. -/
def asStr (p : VirtualPath) : OsStr := slash :: join p.components

def isRoot (p : VirtualPath) : Bool := p.components.isEmpty

/-- The parent path, or `none` at the root. -/
def parent (p : VirtualPath) : Option VirtualPath :=
  if p.isRoot then none
  else some ⟨p.components.dropLast, fun c h => p.valid c (List.dropLast_subset _ h)⟩

/-- The final component, or `none` at the root. -/
def fileName (p : VirtualPath) : Option OsStr := p.components.getLast?

/-- Whether this path is `prefix` or lies beneath it. -/
def startsWith (p base : VirtualPath) : Bool := base.components.isPrefixOf p.components

/-- The components of this path relative to `base`, if it lies beneath it. -/
def stripPrefix (p base : VirtualPath) : Option (List OsStr) :=
  if p.startsWith base then some (p.components.drop base.components.length) else none

/-- This path extended by a component. -/
def push (p : VirtualPath) (c : OsStr) (hc : IsComponent c) : VirtualPath :=
  ⟨p.components ++ [c], by
    intro d hd
    rcases List.mem_append.1 hd with hd | hd
    · exact p.valid d hd
    · exact List.mem_singleton.1 hd ▸ hc⟩

/-! ### Resolution -/

variable {q : VirtualPath}

theorem resolve_eq_ok : p.resolve path = .ok q ↔ p.resolveComponents path = .ok q.components := by
  unfold resolve
  split <;> rename_i h <;> simp [h, VirtualPath.ext_iff]

theorem resolve_eq_error {e : PathError} :
    p.resolve path = .error e ↔ p.resolveComponents path = .error e := by
  unfold resolve
  split <;> rename_i h <;> simp [h]

theorem resolveComponents_of_slash_not_mem {c : OsStr} (hne : c ≠ [])
    (hslash : slash ∉ c) (hnul : .chr '\x00' ∉ c) (hback : .chr '\\' ∉ c) :
    p.resolveComponents c = resolveLoop p.components [c] := by
  rw [resolveComponents, if_neg hne, if_neg hnul, if_neg hback,
    isAbsolute_of_slash_not_mem hslash, split_of_slash_not_mem hslash]
  rfl

theorem resolve_name {c : OsStr} (hne : c ≠ []) (hslash : slash ∉ c)
    (hdot : c ≠ dot) (hdotdot : c ≠ dotdot) : p.resolve c = .ok q ↔
      .chr '\x00' ∉ c ∧ .chr '\\' ∉ c ∧
        ∃ d, validateComponent c = .ok d ∧ q.components = p.components ++ [d] := by
  rw [resolve_eq_ok]
  by_cases hnul : OsChar.chr '\x00' ∈ c
  · simp [resolveComponents, hne, hnul]
  by_cases hback : OsChar.chr '\\' ∈ c
  · simp [resolveComponents, hne, hnul, hback]
  rw [resolveComponents_of_slash_not_mem hne hslash hnul hback, resolveLoop,
    if_neg (not_or.2 ⟨hne, hdot⟩), if_neg hdotdot]
  cases hv : validateComponent c with
  | error e => simp
  | ok d => simp [hnul, hback, resolveLoop, eq_comm]

@[simp] theorem components_push (p : VirtualPath) (c : OsStr) (hc : IsComponent c) :
    (p.push c hc).components = p.components ++ [c] := rfl

theorem resolve_component (p : VirtualPath) {c : OsStr} (hc : IsComponent c) :
    p.resolve c = .ok (p.push c hc) :=
  (resolve_name hc.ne_nil hc.no_slash hc.ne_dot hc.ne_dotdot).2
    ⟨hc.no_nul, hc.no_backslash, c, hc.validated, rfl⟩

theorem resolve_dot (p : VirtualPath) : p.resolve dot = .ok p := by
  rw [resolve_eq_ok, resolveComponents_of_slash_not_mem (by decide) (by decide) (by decide)
    (by decide)]
  rfl

theorem resolve_dotdot_of_parent (h : p.parent = some q) :
    p.resolve dotdot = .ok q := by
  unfold parent at h
  split_ifs at h with hroot
  obtain rfl := Option.some.inj h
  rw [resolve_eq_ok, resolveComponents_of_slash_not_mem (by decide) (by decide) (by decide)
    (by decide), resolveLoop, if_neg (by decide), if_pos rfl,
    if_neg (by simpa [isRoot] using hroot)]
  rfl

theorem resolve_dotdot_of_root (h : p.parent = none) :
    p.resolve dotdot = .error .escape := by
  unfold parent at h
  split_ifs at h with hroot
  rw [resolve_eq_error, resolveComponents_of_slash_not_mem (by decide) (by decide) (by decide)
    (by decide), resolveLoop, if_neg (by decide), if_pos rfl,
    if_pos (by simpa [isRoot] using hroot)]

/-! ### Prefixes -/

variable {base : VirtualPath}

theorem startsWith_iff :
    p.startsWith base = true ↔ base.components <+: p.components := List.isPrefixOf_iff_prefix

theorem stripPrefix_eq_some {rest : List OsStr} :
    p.stripPrefix base = some rest ↔ p.components = base.components ++ rest := by
  unfold stripPrefix
  split_ifs with h
  · obtain ⟨t, ht⟩ := startsWith_iff.1 h
    rw [← ht, List.drop_left]
    simp
  · simp only [false_iff]
    exact fun e => h (startsWith_iff.2 (e ▸ List.prefix_append _ _))

theorem stripPrefix_eq_none : p.stripPrefix base = none ↔ ¬ base.components <+: p.components := by
  unfold stripPrefix
  split_ifs with h
  · simpa using startsWith_iff.1 h
  · simpa using mt startsWith_iff.2 h

theorem components_asStr (p : VirtualPath) : p.asStr.components = p.components := by
  have hjoin := components_join fun c hc => ⟨(p.valid c hc).ne_nil, (p.valid c hc).no_slash⟩
  rw [← hjoin, asStr, OsStr.components, split_cons, if_pos rfl]
  rfl

theorem mem_asStr (h : x ∈ p.asStr) :
    x = slash ∨ ∃ c ∈ p.components, x ∈ c := (List.mem_cons.1 h).elim Or.inl mem_join

theorem resolveLoop_components {base l : List OsStr} (hl : ∀ c ∈ l, IsComponent c) :
    resolveLoop base l = .ok (base ++ l) := by
  induction l generalizing base with
  | nil => simp [resolveLoop]
  | cons c l ih =>
    obtain ⟨hc, hrest⟩ := List.forall_mem_cons.1 hl
    rw [resolveLoop, if_neg (not_or.2 ⟨hc.ne_nil, hc.ne_dot⟩), if_neg hc.ne_dotdot, hc.validated]
    dsimp only
    rw [ih hrest, List.append_assoc, List.singleton_append]

/-- **The text of a path reads as the path**, wherever it is read from. -/
theorem resolve_asStr (p q : VirtualPath) : p.resolve q.asStr = .ok q := by
  rw [resolve_eq_ok, resolveComponents, if_neg (by simp [asStr]), if_neg, if_neg,
    if_pos (by simp [asStr, isAbsolute])]
  · rw [asStr, split_cons, if_pos rfl, resolveLoop, if_pos (Or.inl rfl)]
    by_cases hnil : q.components = []
    · rw [hnil, show join [] = ([] : OsStr) by simp [join], split_nil, resolveLoop,
        if_pos (Or.inl rfl), resolveLoop]
    · rw [split_join hnil fun c hc => (q.valid c hc).no_slash, resolveLoop_components q.valid,
        List.nil_append]
  · intro h
    rcases mem_asStr h with h | ⟨c, hc, h⟩
    · exact absurd h (by decide)
    · exact (q.valid c hc).no_backslash h
  · intro h
    rcases mem_asStr h with h | ⟨c, hc, h⟩
    · exact absurd h (by decide)
    · exact (q.valid c hc).no_nul h

theorem asStr_inj (h : p.asStr = q.asStr) : p = q :=
  VirtualPath.ext (by rw [← components_asStr, h, components_asStr])

end VirtualPath

end

/-- Texts that are in form C already, as every text in ASCII is. -/
@[reducible] def composed : Unicode where
  nfc s := s
  quick _ := true
  lower s := s.map asciiLower
  debug s := os "\"" ++ s ++ os "\""
  quick_sound _ _ := rfl
  nfc_idem _ := rfl
  nfc_nil := rfl
  nfc_boundary _ _ _ _ := rfl
  nfc_not_mem _ _ _ h := h
  nfc_ascii _ _ := rfl
  nfc_ne_nil _ h := h

theorem work_valid : ∀ c ∈ [os "work"], @IsComponent composed c := by decide

end Seahaven.Vfs
