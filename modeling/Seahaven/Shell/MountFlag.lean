import Mathlib.Data.List.Destutter
import Seahaven.Shell.Consent
import Seahaven.Shell.HostText
import Seahaven.Shell.Policy
import Seahaven.Vfs.Table

/-!
# The flag a refusal prints

A refusal prints a `--mount` flag for each mount that was not granted (`as_flag`), and the flag is
read back by `build_mount_table`. The reader takes the access suffix off as often as it stands at
the end, and the printer replaces what is no text.

1. `parseMount`: one specification. What the reader makes of a printed one is `parseMount_spec`.
2. `GrantedDir.Printable`: the mounts the reader reads back, by `reads_iff_printable`.
3. `flags_grant_iff`: the flags grant what was refused exactly when all of it is printable.
-/

namespace Seahaven.Trust

open OsStr Vfs MountTable
open Shell (pathComponents)

/-! ## Specifications -/

/-- The loop of `trim_end_matches`. -/
def trimLoop (pat : OsStr) : Nat → OsStr → OsStr
  | 0, s => s
  | fuel + 1, s => if pat <:+ s then trimLoop pat fuel (s.take (s.length - pat.length)) else s

/-- `s.trim_end_matches(pat)`: every copy of `pat` at the end goes. -/
def trimEndMatches (pat s : OsStr) : OsStr := trimLoop pat s.length s

/-- `s.strip_suffix(pat)`, or the text as it is. -/
def withoutSuffix (pat s : OsStr) : OsStr :=
  if pat <:+ s then s.take (s.length - pat.length) else s

/-- `s.split_once(sep)`. -/
def splitOnce (sep : OsChar) : OsStr → Option (OsStr × OsStr)
  | [] => none
  | c :: s =>
    if c = sep then some ([], s) else (splitOnce sep s).map fun (a, b) => (c :: a, b)

abbrev colon : OsChar := .chr ':'

def accessSuffix : Access → OsStr
  | .readOnly => os ":ro"
  | .readWrite => os ":rw"

/-- The access a specification asks for, and the specification without its suffix. -/
def readAccess (spec : OsStr) : OsStr × Access :=
  if accessSuffix .readOnly <:+ spec then (trimEndMatches (accessSuffix .readOnly) spec, .readOnly)
  else if accessSuffix .readWrite <:+ spec then
    (trimEndMatches (accessSuffix .readWrite) spec, .readWrite)
  else (spec, .readWrite)

def readOneAccess (spec : OsStr) : OsStr × Access :=
  if accessSuffix .readOnly <:+ spec then (withoutSuffix (accessSuffix .readOnly) spec, .readOnly)
  else (withoutSuffix (accessSuffix .readWrite) spec, .readWrite)

variable {a : Access}

section Texts

/-! ## Suffixes -/

variable {pat s : OsStr} {sep : OsChar}

theorem trimLoop_isPrefix (n : Nat) : trimLoop pat n s <+: s := by
  induction n generalizing s with
  | zero => exact List.prefix_refl s
  | succ n ih =>
    rw [trimLoop]
    split_ifs
    · exact ih.trans (List.take_prefix _ _)
    · exact List.prefix_refl s

theorem take_of_append (a b : OsStr) : (a ++ b).take ((a ++ b).length - b.length) = a := by
  rw [List.length_append, Nat.add_sub_cancel, List.take_left]

theorem trimEndMatches_append (hpat : pat ≠ []) :
    ∃ n, (s ++ pat).length = n + 1 ∧ trimEndMatches pat (s ++ pat) = trimLoop pat n s := by
  obtain ⟨n, hn⟩ : ∃ n, (s ++ pat).length = n + 1 :=
    Nat.exists_eq_succ_of_ne_zero (by simp [hpat])
  refine ⟨n, hn, ?_⟩
  rw [trimEndMatches, hn, trimLoop, if_pos (List.suffix_append s pat), take_of_append]

theorem trimEndMatches_once (hpat : pat ≠ []) (h : ¬ pat <:+ s) :
    trimEndMatches pat (s ++ pat) = s := by
  obtain ⟨n, -, htrim⟩ := trimEndMatches_append (s := s) hpat
  rw [htrim]
  cases n with
  | zero => rfl
  | succ n => exact if_neg h

theorem trimEndMatches_twice (hpat : pat ≠ []) :
    trimEndMatches pat (s ++ pat ++ pat) <+: s := by
  obtain ⟨n, hn, htrim⟩ := trimEndMatches_append (s := s ++ pat) hpat
  have hlen := List.length_pos_iff.2 hpat
  simp only [List.length_append] at hn
  obtain ⟨n, rfl⟩ : ∃ k, n = k + 1 := ⟨n - 1, by omega⟩
  rw [htrim, trimLoop, if_pos (List.suffix_append s pat), take_of_append]
  exact trimLoop_isPrefix n

theorem withoutSuffix_append : withoutSuffix pat (s ++ pat) = s := by
  rw [withoutSuffix, if_pos (List.suffix_append s pat), take_of_append]

theorem splitOnce_append {a b : OsStr} (ha : sep ∉ a) :
    splitOnce sep (a ++ sep :: b) = some (a, b) := by
  induction a with
  | nil => simp [splitOnce]
  | cons c a ih =>
    rw [List.mem_cons, not_or] at ha
    rw [List.cons_append, splitOnce, if_neg (Ne.symm ha.1), ih ha.2]
    rfl

theorem splitOnce_of_not_mem (h : sep ∉ s) : splitOnce sep s = none := by
  induction s with
  | nil => rfl
  | cons c s ih =>
    rw [List.mem_cons, not_or] at h
    rw [splitOnce, if_neg (Ne.symm h.1), ih h.2]
    rfl

theorem accessSuffix_ne_nil (a : Access) : accessSuffix a ≠ [] := by cases a <;> decide

theorem accessSuffix_inj {b : Access} (ha : accessSuffix a <:+ s ++ accessSuffix b) : a = b := by
  have hlen : (accessSuffix a).length = (accessSuffix b).length := by
    cases a <;> cases b <;> decide
  obtain ⟨r, hr⟩ := ha
  have := (List.append_inj' hr hlen).2
  cases a <;> cases b <;> first | rfl | exact absurd this (by decide)

theorem readAccess_append (a : Access) :
    readAccess (s ++ accessSuffix a) = (trimEndMatches (accessSuffix a) (s ++ accessSuffix a), a) ∧
      readOneAccess (s ++ accessSuffix a) = (s, a) := by
  have hend := List.suffix_append s (accessSuffix a)
  unfold readAccess readOneAccess
  cases a with
  | readOnly => exact ⟨if_pos hend, by rw [if_pos hend, withoutSuffix_append]⟩
  | readWrite =>
    have hro : ¬ accessSuffix .readOnly <:+ s ++ accessSuffix .readWrite := fun h =>
      nomatch accessSuffix_inj h
    rw [if_neg hro, if_pos hend, if_neg hro, withoutSuffix_append]
    exact ⟨rfl, rfl⟩

theorem readAccess_eq_readOneAccess_iff (spec : OsStr) : readAccess spec = readOneAccess spec ↔
    ∀ a, ¬ accessSuffix a ++ accessSuffix a <:+ spec := by
  by_cases h : ∃ a s, spec = s ++ accessSuffix a
  · obtain ⟨a, s, rfl⟩ := h
    obtain ⟨hread, hone⟩ := readAccess_append (s := s) a
    have htwice : (∀ b, ¬ accessSuffix b ++ accessSuffix b <:+ s ++ accessSuffix a) ↔
        ¬ accessSuffix a <:+ s := by
      constructor
      · rintro hno ⟨r, rfl⟩
        exact hno a ⟨r, (List.append_assoc _ _ _).symm⟩
      · intro hno b hb
        obtain rfl := accessSuffix_inj ((List.suffix_append _ _).trans hb)
        obtain ⟨r, hr⟩ := hb
        rw [← List.append_assoc] at hr
        exact hno ⟨r, List.append_cancel_right hr⟩
    rw [hread, hone, htwice, Prod.mk.injEq, and_iff_left rfl]
    refine ⟨fun heq ⟨r, hr⟩ => ?_, trimEndMatches_once (accessSuffix_ne_nil a)⟩
    subst hr
    have hle := (trimEndMatches_twice (s := r) (accessSuffix_ne_nil a)).length_le
    have hlen := List.length_pos_iff.2 (accessSuffix_ne_nil a)
    rw [heq, List.length_append] at hle
    omega
  · have hno : ∀ a, ¬ accessSuffix a <:+ spec := fun a ⟨s, hs⟩ => h ⟨a, s, hs.symm⟩
    unfold readAccess readOneAccess withoutSuffix
    rw [if_neg (hno _), if_neg (hno _), if_neg (hno _), if_neg (hno _)]
    refine iff_of_true rfl fun a ha => hno a ((List.suffix_append _ _).trans ha)

theorem accessSuffix_suffix_iff {p h : OsStr} :
    accessSuffix a <:+ p ++ colon :: h ↔ accessSuffix a <:+ colon :: h := by
  refine ⟨fun hsuf => ?_, fun hsuf => hsuf.trans (List.suffix_append _ _)⟩
  rcases List.suffix_or_suffix_of_suffix hsuf (List.suffix_append p (colon :: h)) with hs | hs
  · exact hs
  -- the colon of the shorter text is the one the suffix starts with
  · have htails : ∀ t, colon :: t <:+ accessSuffix a → colon :: t = accessSuffix a := by
      have hall : ∀ t ∈ (accessSuffix a).tails, t.head? = some colon → t = accessSuffix a := by
        cases a <;> decide
      exact fun t ht => hall _ ((List.mem_tails _ _).2 ht) rfl
    rw [htails h hs]

theorem count_pathComponents {x : OsChar} (hslash : x ≠ slash) (hdot : x ≠ .chr '.') (s : OsStr) :
    (pathComponents s).flatten.count x = s.count x := by
  have hsplit : s.split.flatten.count x = s.count x := by
    induction s with
    | nil => simp [split_nil]
    | cons c s ih =>
      rw [split_cons]
      split_ifs with hc
      · rw [List.flatten_cons, List.nil_append, ih, List.count_cons_of_ne]
        rwa [hc, ne_comm]
      · obtain ⟨first, rest, hs⟩ := List.exists_cons_of_ne_nil (split_ne_nil s)
        rw [hs] at ih ⊢
        rw [List.modifyHead_cons, List.flatten_cons, List.cons_append, List.count_cons,
          List.count_cons, ← ih, List.flatten_cons]
  have hmeant : ∀ parts : List OsStr,
      (parts.filter fun c => c ≠ [] && c ≠ OsStr.dot).flatten.count x = parts.flatten.count x := by
    intro parts
    induction parts with
    | nil => rfl
    | cons c parts ih =>
      rw [List.filter_cons, List.flatten_cons, List.count_append, ← ih]
      split_ifs with hc
      · rw [List.flatten_cons, List.count_append]
      · have : c.count x = 0 := by
          rw [List.count_eq_zero]
          rcases (by simpa [imp_iff_not_or] using hc : c = [] ∨ c = OsStr.dot) with rfl | rfl
          · exact List.not_mem_nil
          · simpa using hdot
        rw [this, Nat.zero_add]
  rw [← hsplit]
  unfold pathComponents
  obtain ⟨first, rest, hs⟩ := List.exists_cons_of_ne_nil (split_ne_nil s)
  rw [hs]
  dsimp only
  split_ifs with habs hfirst
  · have hnil : first = [] := by
      cases s with
      | nil => cases habs
      | cons c s =>
        have hc : c = slash := by simpa [isAbsolute] using habs
        rw [split_cons, if_pos hc] at hs
        exact (List.cons.inj hs).1.symm
    rw [List.flatten_cons, List.count_append, hmeant, hnil, List.flatten_cons, List.nil_append]
    have : List.count x [slash] = 0 := List.count_eq_zero.2 (by simpa using hslash)
    rw [this, Nat.zero_add]
  · rw [hmeant, hfirst, List.flatten_cons, List.nil_append]
  · rw [List.flatten_cons, List.flatten_cons, List.count_append, List.count_append, hmeant]

end Texts

/-! ## Building a table -/

/-- Why `--mount` flags build no table. -/
inductive FlagError [Unicode]
  /-- The specification has no mount point. -/
  | shape (spec : OsStr)
  | entry (spec : OsStr) (e : MountError)
  | table (e : MountError)

def parseMount [Unicode] (spec : OsStr) : Except FlagError (OsStr × OsStr × Access) :=
  let (rest, access) := readAccess spec
  match splitOnce colon rest with
  | none => .error (.shape spec)
  | some (at', host) => .ok (at', host, access)

section Tables

variable [Unicode]

def FlagError.message : FlagError → OsStr
  | .shape spec => os "--mount needs VIRTUAL:HOST[:ro|:rw], got '" ++ spec ++ os "'"
  | .entry spec e => os "--mount '" ++ spec ++ os "': " ++ e.message
  | .table e => os "--mount: " ++ e.message

/-- One round of `build_mount_table`. -/
def addSpec (builder : MountTableBuilder) (spec : OsStr) : Except FlagError MountTableBuilder :=
  match parseMount spec with
  | .error e => .error e
  | .ok (at', host, access) =>
    (builder.mount at' (pathComponents host) access).mapError (.entry spec)

/-- Parses `--mount` specifications into a mount table. -/
def buildMountTable (host : MountHost) (specs : List OsStr) : Except FlagError MountTable :=
  match specs.foldlM addSpec ⟨[]⟩ with
  | .error e => .error e
  | .ok builder => (builder.build host).mapError .table

/-! ## What is granted -/

/-- `GrantedMount`, with the host directory as it is spelled. -/
structure GrantedDir where
  «at» : OsStr
  host : OsStr
  writable : Bool

namespace GrantedDir

def granted (m : GrantedDir) : GrantedMount := ⟨m.at, pathComponents m.host, m.writable⟩

def access (m : GrantedDir) : Access := if m.writable then .readWrite else .readOnly

def spec (m : GrantedDir) : OsStr :=
  m.at ++ colon :: (m.host.toStringLossy ++ accessSuffix m.access)

/-- The `--mount` flag that would grant exactly this. -/
def asFlag (m : GrantedDir) : OsStr := os "--mount " ++ m.spec

/-- The host directory is text, and what stands before it and it do not end as the access does. -/
def Printable (m : GrantedDir) : Prop :=
  m.host.isUtf8 = true ∧ ¬ accessSuffix m.access <:+ colon :: m.host

end GrantedDir

def refusal (excess : List GrantedDir) : OsStr :=
  os "this project asks for access that has not been granted, and there is no terminal to ask on. " ++
    os "Grant it explicitly with:\n    " ++
    List.intercalate (os "\n    ") (excess.map GrantedDir.asFlag)

/-- A mount as consent records it, its host directory spelled as `text` says. -/
def grantedDir (text : Mount → OsStr) (m : Mount) : GrantedDir :=
  ⟨m.at.asStr, text m, m.access = .readWrite⟩

/-- The set consent records of a mount table, sorted and without repetitions, its host directories
as they are spelled. -/
def printedSet (text : Mount → OsStr) (t : MountTable) : List GrantedDir :=
  (((t.mounts.filter fun m => m.hostPath.isSome).map (grantedDir text)).insertionSort fun a b =>
    (a.granted.cmp b.granted).isLE = true).destutter fun a b => a.granted ≠ b.granted

def entriesOf (t : MountTable) : List GrantedMount :=
  t.mounts.filterMap fun m => m.hostPath.map fun p => ⟨m.at.asStr, p, m.access = .readWrite⟩

/-- The flags printed for `s` build a table of what `s` names. -/
def FlagsGrant (host : MountHost) (s : List GrantedDir) : Prop :=
  ∃ t, buildMountTable host (s.map GrantedDir.spec) = .ok t ∧
    (entriesOf t).Perm (s.map GrantedDir.granted)

/-! ## Reading a flag back -/

theorem colon_not_mem_asStr (p : VirtualPath) : colon ∉ p.asStr := fun hmem => by
  rcases VirtualPath.mem_asStr hmem with h | ⟨c, hc, h⟩
  · cases h
  · exact (validateComponent_eq_ok.1 (p.valid c hc).validated).1 h

/-- What the reader makes of a text with a mount point: it refuses it, or finds the mount point and
all of the rest, or of a rest that ends as the access does a smaller part. -/
theorem parseMount_append {p h : OsStr} (hp : colon ∉ p) :
    (¬ accessSuffix a <:+ colon :: h →
      parseMount (p ++ colon :: (h ++ accessSuffix a)) = .ok (p, h, a)) ∧
    (accessSuffix a <:+ colon :: h → ∀ r, parseMount (p ++ colon :: (h ++ accessSuffix a)) = .ok r →
      ∃ h', r = (p, h', a) ∧ h' <+: h ∧ h'.count colon < h.count colon) := by
  have hspec : p ++ colon :: (h ++ accessSuffix a) = (p ++ colon :: h) ++ accessSuffix a := by simp
  have hne := accessSuffix_ne_nil a
  unfold parseMount
  rw [hspec, (readAccess_append a).1]
  dsimp only
  constructor
  · intro hno
    rw [trimEndMatches_once hne (mt (accessSuffix_suffix_iff).1 hno), splitOnce_append hp]
  · intro hsuf r hr
    obtain ⟨b, hb⟩ := (accessSuffix_suffix_iff).2 hsuf
    rw [← hb] at hr
    have hpre : trimEndMatches (accessSuffix a) (b ++ accessSuffix a ++ accessSuffix a) <+: b :=
      trimEndMatches_twice hne
    generalize trimEndMatches (accessSuffix a) (b ++ accessSuffix a ++ accessSuffix a) = rest at *
    have hcount : rest.count colon < (p ++ colon :: h).count colon := by
      have hone : (accessSuffix a).count colon = 1 := by cases a <;> decide
      rw [← hb, List.count_append, hone]
      exact Nat.lt_succ_of_le (hpre.sublist.count_le _)
    have hrest : rest <+: p ++ colon :: h := hb ▸ hpre.trans (List.prefix_append _ _)
    by_cases hmem : colon ∈ rest
    · -- the first colon is the one behind the mount point
      obtain ⟨h', rfl⟩ : ∃ h', rest = p ++ colon :: h' := by
        rcases List.prefix_or_prefix_of_prefix hrest (List.prefix_append p (colon :: h)) with hs | hs
        · exact absurd (hs.subset hmem) hp
        · obtain ⟨t, rfl⟩ := hs
          rw [List.prefix_append_right_inj] at hrest
          cases t with
          | nil => exact absurd hmem (by simpa using hp)
          | cons c t => exact ⟨t, by rw [(List.cons_prefix_cons.1 hrest).1]⟩
      rw [splitOnce_append hp] at hr
      rw [List.prefix_append_right_inj, List.cons_prefix_cons] at hrest
      refine ⟨h', (Except.ok.inj hr).symm, hrest.2, ?_⟩
      simpa [List.count_append] using hcount
    · rw [splitOnce_of_not_mem hmem] at hr
      cases hr

def Reads (spec : OsStr) (e : Entry) : Prop :=
  ∃ at' host, parseMount spec = .ok (at', host, e.access) ∧ VirtualPath.new at' = .ok e.at ∧
    e.host = pathComponents host

def grantOf (e : Entry) : GrantedMount := ⟨e.at.asStr, e.host, e.access = .readWrite⟩

/-- What the flag of a grant reads as: the grant itself where it can be printed, and the same mount
point at another directory at best where not. -/
theorem reads_iff_printable {m : GrantedDir} {p : VirtualPath} (hat : m.at = p.asStr) :
    (m.Printable → Reads m.spec ⟨p, pathComponents m.host, m.access⟩) ∧
      ∀ e, Reads m.spec e → e.at = p ∧ (¬ m.Printable → e.host ≠ pathComponents m.host) := by
  have hp := colon_not_mem_asStr p
  have hnew : VirtualPath.new p.asStr = .ok p := VirtualPath.resolve_asStr _ p
  obtain ⟨honce, htwice⟩ := parseMount_append (h := m.host.toStringLossy) (a := m.access) hp
  unfold Reads GrantedDir.spec
  rw [hat]
  refine ⟨fun ⟨htext, hno⟩ => ?_, ?_⟩
  · rw [show m.host.toStringLossy = m.host from fromUtf8Lossy_bytes htext] at honce ⊢
    exact ⟨_, _, honce hno, hnew, rfl⟩
  · rintro e ⟨at', host, hparse, hpath, hhost⟩
    have hread : at' = p.asStr ∧ host <+: m.host.toStringLossy ∧
        (accessSuffix m.access <:+ colon :: m.host.toStringLossy →
          host.count colon < m.host.toStringLossy.count colon) := by
      by_cases hsuf : accessSuffix m.access <:+ colon :: m.host.toStringLossy
      · obtain ⟨h', heq, hpre, hcount⟩ := htwice hsuf _ hparse
        obtain ⟨rfl, rfl, -⟩ : at' = p.asStr ∧ host = h' ∧ e.access = m.access := by simpa using heq
        exact ⟨rfl, hpre, fun _ => hcount⟩
      · rw [honce hsuf] at hparse
        obtain ⟨rfl, rfl, -⟩ : p.asStr = at' ∧ m.host.toStringLossy = host ∧
          m.access = e.access := by simpa using hparse
        exact ⟨rfl, List.prefix_refl _, fun h => absurd h hsuf⟩
    obtain ⟨rfl, hpre, hcount⟩ := hread
    refine ⟨Except.ok.inj (hpath.symm.trans hnew), fun hno heq => ?_⟩
    rw [hhost] at heq
    have hsame : ∀ x, x ≠ slash → x ≠ OsChar.chr '.' → host.count x = m.host.count x :=
      fun x hslash hdot => by
        rw [← count_pathComponents hslash hdot host, heq, count_pathComponents hslash hdot]
    by_cases htext : m.host.isUtf8 = true
    · have hlossy : m.host.toStringLossy = m.host := fromUtf8Lossy_bytes htext
      rw [hlossy] at hcount
      have hsuf : accessSuffix m.access <:+ colon :: m.host := by
        by_contra h
        exact hno ⟨htext, h⟩
      have := hcount hsuf
      rw [hsame colon (by decide) (by decide)] at this
      exact Nat.lt_irrefl _ this
    -- a byte that is no text is in the host directory and not in what was read
    · obtain ⟨b, hb⟩ : ∃ b, OsChar.raw b ∈ m.host := by
        by_contra hno
        push Not at hno
        refine htext (isUtf8_iff.2 fun x hx => ?_)
        cases x with
        | chr c => exact ⟨c, rfl⟩
        | raw b => exact absurd hx (hno b)
      have hmem : OsChar.raw b ∈ host := by
        rw [← List.count_pos_iff, hsame (.raw b) nofun nofun]
        exact List.count_pos_iff.2 hb
      obtain ⟨c, hc⟩ := isUtf8_iff.1 (Shell.isUtf8_toStringLossy m.host) _ (hpre.subset hmem)
      cases hc

variable {b : MountTableBuilder}

theorem addSpec_eq_ok {spec : OsStr} {es : List Entry} :
    addSpec ⟨es⟩ spec = .ok b ↔ ∃ e, Reads spec e ∧ b = ⟨es ++ [e]⟩ := by
  unfold addSpec Reads MountTableBuilder.mount
  constructor
  · intro h
    split at h
    · cases h
    rename_i at' host access hparse
    dsimp only at h
    split at h
    · cases h
    rename_i p hp
    exact ⟨⟨p, pathComponents host, access⟩, ⟨at', host, hparse, hp, rfl⟩,
      (Except.ok.inj h).symm⟩
  · rintro ⟨e, ⟨at', host, hparse, hp, hhost⟩, rfl⟩
    rw [hparse]
    dsimp only
    rw [hp, ← hhost]
    rfl

theorem foldlM_addSpec_eq_ok {specs : List OsStr} {es : List Entry} {b : MountTableBuilder} :
    specs.foldlM addSpec ⟨es⟩ = .ok b ↔ ∃ es', List.Forall₂ Reads specs es' ∧ b = ⟨es ++ es'⟩ := by
  induction specs generalizing es with
  | nil => simp [List.foldlM, pure, Except.pure, eq_comm]
  | cons spec specs ih =>
    rw [List.foldlM_cons]
    constructor
    · intro h
      cases hadd : addSpec ⟨es⟩ spec with
      | error e =>
        rw [hadd] at h
        cases h
      | ok b' =>
        rw [hadd] at h
        obtain ⟨e, he, rfl⟩ := addSpec_eq_ok.1 hadd
        obtain ⟨es', hes, rfl⟩ := ih.1 h
        exact ⟨e :: es', .cons he hes, by simp⟩
    · rintro ⟨es', h, rfl⟩
      cases h with
      | cons he hes =>
        rw [addSpec_eq_ok.2 ⟨_, he, rfl⟩]
        exact ih.2 ⟨_, hes, by simp⟩

/-! ## Tables of what was granted -/

def entryOf (m : Mount) : Option Entry := m.hostPath.map fun p => ⟨m.at, p, m.access⟩

theorem entriesOf_eq (t : MountTable) :
    entriesOf t = (t.mounts.filterMap entryOf).map grantOf := by
  rw [List.map_filterMap]
  refine List.filterMap_congr fun m _ => ?_
  unfold entryOf
  cases m.hostPath <;> rfl

variable {host : MountHost} {t : MountTable}

theorem entries_of_build
    (h : b.build host = .ok t) : (t.mounts.filterMap entryOf).Perm b.entries := by
  obtain ⟨-, mounts, hms, -, hp, rfl⟩ := build_eq_ok.1 h
  have hentries : mounts.filterMap entryOf = b.entries := by
    clear h hp
    generalize b.entries = es at hms ⊢
    induction hms with
    | nil => rfl
    | cons h _ ih =>
      obtain ⟨c, d, -, -, rfl⟩ := h
      rw [List.filterMap_cons]
      exact congrArg (List.cons _) ih
  rw [← hentries]
  have hperm := (List.perm_insertionSort Deeper mounts).filterMap entryOf
  simp only [fromMounts, recordNesting, List.filterMap_map]
  exact hperm

theorem build_subperm {es : List Entry}
    (h : b.build host = .ok t) (hes : es.Subperm b.entries) :
    ∃ t', (⟨es⟩ : MountTableBuilder).build host = .ok t' := by
  obtain ⟨l, hperm, hsub⟩ := hes
  suffices hl : ∃ t', (⟨l⟩ : MountTableBuilder).build host = .ok t' by
    obtain ⟨t', ht'⟩ := hl
    obtain ⟨t'', ht'', -⟩ := @build_perm _ _ ⟨es⟩ _ _ hperm.symm ht'
    exact ⟨t'', ht''⟩
  obtain ⟨hkeys, mounts, hms, hapart, hp, -⟩ := build_eq_ok.1 h
  have hsome : ∀ {l es : List Entry} {mounts : List Mount}, l.Sublist es →
      List.Forall₂ (Opens host) es mounts →
        ∃ ms, ms.Sublist mounts ∧ List.Forall₂ (Opens host) l ms := by
    intro l es mounts hsub hms
    induction hsub generalizing mounts with
    | slnil => exact ⟨[], List.nil_sublist _, .nil⟩
    | cons e _ ih =>
      cases hms with
      | cons _ hrest =>
        obtain ⟨ms, hsub, hms⟩ := ih hrest
        exact ⟨ms, hsub.cons _, hms⟩
    | cons_cons e _ ih =>
      cases hms with
      | cons he hrest =>
        obtain ⟨ms, hsub, hms⟩ := ih hrest
        exact ⟨_, hsub.cons_cons _, .cons he hms⟩
  obtain ⟨ms, hmsub, hopens⟩ := hsome hsub hms
  exact ⟨_, build_eq_ok.2 ⟨hkeys.sublist (hsub.map _), ms, hopens, hapart.sublist hmsub,
    hp.sublist hmsub, rfl⟩⟩

theorem buildMountTable_eq_ok {specs : List OsStr} :
    buildMountTable host specs = .ok t ↔
      ∃ es, List.Forall₂ Reads specs es ∧ (⟨es⟩ : MountTableBuilder).build host = .ok t := by
  have hfold := @foldlM_addSpec_eq_ok _ specs []
  unfold buildMountTable
  constructor
  · intro h
    split at h
    · cases h
    rename_i b hb
    obtain ⟨es, hes, rfl⟩ := hfold.1 hb
    refine ⟨es, hes, ?_⟩
    cases hbuild : (⟨es⟩ : MountTableBuilder).build host with
    | error e =>
      rw [List.nil_append, hbuild] at h
      cases h
    | ok t' =>
      rw [List.nil_append, hbuild] at h
      rw [Except.ok.inj h]
  · rintro ⟨es, hes, hbuild⟩
    rw [hfold.2 ⟨es, hes, rfl⟩]
    dsimp only
    rw [List.nil_append, hbuild]
    rfl

theorem printedSet_perm {text : Mount → OsStr}
    (hhost : ∀ m ∈ t.mounts, m.hostPath = some (pathComponents (text m))) :
    (printedSet text t).Perm (t.mounts.map (grantedDir text)) := by
  have hall : t.mounts.filter (fun m => m.hostPath.isSome) = t.mounts :=
    List.filter_eq_self.2 fun m hm => by simp [hhost m hm]
  unfold printedSet
  rw [hall]
  set l := (t.mounts.map (grantedDir text)).insertionSort fun a b =>
    (a.granted.cmp b.granted).isLE = true with hl
  have hperm : l.Perm (t.mounts.map (grantedDir text)) := List.perm_insertionSort _ _
  have hpoints : (t.mounts.map (grantedDir text)).Pairwise fun a b => a.granted ≠ b.granted := by
    refine List.pairwise_map.2 (t.points.imp fun hne heq => hne ?_)
    exact VirtualPath.asStr_inj (congrArg GrantedMount.at heq)
  have hchain : l.IsChain fun a b => a.granted ≠ b.granted :=
    (hperm.symm.pairwise hpoints fun h => Ne.symm h).isChain
  rwa [List.destutter_of_isChain _ _ hchain]

theorem reads_of_printable {text : Mount → OsStr} {s : List GrantedDir}
    (hs : s.Subperm (t.mounts.map (grantedDir text))) (hprint : ∀ m ∈ s, m.Printable) :
    ∃ es, List.Forall₂ (fun m e => Reads m.spec e ∧ grantOf e = m.granted) s es ∧
      es.Subperm (t.mounts.map fun m => ⟨m.at, pathComponents (text m), m.access⟩) := by
  obtain ⟨l, hperm, hsub⟩ := hs
  obtain ⟨ms, hms, rfl⟩ := List.sublist_map_iff.1 hsub
  have hreads : List.Forall₂ (fun m e => Reads m.spec e ∧ grantOf e = m.granted)
      (ms.map (grantedDir text))
      (ms.map fun m => (⟨m.at, pathComponents (text m), m.access⟩ : Entry)) := by
    rw [List.forall₂_map_left_iff, List.forall₂_map_right_iff, List.forall₂_same]
    intro m hm
    have haccess : (grantedDir text m).access = m.access := by
      rw [grantedDir, GrantedDir.access]
      cases m.access <;> rfl
    have hread := (reads_iff_printable (m := grantedDir text m) (p := m.at) rfl).1
      (hprint _ (hperm.mem_iff.1 (List.mem_map_of_mem hm)))
    rw [haccess] at hread
    exact ⟨hread, rfl⟩
  obtain ⟨es, hes, hesperm⟩ := List.perm_comp_forall₂ hperm.symm hreads
  exact ⟨es, hes, _, hesperm.symm, hms.map _⟩

theorem printable_of_flagsGrant {s : List GrantedDir}
    (hpoints : ∀ m ∈ s, ∃ p : VirtualPath, m.at = p.asStr)
    (hapart : ∀ m ∈ s, ∀ m' ∈ s, m.at = m'.at → m = m') (h : FlagsGrant host s) :
    ∀ m ∈ s, m.Printable := by
  intro m hm
  obtain ⟨t, ht, hgrant⟩ := h
  obtain ⟨es, hes, hbuild⟩ := buildMountTable_eq_ok.1 ht
  rw [entriesOf_eq] at hgrant
  have hentries := ((entries_of_build hbuild).map grantOf).symm.trans hgrant
  obtain ⟨e, he, heq⟩ := List.mem_map.1 (hentries.mem_iff.2 (List.mem_map_of_mem hm))
  have hreads : ∃ m' ∈ s, Reads m'.spec e := by
    rw [List.forall₂_map_left_iff] at hes
    obtain ⟨i, hi, rfl⟩ := List.mem_iff_getElem.1 he
    have hlt : i < s.length := hes.length_eq ▸ hi
    exact ⟨s[i], List.getElem_mem hlt, List.forall₂_iff_get.1 hes |>.2 i hlt hi⟩
  obtain ⟨m', hm', hread⟩ := hreads
  obtain ⟨p, hp⟩ := hpoints m' hm'
  obtain ⟨hat, hhost⟩ := (reads_iff_printable hp).2 e hread
  -- the entry with the grant's mount point is the one its own flag reads as
  have hsame : m.at = m'.at := by
    rw [hp, ← hat]
    exact (congrArg GrantedMount.at heq).symm
  obtain rfl := hapart m hm m' hm' hsame
  by_contra hno
  exact hhost hno (congrArg GrantedMount.host heq)

/-- **The flag a refusal prints.** The flags printed for any part of what a table grants build a
table of the same mount points, host directories and accesses exactly when every host directory is
text that does not end as its access does; and exactly one suffix is interpreted of the
specifications that do not end in the same suffix twice. -/
theorem flags_grant_iff {host : MountHost} {t : MountTable} {text : Mount → OsStr}
    (ht : (∃ b : MountTableBuilder, b.build host = .ok t) ∨
      ∃ entries, fromChildHandles entries = .ok t)
    (htext : ∀ m ∈ t.mounts, ∀ p ∈ m.hostPath, p = pathComponents (text m)) :
    (∀ s, s.Sublist (printedSet text t) → (FlagsGrant host s ↔ ∀ m ∈ s, m.Printable)) ∧
      ∀ spec, readAccess spec = readOneAccess spec ↔
        ∀ a, ¬ accessSuffix a ++ accessSuffix a <:+ spec := by
  refine ⟨fun s hs => ?_, readAccess_eq_readOneAccess_iff⟩
  rcases ht with ⟨b, hb⟩ | ⟨entries, hchild⟩
  · have hhost : ∀ m ∈ t.mounts, m.hostPath = some (pathComponents (text m)) := by
      intro m hm
      obtain ⟨p, -, hp, -⟩ := (built_of_build hb).opened m hm
      rw [← htext m hm p hp, hp]
    have hperm := printedSet_perm hhost
    have hmem : ∀ m ∈ s, ∃ m₀ ∈ t.mounts, grantedDir text m₀ = m := fun m hm =>
      List.mem_map.1 (hperm.mem_iff.1 (hs.subset hm))
    constructor
    · refine printable_of_flagsGrant (fun m hm => ?_) fun m hm m' hm' hat => ?_
      · obtain ⟨m₀, -, rfl⟩ := hmem m hm
        exact ⟨m₀.at, rfl⟩
      · obtain ⟨m₀, hm₀, rfl⟩ := hmem m hm
        obtain ⟨m₁, hm₁, rfl⟩ := hmem m' hm'
        rw [t.eq_of_at_eq hm₀ hm₁ (VirtualPath.asStr_inj hat)]
    · intro hprint
      obtain ⟨es, hes, hsub⟩ := reads_of_printable (hs.subperm.trans hperm.subperm) hprint
      have hentries : (t.mounts.map fun m => ⟨m.at, pathComponents (text m), m.access⟩).Perm
          b.entries := by
        refine .trans (.of_eq ?_) (entries_of_build hb)
        rw [← List.filterMap_eq_map]
        refine List.filterMap_congr fun m hm => ?_
        rw [entryOf, hhost m hm]
        rfl
      obtain ⟨t', ht'⟩ := build_subperm hb (hsub.trans hentries.subperm)
      refine ⟨t', buildMountTable_eq_ok.2 ⟨es, ?_, ht'⟩, ?_⟩
      · exact List.forall₂_map_left_iff.2 (hes.imp fun _ _ h => h.1)
      · have hgrants : es.map grantOf = s.map GrantedDir.granted := by
          clear hsub ht' hprint hmem hs
          induction hes with
          | nil => rfl
          | cons h _ ih => rw [List.map_cons, List.map_cons, h.2, ih]
        rw [entriesOf_eq, ← hgrants]
        exact (entries_of_build ht').map grantOf
  -- mounts received from a parent have no host directory, and nothing of them is in the set
  · obtain ⟨mounts, hms, -, hp, rfl⟩ := fromChildHandles_eq_ok.1 hchild
    have hnone : ∀ m ∈ (fromMounts mounts hp).mounts, m.hostPath = none := by
      intro m hm
      obtain ⟨m₀, hm₀, -, hhost, -⟩ := mem_fromMounts hm
      obtain ⟨i, hi, rfl⟩ := List.mem_iff_getElem.1 hm₀
      have hlt : i < entries.length := hms.length_eq ▸ hi
      obtain ⟨p, -, hm⟩ := (List.forall₂_iff_get.1 hms).2 i hlt hi
      rw [← hhost]
      exact congrArg Mount.hostPath hm
    have hnil : (fromMounts mounts hp).mounts.filter (fun m => m.hostPath.isSome) = [] :=
      List.filter_eq_nil_iff.2 fun m hm => by simp [hnone m hm]
    unfold printedSet at hs
    rw [hnil] at hs
    obtain rfl := List.sublist_nil.1 hs
    refine iff_of_true ⟨_, buildMountTable_eq_ok.2 ⟨[], .nil, build_eq_ok.2
      ⟨List.nodup_nil, [], .nil, .nil, .nil, rfl⟩⟩, ?_⟩ nofun
    exact .refl _

end Tables

section Fixture

attribute [local instance] composed

def flatHost : MountHost where
  canonicalize p := .ok (p.drop 1)
  openAmbientDir _ := .ok ⟨0, 0⟩

/-- A directory mounted read-only at `/work`. -/
def dataMount (host : OsStr) : Mount :=
  ⟨⟨[os "work"], work_valid⟩, ⟨0, 0⟩, some (pathComponents host),
    some ((pathComponents host).drop 1), .readOnly, false⟩

def dataTable (host : OsStr) : MountTable := .fromMounts [dataMount host] (by simp)

theorem build_dataTable (host : OsStr) : (⟨[⟨⟨[os "work"], by decide⟩, pathComponents host,
    .readOnly⟩]⟩ : MountTableBuilder).build flatHost = .ok (dataTable host) :=
  build_eq_ok.2 ⟨List.nodup_singleton _, [dataMount host],
    .cons ⟨_, _, rfl, rfl, rfl⟩ .nil, List.pairwise_singleton _ _, _, rfl⟩

theorem printedSet_dataTable (host : OsStr) :
    printedSet (fun _ => host) (dataTable host) = [⟨os "/work", host, false⟩] := rfl

/-- **A directory whose name ends as the access does.** The flag for `/srv/data:ro`, read-only, is
`--mount /work:/srv/data:ro:ro`, which reads as `/srv/data`. -/
theorem flags_grant_other :
    (printedSet (fun _ => os "/srv/data:ro") (dataTable (os "/srv/data:ro"))).map
        GrantedDir.asFlag = [os "--mount /work:/srv/data:ro:ro"] ∧
      parseMount (os "/work:/srv/data:ro:ro") = .ok (os "/work", os "/srv/data", .readOnly) ∧
      ¬ FlagsGrant flatHost
        (printedSet (fun _ => os "/srv/data:ro") (dataTable (os "/srv/data:ro"))) := by
  refine ⟨by decide, rfl, fun h => ?_⟩
  rw [printedSet_dataTable] at h
  refine absurd (printable_of_flagsGrant ?_ ?_ h _ List.mem_cons_self).2 (not_not.2 (by decide))
  · exact fun m hm => ⟨⟨[os "work"], by decide⟩, by rw [List.mem_singleton.1 hm]; rfl⟩
  · exact fun m hm m' hm' _ => (List.mem_singleton.1 hm).trans (List.mem_singleton.1 hm').symm

/-- The flag for a directory named otherwise grants it. -/
theorem flags_grant_data : FlagsGrant flatHost [⟨os "/work", os "/srv/data", false⟩] := by
  have h := @flags_grant_iff _ _ (dataTable (os "/srv/data")) (fun _ => os "/srv/data")
    (.inl ⟨_, build_dataTable _⟩) fun m hm p hp => by
      rw [show m = dataMount (os "/srv/data") from List.mem_singleton.1 hm] at hp
      exact (Option.some.inj hp).symm
  refine (h.1 _ (.refl _)).2 fun m hm => ?_
  rw [printedSet_dataTable] at hm
  rw [List.mem_singleton.1 hm]
  exact ⟨by decide, by decide⟩

end Fixture

end Seahaven.Trust
