import Seahaven.Shell.Extglob

/-!
# Patterns without metacharacters

`pattern_has_glob_metacharacters` decides in `Pattern::expand` whether a pattern, or a component of
it, is taken as it is written.

1. Where it answers no, the pattern is read into plain characters (`pattern_of_literal`) and stands
   for one string, the pattern without the backslashes that escape (`language_of_literal`).
2. `expandLiteral` is the branch that is taken then. It keeps those backslashes, so it answers the
   string that is matched where there are none (`literal_agrees_iff`).
-/

namespace Seahaven.Shell.Extended

def unescape : List Char → List Char
  | [] => []
  | '\\' :: c :: s => c :: unescape s
  | c :: s => c :: unescape s

def Escapes (s : List Char) : Prop := ∃ before c after, s = before ++ '\\' :: c :: after

variable {ext : Bool} {classes : Classes}

/-! ## Reading -/

theorem patternPiece_of_nonGlob {s : List Char}
    (h : globPiece ext (patternPiece ext) s = none ∨ ∃ c t, s = '\\' :: c :: t) (hne : s ≠ []) :
    ∃ c rest, unescape s = c :: unescape rest ∧ rest.length < s.length ∧
      patternPiece ext s = some (.piece (.char c), rest) ∧ nonGlobPiece ext s = some ((), rest) := by
  rw [patternPiece_eq]
  by_cases hesc : ∃ c t, s = '\\' :: c :: t
  · obtain ⟨c, t, rfl⟩ := hesc
    exact ⟨c, t, rfl, by rw [List.length_cons, List.length_cons]; omega, rfl, rfl⟩
  have hglob := h.resolve_right hesc
  cases s with
  | nil => exact absurd rfl hne
  | cons c rest =>
    have hnot : ∀ d t, c = '\\' → rest = d :: t → False := by
      rintro d t rfl rfl
      exact hesc ⟨d, t, rfl⟩
    refine ⟨c, rest, ?_, by simp, ?_, ?_⟩
    · rw [unescape]
      exact hnot
    · rw [pieceRule, hglob]
      exact hnot
    · rw [nonGlobPiece]
      · exact fun d t h => hesc ⟨d, t, h⟩
      · exact hglob

/-- **Reading.** A pattern without metacharacters is read into its characters. -/
theorem pattern_of_literal {s : List Char} (h : patternHasGlobMetacharacters ext s = false) :
    (pattern ext s).1 = (unescape s).map fun c => .piece (.char c) := by
  suffices H : ∀ n s, s.length ≤ n →
      globPiece ext (patternPiece ext) (Peg.many (nonGlobPiece ext) n s).2 = none →
        (Peg.many (patternPiece ext) n s).1 = (unescape s).map fun c => .piece (.char c) from
    H s.length s (Nat.le_refl _) (Option.not_isSome_iff_eq_none.1 (by
      unfold patternHasGlobMetacharacters at h
      rw [h]
      exact nofun))
  intro n
  induction n with
  | zero =>
    intro s hs _
    obtain rfl := List.eq_nil_of_length_eq_zero (Nat.le_zero.1 hs)
    rfl
  | succ n ih =>
    intro s hs hglob
    by_cases hne : s = []
    · subst hne
      rfl
    have hfront : globPiece ext (patternPiece ext) s = none ∨ ∃ c t, s = '\\' :: c :: t := by
      by_contra hno
      rw [not_or] at hno
      have hnone : nonGlobPiece ext s = none := by
        unfold nonGlobPiece
        split
        next c rest => exact absurd ⟨c, rest, rfl⟩ hno.2
        next =>
          split
          next hg => exact absurd hg hno.1
          next => rfl
      rw [Peg.many, hnone] at hglob
      exact hno.1 hglob
    obtain ⟨c, rest, hunescape, hlt, hpiece, hnon⟩ := patternPiece_of_nonGlob hfront hne
    rw [Peg.many, hnon] at hglob
    rw [Peg.many, hpiece, hunescape, List.map_cons]
    dsimp only
    rw [ih rest (by omega) hglob]

/-- **One string.** A pattern without metacharacters stands for one string. -/
theorem language_of_literal {s : List Char} (h : patternHasGlobMetacharacters ext s = false)
    (w : List Char) : w ∈ patternLanguage classes ext s ↔ w = unescape s := by
  rw [patternLanguage, pattern_of_literal h]
  generalize unescape s = l
  induction l generalizing w with
  | nil => exact Language.mem_one w
  | cons c l ih =>
    rw [List.map_cons, piecesLanguage, Language.mem_mul]
    constructor
    · rintro ⟨x, hx, y, hy, rfl⟩
      obtain rfl : x = [c] := by
        rw [Glob.language] at hx
        exact hx
      rw [(ih y).1 hy]
      rfl
    · rintro rfl
      refine ⟨[c], ?_, l, (ih l).2 rfl, rfl⟩
      rw [Glob.language]
      exact rfl

/-! ## Escapes -/

theorem unescape_length (s : List Char) : (unescape s).length ≤ s.length := by
  fun_induction unescape s with
  | case1 => exact Nat.le_refl _
  | case2 c s ih =>
    rw [List.length_cons, List.length_cons, List.length_cons]
    omega
  | case3 c s _ ih => exact Nat.succ_le_succ ih

theorem unescape_eq_iff (s : List Char) : unescape s = s ↔ ¬ Escapes s := by
  fun_induction unescape s with
  | case1 =>
    refine iff_of_true rfl ?_
    rintro ⟨before, c, after, h⟩
    cases before <;> cases h
  | case2 c s ih =>
    refine iff_of_false (fun h => ?_) (not_not.2 ⟨[], c, s, rfl⟩)
    have hlen := congrArg List.length h
    have hle := unescape_length s
    rw [List.length_cons, List.length_cons, List.length_cons] at hlen
    omega
  | case3 c s hnot ih =>
    rw [List.cons.injEq, and_iff_right rfl, ih, not_iff_not]
    constructor
    · rintro ⟨before, d, after, rfl⟩
      exact ⟨c :: before, d, after, rfl⟩
    · rintro ⟨before, d, after, h⟩
      cases before with
      | nil =>
        obtain ⟨rfl, rfl⟩ := List.cons.inj h
        exact absurd rfl (hnot d after rfl)
      | cons b before =>
        obtain ⟨rfl, rfl⟩ := List.cons.inj h
        exact ⟨before, d, after, rfl⟩

/-! ## Expansion -/

inductive PatternExpansionResult
  | noGlob
  | expanded (paths : List (List Char))

/-- `PatternPiece::as_str`. -/
def asStr : PatternPiece → List Char
  | .pattern s => s
  | .literal s => s

def requiresExpansion (ext : Bool) : PatternPiece → Bool
  | .pattern s => patternHasGlobMetacharacters ext s
  | .literal _ => false

/-- `Pattern::expand`, up to where it turns to the file tree. -/
def expandLiteral (ext : Bool) (filter : Option (List Char → Bool)) (pieces : List PatternPiece) :
    Option PatternExpansionResult :=
  if pieces.isEmpty then some .noGlob
  else if pieces.any (requiresExpansion ext) then none
  else
    let concatenated := pieces.flatMap asStr
    if filter.any fun f => !f concatenated then some .noGlob
    else some (.expanded [concatenated])

def literalComponent (ext : Bool) (component : List PatternPiece) : Option (List Char) :=
  if component.any (requiresExpansion ext) then none else some (component.flatMap asStr)

/-- The test agrees with the translation: without metacharacters one string is matched, the pattern
with its escaped characters by themselves, and it is what is taken for the pattern, and for a
component of one. -/
structure Agrees (classes : Classes) (ext : Bool) (s : List Char) : Prop where
  one : patternHasGlobMetacharacters ext s = false →
    ∀ w, w ∈ patternLanguage classes ext s ↔ w = unescape s
  expands : patternHasGlobMetacharacters ext s = false →
    ∃ paths, expandLiteral ext none [.pattern s] = some (.expanded paths) ∧
      ∀ w, w ∈ paths ↔ w ∈ patternLanguage classes ext s
  component : patternHasGlobMetacharacters ext s = false →
    ∃ name, literalComponent ext [.pattern s] = some name ∧
      ∀ w, w = name ↔ w ∈ patternLanguage classes ext s

/-- **Metacharacters.** The test agrees with the translation if and only if there is a
metacharacter, or no backslash that escapes a character. -/
theorem literal_agrees_iff (classes : Classes) (ext : Bool) (s : List Char) :
    Agrees classes ext s ↔ (patternHasGlobMetacharacters ext s = true ∨ ¬ Escapes s) := by
  cases hglob : patternHasGlobMetacharacters ext s with
  | true => exact iff_of_true ⟨by simp [hglob], by simp [hglob], by simp [hglob]⟩ (.inl rfl)
  | false =>
    have hrequires : [PatternPiece.pattern s].any (requiresExpansion ext) = false := by
      rw [List.any_cons, requiresExpansion, hglob]
      rfl
    have htext : [PatternPiece.pattern s].flatMap asStr = s := by
      rw [List.flatMap_cons, List.flatMap_nil, List.append_nil, asStr]
    have hcomponent : literalComponent ext [.pattern s] = some s := by
      rw [literalComponent, hrequires, htext]
      rfl
    have hexpand : expandLiteral ext none [.pattern s] = some (.expanded [s]) := by
      rw [expandLiteral, hrequires, htext]
      rfl
    have hlanguage : ∀ w, w ∈ patternLanguage classes ext s ↔ w = unescape s :=
      language_of_literal hglob
    rw [← unescape_eq_iff, or_iff_right nofun]
    constructor
    · intro h
      obtain ⟨name, hname, hmatch⟩ := h.component hglob
      rw [hcomponent] at hname
      cases hname
      exact ((hlanguage s).1 ((hmatch s).1 rfl)).symm
    · intro hsame
      refine ⟨fun _ => hlanguage, fun _ => ⟨[s], hexpand, fun w => ?_⟩,
        fun _ => ⟨s, hcomponent, fun w => ?_⟩⟩
      · rw [List.mem_singleton, hlanguage, hsame]
      · rw [hlanguage, hsame]

/-- The backslash of an escaped letter is kept. -/
theorem escaped_not_agrees : ¬ ∀ (classes : Classes) (ext : Bool) (s : List Char),
    Agrees classes ext s := by
  intro h
  have hglob : patternHasGlobMetacharacters false ['d', '\\', 'i', 'r'] = false := by
    decide +kernel
  obtain ⟨name, hname, hmatch⟩ :=
    (h (fun _ _ => false) false ['d', '\\', 'i', 'r']).component hglob
  have hone := (h (fun _ _ => false) false ['d', '\\', 'i', 'r']).one hglob
  have hcomponent : literalComponent false [.pattern ['d', '\\', 'i', 'r']] =
      some ['d', '\\', 'i', 'r'] := by decide +kernel
  rw [hcomponent] at hname
  cases hname
  have heq := (hone _).1 ((hmatch _).1 rfl)
  exact absurd heq (by decide)

end Seahaven.Shell.Extended
