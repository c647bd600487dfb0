import Seahaven.Shell.Pattern
import Mathlib.Computability.Language

/-!
# Extended patterns

The grammar of patterns with extended globbing, which `pattern_to_regex_translator` has beside the
rules of plain patterns, and the strings such a pattern stands for.

1. A pattern is read into `Glob`s; inside the parentheses of an extended pattern the same rules
   read its branches. Reading goes as deep as the text is long, which is as deep as it can go
   (`patternPiece_depth`).
2. `Glob.language` is what a pattern stands for, as a language.
3. Every pattern is read to its end (`pattern_done`).
-/

namespace Seahaven.Shell.Extended

/-! ## Patterns -/

inductive ExtendedGlobKind
  | plus
  | at
  | exclamation
  | question
  | star
  deriving DecidableEq

/-- A piece of a pattern: a plain one, or branches in parentheses. -/
inductive Glob
  | piece (p : Piece)
  | extended (kind : ExtendedGlobKind) (branches : List (List Glob))

/-- What is put around the branches. -/
def ExtendedGlobKind.text (kind : ExtendedGlobKind) (branches : List (List Char)) : List Char :=
  let joined := ['|'].intercalate branches
  match kind with
  | .exclamation =>
    if branches.isEmpty then ['(', '?', ':', '.', '+', ')']
    else ['(', '?', ':', '(', '?', '!'] ++ joined ++ [')', '.', '*', '|', '(', '?', '>'] ++ joined ++
      [')', '.', '+', '?', '|', ')']
  | .plus => '(' :: joined ++ [')', '+']
  | .question => '(' :: joined ++ [')', '?']
  | .star => '(' :: joined ++ [')', '*']
  | .at => '(' :: joined ++ [')']

mutual

def Glob.text : Glob → List Char
  | .piece p => p.text
  | .extended kind branches => kind.text (branchTexts branches)

def branchTexts : List (List Glob) → List (List Char)
  | [] => []
  | b :: bs => piecesText b :: branchTexts bs

/-- `pieces.join("")`. -/
def piecesText : List Glob → List Char
  | [] => []
  | g :: gs => g.text ++ piecesText gs

end

/-! ## The grammar -/

def extendedGlobPrefix : Char → Option ExtendedGlobKind
  | '+' => some .plus
  | '@' => some .at
  | '!' => some .exclamation
  | '?' => some .question
  | '*' => some .star
  | _ => none

/-- `!['|' | ')'] piece`. -/
def branchPiece (piece : Peg.Rule Char Glob) : Peg.Rule Char Glob
  | '|' :: _ => none
  | ')' :: _ => none
  | s => piece s

def extendedGlobBranch (piece : Peg.Rule Char Glob) : Peg.Rule Char (List Glob)
  | '|' :: s => some ([], '|' :: s)
  | ')' :: s => some ([], ')' :: s)
  | s =>
    match Peg.many (branchPiece piece) s.length s with
    | ([], _) => none
    | (g :: gs, rest) => some (g :: gs, rest)

def nextBranch (piece : Peg.Rule Char Glob) : Peg.Rule Char (List Glob)
  | '|' :: s => extendedGlobBranch piece s
  | _ => none

def extendedGlobBody (piece : Peg.Rule Char Glob) (s : List Char) :
    List (List Glob) × List Char :=
  match s with
  | ')' :: _ => ([], s)
  | _ =>
    match extendedGlobBranch piece s with
    | none => ([], s)
    | some (b, rest) =>
      (b :: (Peg.many (nextBranch piece) rest.length rest).1,
        (Peg.many (nextBranch piece) rest.length rest).2)

def extendedGlobPattern (piece : Peg.Rule Char Glob) : Peg.Rule Char Glob
  | c :: '(' :: s =>
    match extendedGlobPrefix c, extendedGlobBody piece s with
    | some kind, (branches, ')' :: rest) => some (.extended kind branches, rest)
    | _, _ => none
  | _ => none

def wildcard : Peg.Rule Char Glob
  | '?' :: rest => some (.piece .any, rest)
  | '*' :: rest => some (.piece .star, rest)
  | _ => none

/-- `glob_piece`: a bracket expression, an extended pattern where they are enabled, or a wildcard. -/
def globPiece (enableExtendedGlobbing : Bool) (piece : Peg.Rule Char Glob) : Peg.Rule Char Glob :=
  fun s =>
    match bracketExpression s with
    | some (p, rest) => some (.piece p, rest)
    | none =>
      match if enableExtendedGlobbing then extendedGlobPattern piece s else none with
      | some r => some r
      | none => wildcard s

/-- `escape_sequence`, before the other rules. -/
def pieceRule (enableExtendedGlobbing : Bool) (piece : Peg.Rule Char Glob) : Peg.Rule Char Glob
  | [] => none
  | '\\' :: c :: rest => some (.piece (.char c), rest)
  | c :: rest =>
    match globPiece enableExtendedGlobbing piece (c :: rest) with
    | some r => some r
    | none => some (.piece (.char c), rest)

/-- `pattern_piece`, with so many extended patterns inside each other. -/
def pieceAt (enableExtendedGlobbing : Bool) : Nat → Peg.Rule Char Glob
  | 0 => pieceRule false fun _ => none
  | depth + 1 => pieceRule enableExtendedGlobbing (pieceAt enableExtendedGlobbing depth)

def patternPiece (enableExtendedGlobbing : Bool) : Peg.Rule Char Glob :=
  fun s => pieceAt enableExtendedGlobbing s.length s

def pattern (enableExtendedGlobbing : Bool) (s : List Char) : List Glob × List Char :=
  Peg.many (patternPiece enableExtendedGlobbing) s.length s

def patternToRegexStr (enableExtendedGlobbing : Bool) (s : List Char) : Option (List Char) :=
  match pattern enableExtendedGlobbing s with
  | (pieces, []) => some (piecesText pieces)
  | (_, _ :: _) => none

def nonGlobPiece (enableExtendedGlobbing : Bool) : Peg.Rule Char Unit
  | '\\' :: _ :: rest => some ((), rest)
  | s =>
    match globPiece enableExtendedGlobbing (patternPiece enableExtendedGlobbing) s, s with
    | none, _ :: rest => some ((), rest)
    | _, _ => none

def patternHasGlobMetacharacters (enableExtendedGlobbing : Bool) (s : List Char) : Bool :=
  (globPiece enableExtendedGlobbing (patternPiece enableExtendedGlobbing)
    (Peg.many (nonGlobPiece enableExtendedGlobbing) s.length s).2).isSome

/-! ## The rules take something off -/

variable {ext : Bool} {piece piece' : Peg.Rule Char Glob}

theorem branchPiece_shortens (h : Peg.Shortens piece) : Peg.Shortens (branchPiece piece) := by
  intro s g t hs
  unfold branchPiece at hs
  split at hs
  · cases hs
  · cases hs
  · exact h s g t hs

theorem extendedGlobBranch_length (h : Peg.Shortens piece) {s rest : List Char} {gs : List Glob}
    (hs : extendedGlobBranch piece s = some (gs, rest)) : rest.length ≤ s.length := by
  have hmany := Peg.many_length_le (branchPiece_shortens h) s.length s
  unfold extendedGlobBranch at hs
  split at hs
  · cases hs
    exact Nat.le_refl _
  · cases hs
    exact Nat.le_refl _
  · split at hs
    · cases hs
    · rename_i hm
      cases hs
      rw [hm] at hmany
      exact hmany

theorem nextBranch_shortens (h : Peg.Shortens piece) : Peg.Shortens (nextBranch piece) := by
  intro s gs t hs
  unfold nextBranch at hs
  split at hs
  · have := extendedGlobBranch_length h hs
    rw [List.length_cons]
    omega
  · cases hs

theorem extendedGlobBody_length (h : Peg.Shortens piece) (s : List Char) :
    (extendedGlobBody piece s).2.length ≤ s.length := by
  unfold extendedGlobBody
  split
  · exact Nat.le_refl _
  · split
    · exact Nat.le_refl _
    · rename_i hb
      exact Nat.le_trans (Peg.many_length_le (nextBranch_shortens h) _ _)
        (extendedGlobBranch_length h hb)

theorem extendedGlobPattern_shortens (h : Peg.Shortens piece) :
    Peg.Shortens (extendedGlobPattern piece) := by
  intro s g t hs
  unfold extendedGlobPattern at hs
  split at hs
  · rename_i c s'
    have hbody := extendedGlobBody_length h s'
    split at hs
    · rename_i hb
      cases hs
      rw [hb, List.length_cons] at hbody
      rw [List.length_cons, List.length_cons]
      omega
    · cases hs
  · cases hs

theorem wildcard_shortens : Peg.Shortens wildcard := by
  intro s g t hs
  unfold wildcard at hs
  split at hs
  · cases hs
    simp
  · cases hs
    simp
  · cases hs

theorem globPiece_shortens (h : Peg.Shortens piece) : Peg.Shortens (globPiece ext piece) := by
  intro s g t hs
  unfold globPiece at hs
  split at hs
  · rename_i hb
    cases hs
    exact bracketExpression_length hb
  · split at hs
    · rename_i he
      cases hs
      split_ifs at he
      exact extendedGlobPattern_shortens h s g t he
    · exact wildcard_shortens s g t hs

theorem pieceRule_shortens (h : Peg.Shortens piece) : Peg.Shortens (pieceRule ext piece) := by
  intro s g t hs
  unfold pieceRule at hs
  split at hs
  · cases hs
  · cases hs
    rw [List.length_cons, List.length_cons]
    omega
  · split at hs
    · rename_i hg
      cases hs
      exact globPiece_shortens h _ g t hg
    · cases hs
      simp

theorem pieceAt_shortens (depth : Nat) : Peg.Shortens (pieceAt ext depth) := by
  induction depth with
  | zero => exact pieceRule_shortens nofun
  | succ depth ih => exact pieceRule_shortens ih

theorem patternPiece_shortens : Peg.Shortens (patternPiece ext) :=
  fun s g t hs => pieceAt_shortens s.length s g t hs

/-! ## Depth -/

theorem extendedGlobPattern_congr {s : List Char} (h' : Peg.Shortens piece')
    (h : ∀ t, t.length < s.length → piece t = piece' t) :
    extendedGlobPattern piece s = extendedGlobPattern piece' s := by
  unfold extendedGlobPattern
  split
  next c s =>
    have hpiece : ∀ t, t.length ≤ s.length → branchPiece piece t = branchPiece piece' t := by
      intro t ht
      unfold branchPiece
      split
      · rfl
      · rfl
      · refine h t ?_
        rw [List.length_cons, List.length_cons]
        omega
    have hbranch : ∀ t, t.length ≤ s.length →
        extendedGlobBranch piece t = extendedGlobBranch piece' t := by
      intro t ht
      have hmany : Peg.many (branchPiece piece) t.length t =
          Peg.many (branchPiece piece') t.length t :=
        Peg.many_congr (branchPiece_shortens h') (fun u hu => hpiece u (by omega)) _
      unfold extendedGlobBranch
      split
      · rfl
      · rfl
      · rw [hmany]
    have hnext : ∀ t, t.length ≤ s.length → nextBranch piece t = nextBranch piece' t := by
      intro t ht
      unfold nextBranch
      split
      · refine hbranch _ ?_
        rw [List.length_cons] at ht
        omega
      · rfl
    have hbody : extendedGlobBody piece s = extendedGlobBody piece' s := by
      unfold extendedGlobBody
      rw [hbranch s (Nat.le_refl _)]
      split
      · rfl
      · split
        · rfl
        · rename_i b rest hb
          have hle := extendedGlobBranch_length h' hb
          rw [Peg.many_congr (nextBranch_shortens h') fun u hu => hnext u (by omega)]
    rw [hbody]
  next => rfl

theorem pieceRule_congr {s : List Char} (h' : Peg.Shortens piece')
    (h : ∀ t, t.length < s.length → piece t = piece' t) :
    pieceRule ext piece s = pieceRule ext piece' s := by
  unfold pieceRule
  split
  · rfl
  · rfl
  · unfold globPiece
    rw [extendedGlobPattern_congr h' h]

/-- **Depth.** What is read of a text does not depend on the depth, from its length on. -/
theorem patternPiece_depth {s : List Char} {depth : Nat} (hdepth : s.length ≤ depth) :
    pieceAt ext depth s = patternPiece ext s := by
  unfold patternPiece
  induction hn : s.length using Nat.strong_induction_on generalizing s depth with
  | _ n ih =>
    subst hn
    cases s with
    | nil =>
      cases depth with
      | zero => rfl
      | succ depth => rfl
    | cons c s =>
      obtain ⟨depth, rfl⟩ : ∃ d, depth = d + 1 := ⟨depth - 1, by simp at hdepth; omega⟩
      rw [List.length_cons] at hdepth ⊢
      refine pieceRule_congr (pieceAt_shortens _) fun t ht => ?_
      rw [List.length_cons] at ht
      have hleft : pieceAt ext depth t = pieceAt ext t.length t :=
        ih t.length (by simpa using ht) (by omega) rfl
      have hright : pieceAt ext s.length t = pieceAt ext t.length t :=
        ih t.length (by simpa using ht) (by omega) rfl
      rw [hleft, hright]

theorem patternPiece_eq (s : List Char) :
    patternPiece ext s = pieceRule ext (patternPiece ext) s := by
  rw [← patternPiece_depth (Nat.le_succ s.length)]
  exact pieceRule_congr patternPiece_shortens fun t ht => patternPiece_depth (by omega)

/-- **Total.** Every pattern is read to its end. -/
theorem pattern_done (s : List Char) : (pattern ext s).2 = [] := by
  have hdone : patternPiece ext (pattern ext s).2 = none :=
    Peg.many_done patternPiece_shortens (Nat.le_refl s.length)
  cases hrest : (pattern ext s).2 with
  | nil => rfl
  | cons c rest =>
    rw [hrest, patternPiece_eq] at hdone
    unfold pieceRule at hdone
    split at hdone
    next h => cases h
    next => cases hdone
    next => split at hdone <;> cases hdone

/-! ## What a pattern stands for -/

abbrev Classes := List Char → Char → Bool

def memberHas (classes : Classes) (c : Char) : Member → Bool
  | .cls name => classes name c
  | .range lo hi => lo.char ≤ c && c ≤ hi.char
  | .single s => c == s.char

def pieceLanguage (classes : Classes) : Piece → Language Char
  | .char c => {[c]}
  | .any => {w | ∃ c, w = [c]}
  | .star => ⊤
  | .set invert ms => {w | ∃ c, w = [c] ∧ (ms.any (memberHas classes c)) = !invert}
  | .never => 0

/-- What the sign before the parentheses makes of the branches. -/
def ExtendedGlobKind.language (l : Language Char) : ExtendedGlobKind → Language Char
  | .plus => l * KStar.kstar l
  | .at => l
  | .exclamation => lᶜ
  | .question => 1 + l
  | .star => KStar.kstar l

mutual

def Glob.language (classes : Classes) : Glob → Language Char
  | .piece p => pieceLanguage classes p
  | .extended kind branches =>
    kind.language (if branches.isEmpty then 1 else branchesLanguage classes branches)

def branchesLanguage (classes : Classes) : List (List Glob) → Language Char
  | [] => 0
  | b :: bs => piecesLanguage classes b + branchesLanguage classes bs

def piecesLanguage (classes : Classes) : List Glob → Language Char
  | [] => 1
  | g :: gs => g.language classes * piecesLanguage classes gs

end

def patternLanguage (classes : Classes) (ext : Bool) (s : List Char) : Language Char :=
  piecesLanguage classes (pattern ext s).1

end Seahaven.Shell.Extended
