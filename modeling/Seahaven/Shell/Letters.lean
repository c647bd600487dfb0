import Seahaven.Shell.Extglob

/-!
# Quoted letters

`Pattern::to_regex_str` joins the pieces of a pattern into one text, in which the special characters
of literal pieces are escaped, and translates that text.

1. `letters` keeps of every character whether a literal piece supplies it, and `text` is the text
   that is translated (`source_eq`).
2. The rules of patterns, for letters: a quoted one stands for itself, and only unquoted ones open
   or close something. `Letters.pattern` is the pattern in which each literal piece stands for its
   own characters.
-/

namespace Seahaven.Shell.Extended

abbrev Letter := Char × Bool

def letters : PatternPiece → List Letter
  | .pattern s => s.map (·, false)
  | .literal s => s.map (·, true)

def letterText (l : Letter) : List Char :=
  if l.2 && regexCharIsSpecial l.1 then ['\\', l.1] else [l.1]

def text (v : List Letter) : List Char := v.flatMap letterText

/-- The text that `to_regex_str` translates. -/
def source (pieces : List PatternPiece) : List Char := pieces.flatMap PatternPiece.source

/-- `Pattern::to_regex_str`. -/
def toRegexStr (enableExtendedGlobbing strictPrefix strictSuffix : Bool)
    (pieces : List PatternPiece) : Option (List Char) :=
  (patternToRegexStr enableExtendedGlobbing (source pieces)).map fun regex =>
    (if strictPrefix then ['^'] else []) ++ (regex ++ if strictSuffix then ['$'] else [])

theorem source_eq (pieces : List PatternPiece) :
    source pieces = text (pieces.flatMap letters) := by
  unfold source text
  rw [List.flatMap_assoc]
  refine List.flatMap_congr fun p _ => ?_
  cases p with
  | pattern s =>
    rw [letters, PatternPiece.source, List.flatMap_map]
    change s = s.flatMap fun c => [c]
    rw [List.flatMap_singleton']
  | literal s =>
    rw [letters, PatternPiece.source, List.flatMap_map]
    rfl

/-! ## The rules, for letters -/

namespace Letters

def single : Peg.Rule Letter Single
  | ('\\', false) :: (c, _) :: rest => some (.escaped c, rest)
  | (c, true) :: rest => some (if regexCharIsSpecial c then .escaped c else .plain c, rest)
  | ('[', false) :: rest => some (.openBracket, rest)
  | (c, false) :: rest => if c = ']' then none else some (.plain c, rest)
  | [] => none

def classWord (name : List Char) : List Letter := (Member.text (.cls name)).map (·, false)

def cls : Peg.Rule Letter Member := fun v =>
  charClasses.findSome? fun name =>
    if (classWord name).isPrefixOf v then some (.cls name, v.drop (classWord name).length)
    else none

def range : Peg.Rule Letter (Option Member) := fun v =>
  match single v with
  | some (lo, ('-', false) :: rest) =>
    match single rest with
    | some (hi, rest) => some (if lo.char ≤ hi.char then some (.range lo hi) else none, rest)
    | none => none
  | _ => none

def member : Peg.Rule Letter (Option Member) := fun v =>
  match cls v with
  | some (m, rest) => some (some m, rest)
  | none =>
    match range v with
    | some r => some r
    | none =>
      match single v with
      | some (c, rest) => some (some (.single c), rest)
      | none => none

def invert : List Letter → Bool × List Letter
  | ('!', false) :: rest => (true, rest)
  | ('^', false) :: rest => (true, rest)
  | v => (false, v)

/-- What the members of a bracket expression make of it, if it is closed behind them. -/
def closed (inverted : Bool) :
    List (Option Member) × List Letter → Option (Piece × List Letter)
  | (m :: ms, (']', false) :: rest) => some (bracketPiece inverted ((m :: ms).filterMap id), rest)
  | _ => none

def bracket : Peg.Rule Letter Piece
  | ('[', false) :: v => closed (invert v).1 (Peg.many member (invert v).2.length (invert v).2)
  | _ => none

def branchPiece (piece : Peg.Rule Letter Glob) : Peg.Rule Letter Glob
  | ('|', false) :: _ => none
  | (')', false) :: _ => none
  | v => piece v

def branch (piece : Peg.Rule Letter Glob) : Peg.Rule Letter (List Glob)
  | ('|', false) :: v => some ([], ('|', false) :: v)
  | (')', false) :: v => some ([], (')', false) :: v)
  | v =>
    match Peg.many (branchPiece piece) v.length v with
    | ([], _) => none
    | (g :: gs, rest) => some (g :: gs, rest)

def nextBranch (piece : Peg.Rule Letter Glob) : Peg.Rule Letter (List Glob)
  | ('|', false) :: v => branch piece v
  | _ => none

def body (piece : Peg.Rule Letter Glob) (v : List Letter) : List (List Glob) × List Letter :=
  match v with
  | (')', false) :: _ => ([], v)
  | _ =>
    match branch piece v with
    | none => ([], v)
    | some (b, rest) =>
      (b :: (Peg.many (nextBranch piece) rest.length rest).1,
        (Peg.many (nextBranch piece) rest.length rest).2)

def extended (piece : Peg.Rule Letter Glob) : Peg.Rule Letter Glob
  | (c, false) :: ('(', false) :: v =>
    match extendedGlobPrefix c, body piece v with
    | some kind, (branches, (')', false) :: rest) => some (.extended kind branches, rest)
    | _, _ => none
  | _ => none

def wild : Peg.Rule Letter Glob
  | ('?', false) :: rest => some (.piece .any, rest)
  | ('*', false) :: rest => some (.piece .star, rest)
  | _ => none

def glob (ext : Bool) (piece : Peg.Rule Letter Glob) : Peg.Rule Letter Glob := fun v =>
  match bracket v with
  | some (p, rest) => some (.piece p, rest)
  | none =>
    match if ext then extended piece v else none with
    | some r => some r
    | none => wild v

def escaped (c : Char) : Peg.Rule Letter Glob
  | [] => none
  | (d, _) :: rest => if c = '\\' then some (.piece (.char d), rest) else none

/-- A quoted letter, and one behind an unquoted backslash, is that character. -/
def rule (ext : Bool) (piece : Peg.Rule Letter Glob) : Peg.Rule Letter Glob
  | [] => none
  | (c, true) :: rest => some (.piece (.char c), rest)
  | (c, false) :: rest =>
    match escaped c rest with
    | some r => some r
    | none =>
      match glob ext piece ((c, false) :: rest) with
      | some r => some r
      | none => some (.piece (.char c), rest)

def pieceAt (ext : Bool) : Nat → Peg.Rule Letter Glob
  | 0 => rule false fun _ => none
  | depth + 1 => rule ext (pieceAt ext depth)

def piece (ext : Bool) : Peg.Rule Letter Glob := fun v => pieceAt ext (2 * v.length) v

/-- **Literal.** The pattern in which each quoted letter stands for itself. -/
def pattern (ext : Bool) (v : List Letter) : List Glob := (Peg.many (piece ext) v.length v).1

/-! ## The rules take something off -/

variable {ext : Bool} {q : Peg.Rule Letter Glob}

variable {v rest : List Letter}

theorem single_length {c : Single} (h : single v = some (c, rest)) :
    rest.length < v.length := by
  unfold single at h
  split at h
  · cases h
    rw [List.length_cons, List.length_cons]
    omega
  · cases h
    simp
  · cases h
    simp
  · split_ifs at h
    cases h
    simp
  · cases h

theorem cls_length {m : Member} (h : cls v = some (m, rest)) :
    rest.length < v.length := by
  obtain ⟨name, -, h⟩ := List.exists_of_findSome?_eq_some h
  split_ifs at h with hpre
  cases h
  have hle := (List.isPrefixOf_iff_prefix.1 hpre).length_le
  have hpos : 0 < (classWord name).length := by
    unfold classWord Member.text
    simp
  rw [List.length_drop]
  omega

theorem range_length {m : Option Member} (h : range v = some (m, rest)) :
    rest.length < v.length := by
  unfold range at h
  split at h
  next lo mid hlo =>
    split at h
    next hi rest' hhi =>
      have h₁ := single_length hlo
      have h₂ := single_length hhi
      cases h
      rw [List.length_cons] at h₁
      omega
    next => cases h
  next => cases h

theorem member_shortens : Peg.Shortens member := by
  intro v m t h
  unfold member at h
  split at h
  next hc =>
    cases h
    exact cls_length hc
  next =>
    split at h
    next hr =>
      cases h
      exact range_length hr
    next =>
      split at h
      next hs =>
        cases h
        exact single_length hs
      next => cases h

theorem bracket_length {p : Piece} (h : bracket v = some (p, rest)) :
    rest.length < v.length := by
  unfold bracket at h
  split at h
  next v =>
    have hinvert : (invert v).2.length ≤ v.length := by
      unfold invert
      split <;> simp
    have hmany := Peg.many_length_le member_shortens (invert v).2.length (invert v).2
    unfold closed at h
    split at h
    next hm =>
      cases h
      rw [hm, List.length_cons] at hmany
      rw [List.length_cons]
      omega
    next => cases h
  next => cases h

theorem branchPiece_shortens (h : Peg.Shortens q) : Peg.Shortens (branchPiece q) := by
  intro v g t hv
  unfold branchPiece at hv
  split at hv
  · cases hv
  · cases hv
  · exact h v g t hv

theorem branch_length (h : Peg.Shortens q) {gs : List Glob}
    (hv : branch q v = some (gs, rest)) : rest.length ≤ v.length := by
  have hmany := Peg.many_length_le (branchPiece_shortens h) v.length v
  unfold branch at hv
  split at hv
  · cases hv
    exact Nat.le_refl _
  · cases hv
    exact Nat.le_refl _
  · split at hv
    · cases hv
    · rename_i hm
      cases hv
      rw [hm] at hmany
      exact hmany

theorem nextBranch_shortens (h : Peg.Shortens q) : Peg.Shortens (nextBranch q) := by
  intro v gs t hv
  unfold nextBranch at hv
  split at hv
  · have := branch_length h hv
    rw [List.length_cons]
    omega
  · cases hv

theorem body_length (h : Peg.Shortens q) (v : List Letter) : (body q v).2.length ≤ v.length := by
  unfold body
  split
  · exact Nat.le_refl _
  · split
    · exact Nat.le_refl _
    · rename_i hb
      exact Nat.le_trans (Peg.many_length_le (nextBranch_shortens h) _ _) (branch_length h hb)

theorem extended_shortens (h : Peg.Shortens q) : Peg.Shortens (extended q) := by
  intro v g t hv
  unfold extended at hv
  split at hv
  · rename_i c v'
    have hbody := body_length h v'
    split at hv
    · rename_i hb
      cases hv
      rw [hb, List.length_cons] at hbody
      rw [List.length_cons, List.length_cons]
      omega
    · cases hv
  · cases hv

theorem wild_shortens : Peg.Shortens wild := by
  intro v g t hv
  unfold wild at hv
  split at hv
  · cases hv
    exact Nat.lt_succ_self _
  · cases hv
    exact Nat.lt_succ_self _
  · cases hv

theorem glob_shortens (h : Peg.Shortens q) : Peg.Shortens (glob ext q) := by
  intro v g t hv
  unfold glob at hv
  split at hv
  · rename_i hb
    cases hv
    exact bracket_length hb
  · split at hv
    · rename_i he
      cases hv
      split_ifs at he
      exact extended_shortens h v g t he
    · exact wild_shortens v g t hv

theorem escaped_length {c : Char} {t : List Letter} {g : Glob}
    (h : escaped c v = some (g, t)) : t.length < v.length := by
  unfold escaped at h
  split at h
  · cases h
  · split_ifs at h
    cases h
    exact Nat.lt_succ_self _

theorem rule_shortens (h : Peg.Shortens q) : Peg.Shortens (rule ext q) := by
  intro v g t hv
  unfold rule at hv
  split at hv
  · cases hv
  · cases hv
    exact Nat.lt_succ_self _
  · split at hv
    · rename_i he
      cases hv
      exact Nat.lt_succ_of_lt (escaped_length he)
    · split at hv
      · rename_i hg
        cases hv
        exact glob_shortens h _ g t hg
      · cases hv
        exact Nat.lt_succ_self _

theorem pieceAt_shortens (depth : Nat) : Peg.Shortens (pieceAt ext depth) := by
  induction depth with
  | zero => exact rule_shortens nofun
  | succ depth ih => exact rule_shortens ih

theorem piece_shortens : Peg.Shortens (piece ext) := fun v g t h => pieceAt_shortens _ v g t h

end Letters

end Seahaven.Shell.Extended
