import Seahaven.Shell.Letters

/-!
# Quoted text in patterns

Whether quoted text is literal in the pattern that `Pattern::to_regex_str` translates.
`regex_char_is_special` escapes what means something in a regular expression, which is not all that
means something in a pattern: `-` and `!` in brackets, `:` in a class and `@` and `!` before a
parenthesis are not escaped, and a backslash escapes the one that escapes.

1. `AllKept` tells, along the letters, where none of these stands where it would be read.
2. There the rules on the text do what the rules on the letters do, from a character of a bracket
   expression (`single_text`) up to a bracket expression (`bracket_text`), an extended pattern
   (`extended_text`) and a piece (`piece_text`).
3. `pattern_literal`: so quoted text is literal.
-/

namespace Seahaven.Shell.Extended

open Letters (single cls classWord range member invert bracket extended)

variable {ext : Bool} {v : List Letter}

/-! ## Where quoted text is kept -/

/-- A backslash at the front escapes what it stands before, not another backslash. -/
def EscapeKept : List Letter → Prop
  | ('\\', false) :: (c, true) :: _ => regexCharIsSpecial c = false
  | _ => True

/-- What is read at the front as a member of a bracket expression is read from the letters. -/
structure MemberKept (v : List Letter) : Prop where
  escape : EscapeKept v
  /-- No quoted letter completes a class. -/
  cls : ∀ name ∈ charClasses, Member.text (.cls name) <+: text v → classWord name <+: v
  /-- No quoted `-` stands between two characters. -/
  range : ∀ lo quoted rest, single v = some (lo, ('-', quoted) :: rest) →
    if quoted then single rest = none else EscapeKept rest

inductive MembersKept : List Letter → Prop
  | mk {v : List Letter} (here : MemberKept v)
      (next : ∀ m t, member v = some (m, t) → MembersKept t) : MembersKept v

/-- What is read behind an opening bracket is read from the letters. -/
structure BracketKept (v : List Letter) : Prop where
  /-- No quoted `!` stands in front. -/
  front : ∀ t, v ≠ ('!', true) :: t
  members : MembersKept (invert v).2

def Unclosed : List Letter → Prop
  | ('\\', false) :: (c, quoted) :: v =>
    (quoted = true → regexCharIsSpecial c = false) ∧ Unclosed v
  | (c, quoted) :: v => (c = ']' → quoted = true) ∧ Unclosed v
  | [] => True

/-- What is read at the front as a piece is read from the letters. -/
structure Kept (ext : Bool) (v : List Letter) : Prop where
  escape : EscapeKept v
  /-- No quoted sign stands before parentheses of which it would make an extended pattern. -/
  sign : ∀ c rest, v = (c, true) :: ('(', false) :: rest → ext = true →
    regexCharIsSpecial c = false →
      extended (Letters.piece ext) ((c, false) :: ('(', false) :: rest) = none
  set : ∀ rest, v = ('[', false) :: rest → BracketKept rest ∨ Unclosed rest

/-- The letters behind a bracket expression, or behind a letter with its backslash. -/
def behind (v : List Letter) : List Letter :=
  match bracket v, v with
  | some (_, rest), _ => rest
  | none, ('\\', false) :: _ :: rest => rest
  | none, _ :: rest => rest
  | none, [] => []

inductive AllKept (ext : Bool) : List Letter → Prop
  | nil : AllKept ext []
  | cons {l : Letter} {v : List Letter} (here : Kept ext (l :: v))
      (rest : AllKept ext (behind (l :: v))) : AllKept ext (l :: v)

/-! ## Characters of the text -/

theorem text_cons (l : Letter) (v : List Letter) : text (l :: v) = letterText l ++ text v :=
  List.flatMap_cons

theorem text_unquoted (c : Char) (v : List Letter) : text ((c, false) :: v) = c :: text v := rfl

theorem text_quoted {c : Char} (h : regexCharIsSpecial c = false) (v : List Letter) :
    text ((c, true) :: v) = c :: text v := by
  rw [text_cons, letterText, h]
  rfl

theorem text_escaped {c : Char} (h : regexCharIsSpecial c = true) (v : List Letter) :
    text ((c, true) :: v) = '\\' :: c :: text v := by
  rw [text_cons, letterText, h]
  rfl

theorem text_eq_cons {c : Char} {s : List Char} (h : text v = c :: s) (hc : c ≠ '\\') :
    ∃ quoted rest, v = (c, quoted) :: rest ∧ text rest = s ∧
      (quoted = true → regexCharIsSpecial c = false) := by
  cases v with
  | nil => cases h
  | cons l rest =>
    obtain ⟨d, quoted⟩ := l
    cases quoted with
    | false =>
      rw [text_unquoted] at h
      cases h
      exact ⟨false, rest, rfl, rfl, nofun⟩
    | true =>
      cases hd : regexCharIsSpecial d with
      | true =>
        rw [text_escaped hd] at h
        cases h
        exact absurd rfl hc
      | false =>
        rw [text_quoted hd] at h
        cases h
        exact ⟨true, rest, rfl, rfl, fun _ => hd⟩

theorem text_special {c : Char} {s : List Char} (h : text v = c :: s) (hc : c ≠ '\\')
    (hspecial : regexCharIsSpecial c = true) : ∃ rest, v = (c, false) :: rest ∧ text rest = s := by
  obtain ⟨quoted, rest, rfl, hs, hquoted⟩ := text_eq_cons h hc
  cases quoted with
  | false => exact ⟨rest, rfl, hs⟩
  | true => exact absurd hspecial (by rw [hquoted rfl]; exact nofun)

theorem text_ne {c : Char} {s : List Char} (h : ∀ rest, v = (c, false) :: rest → False)
    (hc : c ≠ '\\') (hspecial : regexCharIsSpecial c = true) : text v ≠ c :: s := by
  intro hv
  obtain ⟨rest, hrest, -⟩ := text_special hv hc hspecial
  exact h rest hrest

variable {l : Letter}

theorem text_behind_backslash (h : EscapeKept (('\\', false) :: l :: v)) :
    text (('\\', false) :: l :: v) = '\\' :: l.1 :: text v := by
  obtain ⟨c, quoted⟩ := l
  rw [text_unquoted]
  cases quoted with
  | false => rfl
  | true => rw [text_quoted h]

/-! ## Bracket expressions -/

theorem single_quoted (c : Char) (v : List Letter) :
    single ((c, true) :: v) = some (if regexCharIsSpecial c then .escaped c else .plain c, v) := by
  rw [single]

theorem single_plain {c : Char} (h₁ : c ≠ '\\') (h₂ : c ≠ '[') (h₃ : c ≠ ']') (v : List Letter) :
    single ((c, false) :: v) = some (.plain c, v) := by
  rw [single]
  · rw [if_neg h₃]
  · exact fun _ _ _ _ h => absurd h h₁
  · exact h₂

theorem singleCharBracketMember_plain {c : Char} (h₁ : c ≠ '\\') (h₂ : c ≠ '[') (h₃ : c ≠ ']')
    (s : List Char) : singleCharBracketMember (c :: s) = some (.plain c, s) := by
  rw [singleCharBracketMember]
  · rw [if_neg h₃]
  · exact fun _ _ h => absurd h h₁
  · exact h₂

theorem single_text (h : EscapeKept v) :
    singleCharBracketMember (text v) = (single v).map (Prod.map id text) := by
  cases v with
  | nil => rfl
  | cons l v =>
    obtain ⟨c, quoted⟩ := l
    cases quoted with
    | true =>
      rw [single_quoted]
      cases hc : regexCharIsSpecial c with
      | true =>
        rw [text_escaped hc]
        rfl
      | false =>
        rw [text_quoted hc, singleCharBracketMember_plain]
        · rfl
        all_goals
          rintro rfl
          exact absurd hc (by decide)
    | false =>
      by_cases h₁ : c = '\\'
      · subst h₁
        cases v with
        | nil => rfl
        | cons l v =>
          rw [text_behind_backslash h]
          rfl
      by_cases h₂ : c = '['
      · subst h₂
        rfl
      by_cases h₃ : c = ']'
      · subst h₃
        rfl
      rw [text_unquoted, single_plain h₁ h₂ h₃, singleCharBracketMember_plain h₁ h₂ h₃]
      rfl

theorem escapeKept_of_single (h : single v = none) : EscapeKept v := by
  unfold single at h
  split at h
  next => cases h
  next => cases h
  next => cases h
  next hnot _ =>
    unfold EscapeKept
    split
    next hv =>
      cases hv
      exact (hnot _ _ _ rfl rfl).elim
    next => trivial
  next => trivial

theorem text_classWord (name : List Char) : text (classWord name) = Member.text (.cls name) := by
  unfold classWord text
  rw [List.flatMap_map]
  exact List.flatMap_singleton' _

theorem cls_text (h : ∀ name ∈ charClasses,
      Member.text (.cls name) <+: text v → classWord name <+: v) :
    charClassExpression (text v) = (cls v).map (Prod.map id text) := by
  unfold charClassExpression cls
  rw [List.map_findSome?]
  refine Peg.findSome?_congr fun name hname => ?_
  dsimp only [Function.comp_apply]
  by_cases hword : classWord name <+: v
  · obtain ⟨rest, rfl⟩ := hword
    have htext : text (classWord name ++ rest) = Member.text (.cls name) ++ text rest := by
      rw [← text_classWord]
      exact List.flatMap_append
    rw [if_pos (List.isPrefixOf_iff_prefix.2 (List.prefix_append _ _)), htext,
      if_pos (List.isPrefixOf_iff_prefix.2 (List.prefix_append _ _)), List.drop_left,
      List.drop_left]
    rfl
  · rw [if_neg fun hpre => hword (List.isPrefixOf_iff_prefix.1 hpre),
      if_neg fun hpre => hword (h name hname (List.isPrefixOf_iff_prefix.1 hpre))]
    rfl

variable {lo : Single}

theorem charRange_none {s t : List Char}
    (h : singleCharBracketMember s = some (lo, t)) (ht : ∀ u, t ≠ '-' :: u) :
    charRange s = none := by
  unfold charRange
  rw [h]
  split
  next heq =>
    cases heq
    exact absurd rfl (ht _)
  next => rfl

variable {t : List Letter}

theorem range_none (h : single v = some (lo, t))
    (ht : ∀ u, t ≠ ('-', false) :: u) : range v = none := by
  unfold range
  rw [h]
  split
  next heq =>
    cases heq
    exact absurd rfl (ht _)
  next => rfl

theorem charRange_dash {s t : List Char}
    (h : singleCharBracketMember s = some (lo, '-' :: t)) :
    charRange s = (singleCharBracketMember t).map fun hi =>
      (if lo.char ≤ hi.1.char then some (.range lo hi.1) else none, hi.2) := by
  unfold charRange
  rw [h]
  cases hrest : singleCharBracketMember t with
  | none => simp [hrest]
  | some r => simp [hrest]

theorem range_dash (h : single v = some (lo, ('-', false) :: t)) :
    range v = (single t).map fun hi =>
      (if lo.char ≤ hi.1.char then some (.range lo hi.1) else none, hi.2) := by
  unfold range
  rw [h]
  cases hrest : single t with
  | none => simp [hrest]
  | some r => simp [hrest]

theorem range_text (h : MemberKept v) :
    charRange (text v) = (range v).map (Prod.map id text) := by
  have hsingle := single_text h.escape
  cases hlo : single v with
  | none =>
    rw [hlo] at hsingle
    unfold charRange range
    rw [hlo, hsingle]
    rfl
  | some r =>
    obtain ⟨lo, t⟩ := r
    rw [hlo] at hsingle
    by_cases hdash : ∃ u, text t = '-' :: u
    · obtain ⟨u, hu⟩ := hdash
      obtain ⟨quoted, rest, rfl, rfl, -⟩ := text_eq_cons hu (by decide)
      have hrange := h.range lo quoted rest hlo
      rw [Option.map_some, Prod.map_apply, hu] at hsingle
      rw [charRange_dash hsingle]
      cases quoted with
      | true =>
        rw [if_pos rfl] at hrange
        rw [range_none hlo fun _ => by simp, single_text (escapeKept_of_single hrange), hrange]
        rfl
      | false =>
        rw [range_dash hlo, single_text hrange]
        cases single rest with
        | none => rfl
        | some r => rfl
    · rw [charRange_none hsingle fun u hu => hdash ⟨u, hu⟩,
        range_none hlo fun u hu => hdash ⟨text u, by rw [hu]; rfl⟩]
      rfl

theorem member_text (h : MemberKept v) :
    bracketMember (text v) = (member v).map (Prod.map id text) := by
  unfold bracketMember member
  rw [cls_text h.cls, range_text h, single_text h.escape]
  cases cls v with
  | some r => rfl
  | none =>
    cases range v with
    | some r => rfl
    | none =>
      cases single v with
      | some r => rfl
      | none => rfl

theorem simulates_member : Peg.Simulates text MembersKept member bracketMember where
  step v hv := by
    cases hv with
    | mk here next => exact member_text here
  keeps v m t hv h := by
    cases hv with
    | mk here next => exact next m t h

theorem invert_text (h : ∀ t, v ≠ ('!', true) :: t) :
    invertChar (text v) = Prod.map id text (invert v) := by
  unfold invert
  split
  next => rfl
  next => rfl
  next h₁ h₂ =>
    unfold invertChar
    split
    next hv =>
      obtain ⟨quoted, rest, rfl, -, -⟩ := text_eq_cons hv (by decide)
      cases quoted with
      | true => exact absurd rfl (h rest)
      | false => exact absurd rfl (h₁ rest)
    next hv => exact absurd hv (text_ne h₂ (by decide) (by decide))
    next => rfl

/-- What the members of a bracket expression make of it, if it is closed behind them. -/
def closed (inverted : Bool) : List (Option Member) × List Char → Option (Piece × List Char)
  | (m :: ms, ']' :: rest) => some (bracketPiece inverted ((m :: ms).filterMap id), rest)
  | _ => none

theorem bracketExpression_open (s : List Char) : bracketExpression ('[' :: s) =
    closed (invertChar s).1 (Peg.many bracketMember (invertChar s).2.length (invertChar s).2) := by
  unfold bracketExpression
  split
  next heq =>
    cases heq
    cases hinvert : invertChar s with
    | mk inverted t =>
      cases hmany : Peg.many bracketMember t.length t with
      | mk members rest =>
        dsimp only
        rw [hmany]
        unfold closed
        cases members with
        | nil => rfl
        | cons m ms =>
          split
          next heq => cases heq
          next heq =>
            cases heq
            rfl
          next hnot =>
            split
            next heq =>
              cases heq
              exact (hnot _ rfl).elim
            next => rfl
  next hnot => exact absurd rfl (hnot _)

theorem closed_text (inverted : Bool) (members : List (Option Member)) (v : List Letter) :
    closed inverted (members, text v) =
      (Letters.closed inverted (members, v)).map (Prod.map id text) := by
  unfold Letters.closed
  split
  next heq =>
    cases heq
    rfl
  next hnot =>
    unfold closed
    split
    next heq =>
      rw [Prod.mk.injEq] at heq
      obtain ⟨rest, rfl, -⟩ := text_special heq.2 (by decide) (by decide)
      exact absurd (by rw [heq.1]) (hnot _ _ _)
    next => rfl

theorem bracket_text (h : BracketKept v) :
    bracketExpression ('[' :: text v) = (bracket (('[', false) :: v)).map (Prod.map id text) := by
  have hmany := (simulates_member.many Letters.member_shortens bracketMember_shortens h.members).1
  rw [bracketExpression_open, bracket, invert_text h.front]
  dsimp only [Prod.map, id]
  rw [hmany]
  exact closed_text _ _ _

/-! ## Brackets that are not closed -/

def Open : List Char → Prop
  | '\\' :: _ :: s => Open s
  | c :: s => c ≠ ']' ∧ Open s
  | [] => True

theorem open_cons {c : Char} {s : List Char} (hc : c ≠ '\\') :
    Open (c :: s) ↔ c ≠ ']' ∧ Open s := by
  rw [Open]
  exact fun _ _ h => absurd h hc

theorem unclosed_cons (hl : l ≠ ('\\', false)) :
    Unclosed (l :: v) ↔ (l.1 = ']' → l.2 = true) ∧ Unclosed v := by
  obtain ⟨c, quoted⟩ := l
  rw [Unclosed]
  rintro _ _ _ rfl rfl rfl
  exact hl rfl

theorem Unclosed.escapeKept (h : Unclosed v) : EscapeKept v := by
  unfold EscapeKept
  split
  next => exact h.1 rfl
  next => trivial

theorem special_of_eq {c d : Char} (h : regexCharIsSpecial c = false)
    (hd : regexCharIsSpecial d = true) : c ≠ d := by
  rintro rfl
  exact absurd hd (by rw [h]; exact nofun)

theorem Unclosed.open_text (h : Unclosed v) : Open (text v) := by
  induction v using Unclosed.induct with
  | case1 c quoted v ih =>
    rw [text_behind_backslash h.escapeKept]
    exact ih h.2
  | case2 c quoted v hnot ih =>
    rw [Unclosed] at h
    · obtain ⟨hc, hv⟩ := h
      cases quoted with
      | true =>
        cases hspecial : regexCharIsSpecial c with
        | true =>
          rw [text_escaped hspecial]
          exact ih hv
        | false =>
          rw [text_quoted hspecial, open_cons (special_of_eq hspecial rfl)]
          exact ⟨special_of_eq hspecial rfl, ih hv⟩
      | false =>
        have hne : c ≠ ']' := fun e => absurd (hc e) nofun
        rw [text_unquoted]
        by_cases hback : c = '\\'
        · subst hback
          cases v with
          | nil => exact ⟨hne, trivial⟩
          | cons l v => exact (hnot _ _ _ rfl rfl rfl).elim
        · rw [open_cons hback]
          exact ⟨hne, ih hv⟩
    · exact hnot
  | case3 => trivial

theorem Open.word {w s : List Char} (h : Open (w ++ s)) (hw : '\\' ∉ w) : ']' ∉ w := by
  induction w with
  | nil => exact List.not_mem_nil
  | cons c w ih =>
    rw [List.mem_cons, not_or] at hw ⊢
    rw [List.cons_append, open_cons (Ne.symm hw.1)] at h
    exact ⟨Ne.symm h.1, ih h.2 hw.2⟩

theorem Open.not_class {s : List Char} (h : Open s) {name : List Char}
    (hname : name ∈ charClasses) : ¬ Member.text (.cls name) <+: s := by
  rintro ⟨t, rfl⟩
  have hplain := charClasses_plain name hname
  refine h.word ?_ ?_
  · unfold Member.text
    simpa using fun hc => (hplain _ hc).2.2 rfl
  · unfold Member.text
    simp

theorem Open.charClassExpression {s : List Char} (h : Open s) : charClassExpression s = none := by
  unfold Shell.charClassExpression
  rw [List.findSome?_eq_none_iff]
  intro name hname
  exact if_neg fun hpre => h.not_class hname (List.isPrefixOf_iff_prefix.1 hpre)

theorem Open.single {s t : List Char} {c : Single} (h : Open s)
    (hs : singleCharBracketMember s = some (c, t)) : Open t := by
  unfold singleCharBracketMember at hs
  split at hs
  next =>
    cases hs
    exact h
  next =>
    cases hs
    exact h.2
  next c rest hnot _ =>
    split_ifs at hs
    cases hs
    rw [Open] at h
    · exact h.2
    · exact hnot
  next => cases hs

variable {m : Option Member}

theorem Open.range {s t : List Char} (h : Open s)
    (hs : charRange s = some (m, t)) : Open t := by
  unfold charRange at hs
  split at hs
  next rest hlo =>
    split at hs
    next hhi =>
      cases hs
      have hrest := h.single hlo
      rw [open_cons (by decide)] at hrest
      exact hrest.2.single hhi
    next => cases hs
  next => cases hs

theorem Open.member {s t : List Char} (h : Open s)
    (hs : bracketMember s = some (m, t)) : Open t := by
  unfold bracketMember at hs
  rw [h.charClassExpression] at hs
  dsimp only at hs
  split at hs
  next hr =>
    cases hs
    exact h.range hr
  next =>
    split at hs
    next hc =>
      cases hs
      exact h.single hc
    next => cases hs

theorem Open.bracketExpression {s : List Char} (h : Open s) :
    bracketExpression ('[' :: s) = none := by
  have hinvert : Open (invertChar s).2 := by
    unfold invertChar
    split
    next => exact h.2
    next => exact h.2
    next => exact h
  rw [bracketExpression_open]
  have hrest := Peg.many_keeps (fun _ _ _ h hs => Open.member h hs) (invertChar s).2.length hinvert
  unfold closed
  split
  next heq =>
    rw [heq] at hrest
    exact absurd rfl hrest.1
  next => rfl

theorem Unclosed.single {t : List Letter} {c : Single} (h : Unclosed v)
    (hs : single v = some (c, t)) : Unclosed t := by
  unfold Letters.single at hs
  split at hs
  next =>
    cases hs
    exact h.2
  next =>
    cases hs
    exact ((unclosed_cons (by simp)).1 h).2
  next =>
    cases hs
    exact h.2
  next c rest hnot _ =>
    split_ifs at hs
    cases hs
    rw [Unclosed] at h
    · exact h.2
    · rintro d quoted u rfl hc -
      exact hnot _ _ _ rfl hc
  next => cases hs

theorem Unclosed.cls (h : Unclosed v) : cls v = none := by
  unfold Letters.cls
  rw [List.findSome?_eq_none_iff]
  intro name hname
  refine if_neg fun hpre => h.open_text.not_class hname ?_
  obtain ⟨rest, rfl⟩ := List.isPrefixOf_iff_prefix.1 hpre
  exact ⟨text rest, by rw [← text_classWord]; exact List.flatMap_append.symm⟩

theorem Unclosed.range (h : Unclosed v)
    (hs : range v = some (m, t)) : Unclosed t := by
  unfold Letters.range at hs
  split at hs
  next rest hlo =>
    split at hs
    next hhi =>
      cases hs
      have hrest := h.single hlo
      rw [unclosed_cons (by decide)] at hrest
      exact hrest.2.single hhi
    next => cases hs
  next => cases hs

theorem Unclosed.member (h : Unclosed v)
    (hs : member v = some (m, t)) : Unclosed t := by
  unfold Letters.member at hs
  rw [h.cls] at hs
  dsimp only at hs
  split at hs
  next hr =>
    cases hs
    exact h.range hr
  next =>
    split at hs
    next hc =>
      cases hs
      exact h.single hc
    next => cases hs

theorem Unclosed.bracket (h : Unclosed v) : bracket (('[', false) :: v) = none := by
  have hinvert : Unclosed (invert v).2 := by
    unfold invert
    split
    next => exact h.2
    next => exact h.2
    next => exact h
  rw [Letters.bracket]
  have hrest := Peg.many_keeps (fun _ _ _ h hs => Unclosed.member h hs) (invert v).2.length hinvert
  unfold Letters.closed
  split
  next heq =>
    rw [heq] at hrest
    exact absurd (hrest.1 rfl) nofun
  next => rfl

theorem set_text (h : BracketKept v ∨ Unclosed v) :
    bracketExpression ('[' :: text v) = (bracket (('[', false) :: v)).map (Prod.map id text) := by
  rcases h with h | h
  · exact bracket_text h
  · rw [h.bracket, h.open_text.bracketExpression]
    rfl

/-! ## Extended patterns -/

section

variable {K : List Letter → Prop} {p : Peg.Rule Char Glob} {q : Peg.Rule Letter Glob}

def Passes (K : List Letter → Prop) : Prop :=
  ∀ c v, c ≠ '[' → c ≠ '\\' → K ((c, false) :: v) → K v

theorem simulates_branchPiece (h : Peg.Simulates text K q p) :
    Peg.Simulates text K (Letters.branchPiece q) (branchPiece p) where
  step v hv := by
    unfold Letters.branchPiece
    split
    next => rfl
    next => rfl
    next hbar hparen =>
      unfold branchPiece
      split
      next heq => exact absurd heq (text_ne hbar (by decide) (by decide))
      next heq => exact absurd heq (text_ne hparen (by decide) (by decide))
      next => exact h.step v hv
  keeps v g t hv hg := by
    unfold Letters.branchPiece at hg
    split at hg
    next => cases hg
    next => cases hg
    next => exact h.keeps v g t hv hg

theorem simulates_branch (h : Peg.Simulates text K q p) (hp : Peg.Shortens p)
    (hq : Peg.Shortens q) :
    Peg.Simulates text K (Letters.branch q) (extendedGlobBranch p) where
  step v hv := by
    have hmany := ((simulates_branchPiece h).many (Letters.branchPiece_shortens hq)
      (branchPiece_shortens hp) hv).1
    unfold Letters.branch
    split
    next => rfl
    next => rfl
    next hbar hparen =>
      unfold extendedGlobBranch
      split
      next heq => exact absurd heq (text_ne hbar (by decide) (by decide))
      next heq => exact absurd heq (text_ne hparen (by decide) (by decide))
      next =>
        rw [hmany]
        generalize Peg.many (Letters.branchPiece q) v.length v = r
        obtain ⟨_ | ⟨g, gs⟩, rest⟩ := r <;> rfl
  keeps v gs t hv hg := by
    have hmany := ((simulates_branchPiece h).many (Letters.branchPiece_shortens hq)
      (branchPiece_shortens hp) hv).2
    unfold Letters.branch at hg
    split at hg
    next =>
      cases hg
      exact hv
    next =>
      cases hg
      exact hv
    next =>
      split at hg
      next => cases hg
      next heq =>
        cases hg
        rw [heq] at hmany
        exact hmany

theorem simulates_nextBranch (h : Peg.Simulates text K q p) (hp : Peg.Shortens p)
    (hq : Peg.Shortens q) (hK : Passes K) :
    Peg.Simulates text K (Letters.nextBranch q) (nextBranch p) where
  step v hv := by
    unfold Letters.nextBranch
    split
    next v => exact (simulates_branch h hp hq).step v (hK _ _ (by decide) (by decide) hv)
    next hbar =>
      unfold nextBranch
      split
      next heq => exact absurd heq (text_ne hbar (by decide) (by decide))
      next => rfl
  keeps v gs t hv hg := by
    unfold Letters.nextBranch at hg
    split at hg
    next v => exact (simulates_branch h hp hq).keeps v gs t (hK _ _ (by decide) (by decide) hv) hg
    next => cases hg

theorem body_text (h : Peg.Simulates text K q p) (hp : Peg.Shortens p) (hq : Peg.Shortens q)
    (hK : Passes K) (hv : K v) :
    extendedGlobBody p (text v) = Prod.map id text (Letters.body q v) ∧ K (Letters.body q v).2 := by
  have hbranch := simulates_branch h hp hq
  have hnext := simulates_nextBranch h hp hq hK
  unfold Letters.body
  split
  next => exact ⟨rfl, hv⟩
  next hparen =>
    unfold extendedGlobBody
    cases hb : Letters.branch q v with
    | none =>
      refine ⟨?_, hv⟩
      split
      next heq => exact absurd heq (text_ne hparen (by decide) (by decide))
      next =>
        rw [hbranch.step v hv, hb]
        rfl
    | some r =>
      obtain ⟨b, rest⟩ := r
      obtain ⟨hmany, hk⟩ := hnext.many (Letters.nextBranch_shortens hq) (nextBranch_shortens hp)
        (hbranch.keeps v b rest hv hb)
      refine ⟨?_, hk⟩
      split
      next heq => exact absurd heq (text_ne hparen (by decide) (by decide))
      next =>
        rw [hbranch.step v hv, hb]
        dsimp only [Option.map_some, Prod.map, id]
        rw [hmany]
        rfl

theorem extended_text (h : Peg.Simulates text K q p) (hp : Peg.Shortens p) (hq : Peg.Shortens q)
    (hK : Passes K) (c : Char) (hv : K v) :
    extendedGlobPattern p (c :: '(' :: text v) =
        (extended q ((c, false) :: ('(', false) :: v)).map (Prod.map id text) ∧
      ∀ g t, extended q ((c, false) :: ('(', false) :: v) = some (g, t) → K t := by
  obtain ⟨hbody, hk⟩ := body_text h hp hq hK hv
  rw [extendedGlobPattern, extended, hbody]
  generalize Letters.body q v = r at hk ⊢
  obtain ⟨branches, rest⟩ := r
  cases extendedGlobPrefix c with
  | none => exact ⟨rfl, by rintro _ _ ⟨⟩⟩
  | some kind =>
    dsimp only [Prod.map, id] at hk ⊢
    by_cases hclose : ∃ t, rest = (')', false) :: t
    · obtain ⟨t, rfl⟩ := hclose
      refine ⟨rfl, fun g u hu => ?_⟩
      cases hu
      exact hK _ _ (by decide) (by decide) hk
    · have hcode : ∀ t, text rest ≠ ')' :: t := by
        intro t ht
        obtain ⟨u, hu, -⟩ := text_special ht (by decide) (by decide)
        exact hclose ⟨u, hu⟩
      have hletters : ∀ t, rest ≠ (')', false) :: t := fun t ht => hclose ⟨t, ht⟩
      constructor
      · split
        next heq => exact absurd (Prod.mk.inj heq).2 (hcode _)
        next =>
          split
          next heq => exact absurd (Prod.mk.inj heq).2 (hletters _)
          next => rfl
      · split
        next heq => exact absurd (Prod.mk.inj heq).2 (hletters _)
        next => rintro _ _ ⟨⟩

end

/-! ## Pieces -/

theorem AllKept.behind (h : AllKept ext v) : AllKept ext (behind v) := by
  cases h with
  | nil => exact .nil
  | cons here rest => exact rest

theorem bracket_none {c : Char} {quoted : Bool} (h : c = '[' → quoted = true) (v : List Letter) :
    bracket ((c, quoted) :: v) = none := by
  unfold bracket
  split
  next heq =>
    cases heq
    exact absurd (h rfl) nofun
  next => rfl

theorem behind_cons (h : bracket (l :: v) = none) (hl : l ≠ ('\\', false)) :
    behind (l :: v) = v := by
  unfold behind
  rw [h]
  split
  next heq => cases heq
  next heq =>
    cases heq
    exact absurd rfl hl
  next heq =>
    cases heq
    rfl
  next heq => cases heq

theorem passes_allKept : Passes (AllKept ext) := by
  intro c v h₁ h₂ h
  have hbehind := h.behind
  rwa [behind_cons (bracket_none (fun e => absurd e h₁) v)] at hbehind
  exact fun e => h₂ (Prod.mk.inj e).1

theorem passes_length (n : Nat) : Passes fun t => AllKept ext t ∧ t.length ≤ n :=
  fun c v h₁ h₂ ⟨hk, hle⟩ => ⟨passes_allKept c v h₁ h₂ hk, by
    rw [List.length_cons] at hle
    omega⟩

section

variable {c : Char} {s : List Char} {p : Peg.Rule Char Glob} {q : Peg.Rule Letter Glob}

theorem bracketExpression_none (hc : c ≠ '[') : bracketExpression (c :: s) = none := by
  unfold bracketExpression
  split
  next heq =>
    cases heq
    exact absurd rfl hc
  next => rfl

theorem extendedGlobPattern_none (hs : ∀ u, s ≠ '(' :: u) :
    extendedGlobPattern p (c :: s) = none := by
  unfold extendedGlobPattern
  split
  next heq =>
    cases heq
    exact absurd rfl (hs _)
  next => rfl

theorem extended_none (hv : ∀ u, v ≠ ('(', false) :: u) :
    extended q (l :: v) = none := by
  unfold extended
  split
  next heq =>
    cases heq
    exact absurd rfl (hv _)
  next => rfl

theorem pieceRule_cons (hc : c ≠ '\\') : pieceRule ext p (c :: s) =
    match globPiece ext p (c :: s) with
    | some r => some r
    | none => some (.piece (.char c), s) := by
  unfold pieceRule
  split
  next heq => cases heq
  next heq =>
    cases heq
    exact absurd rfl hc
  next heq =>
    cases heq
    rfl

theorem rule_quoted : Letters.rule ext q ((c, true) :: v) = some (.piece (.char c), v) := rfl

theorem rule_unquoted (hc : c ≠ '\\') : Letters.rule ext q ((c, false) :: v) =
    match Letters.glob ext q ((c, false) :: v) with
    | some r => some r
    | none => some (.piece (.char c), v) := by
  have hescaped : Letters.escaped c v = none := by
    cases v with
    | nil => rfl
    | cons l v => exact if_neg hc
  cases hglob : Letters.glob ext q ((c, false) :: v) with
  | none => simp only [Letters.rule, hescaped, hglob]
  | some r => simp only [Letters.rule, hescaped, hglob]

theorem wild_text (c : Char) (v : List Letter) :
    wildcard (c :: text v) = (Letters.wild ((c, false) :: v)).map (Prod.map id text) := by
  unfold Letters.wild
  split
  next heq =>
    cases heq
    rfl
  next heq =>
    cases heq
    rfl
  next h₁ h₂ =>
    unfold wildcard
    split
    next heq =>
      cases heq
      exact absurd rfl (h₁ _)
    next heq =>
      cases heq
      exact absurd rfl (h₂ _)
    next => rfl

theorem wild_rest {g : Glob}
    (h : Letters.wild (l :: v) = some (g, t)) : t = v := by
  unfold Letters.wild at h
  split at h
  next heq =>
    cases heq
    cases h
    rfl
  next heq =>
    cases heq
    cases h
    rfl
  next => cases h

end

/-- What the rules on the text do with a piece. -/
structure PieceKept (ext : Bool) (depth : Nat) (v : List Letter) : Prop where
  step : patternPiece ext (text v) = (Letters.pieceAt ext depth v).map (Prod.map id text)
  keeps : ∀ g t, Letters.pieceAt ext depth v = some (g, t) → AllKept ext t

section

variable {c : Char} {d : Nat}

theorem quoted_text (here : Kept ext ((c, true) :: v)) (hv : AllKept ext v)
    (hsim : Peg.Simulates text (fun t => AllKept ext t ∧ t.length ≤ v.length) (Letters.piece ext)
      (patternPiece ext)) :
    patternPiece ext (text ((c, true) :: v)) = some (.piece (.char c), text v) := by
  rw [patternPiece_eq]
  cases hc : regexCharIsSpecial c with
  | true =>
    rw [text_escaped hc]
    rfl
  | false =>
    have hglob : globPiece ext (patternPiece ext) (c :: text v) = none := by
      have hext : ext = true → extendedGlobPattern (patternPiece ext) (c :: text v) = none := by
        intro hext
        by_cases hparen : ∃ u, text v = '(' :: u
        · obtain ⟨u, hu⟩ := hparen
          obtain ⟨rest, rfl, rfl⟩ := text_special hu (by decide) (by decide)
          have hrest : AllKept ext rest := passes_allKept _ _ (by decide) (by decide) hv
          have htext := (extended_text hsim patternPiece_shortens Letters.piece_shortens
            (passes_length _) c ⟨hrest, by simp⟩).1
          rw [hu, htext, here.sign c rest rfl hext hc]
          rfl
        · exact extendedGlobPattern_none fun u hu => hparen ⟨u, hu⟩
      have hwild : wildcard (c :: text v) = none := by
        unfold wildcard
        split
        next heq =>
          cases heq
          exact absurd hc (by decide)
        next heq =>
          cases heq
          exact absurd hc (by decide)
        next => rfl
      unfold globPiece
      rw [bracketExpression_none (special_of_eq hc rfl), hwild]
      cases ext with
      | false => rfl
      | true =>
        rw [if_pos rfl, hext rfl]
    rw [text_quoted hc, pieceRule_cons (special_of_eq hc rfl), hglob]

theorem backslash_text (h : AllKept ext (('\\', false) :: v)) :
    PieceKept ext (d + 1) (('\\', false) :: v) := by
  cases v with
  | nil =>
    refine ⟨?_, fun g t hg => ?_⟩
    · rw [patternPiece_eq]
      cases ext with
      | false => rfl
      | true => rfl
    · have hpiece : Letters.pieceAt ext (d + 1) [('\\', false)] =
          some (.piece (.char '\\'), []) := by
        cases ext with
        | false => rfl
        | true => rfl
      rw [hpiece] at hg
      cases hg
      exact .nil
  | cons l v =>
    have hbehind : AllKept ext v := h.behind
    cases h with
    | cons here rest =>
      obtain ⟨c, quoted⟩ := l
      refine ⟨?_, fun g t hg => ?_⟩
      · rw [patternPiece_eq, text_behind_backslash here.escape]
        rfl
      · have hpiece : Letters.pieceAt ext (d + 1) (('\\', false) :: (c, quoted) :: v) =
            some (.piece (.char c), v) := rfl
        rw [hpiece] at hg
        cases hg
        exact hbehind

theorem unquoted_text (hc : c ≠ '\\') (h : AllKept ext ((c, false) :: v))
    (hsim : Peg.Simulates text (fun t => AllKept ext t ∧ t.length ≤ v.length)
      (Letters.pieceAt ext d) (patternPiece ext)) : PieceKept ext (d + 1) ((c, false) :: v) := by
  have hbracket : bracketExpression (c :: text v) =
      (bracket ((c, false) :: v)).map (Prod.map id text) := by
    by_cases hopen : c = '['
    · subst hopen
      cases h with
      | cons here rest => exact set_text (here.set v rfl)
    · rw [bracketExpression_none hopen, bracket_none fun e => absurd e hopen]
      rfl
  have hbehind := h.behind
  cases hb : bracket ((c, false) :: v) with
  | some r =>
    obtain ⟨p, rest⟩ := r
    have hglob : Letters.glob ext (Letters.pieceAt ext d) ((c, false) :: v) =
        some (.piece p, rest) := by
      unfold Letters.glob
      rw [hb]
    have hpiece : Letters.pieceAt ext (d + 1) ((c, false) :: v) = some (.piece p, rest) := by
      rw [Letters.pieceAt, rule_unquoted hc, hglob]
    unfold behind at hbehind
    rw [hb] at hbehind
    refine ⟨?_, fun g t hg => ?_⟩
    · rw [hpiece, patternPiece_eq, text_unquoted, pieceRule_cons hc]
      unfold globPiece
      rw [hbracket, hb]
      rfl
    · rw [hpiece] at hg
      cases hg
      exact hbehind
  | none =>
    rw [behind_cons hb fun e => hc (Prod.mk.inj e).1] at hbehind
    have hextended : extendedGlobPattern (patternPiece ext) (c :: text v) =
          (extended (Letters.pieceAt ext d) ((c, false) :: v)).map (Prod.map id text) ∧
        ∀ g t, extended (Letters.pieceAt ext d) ((c, false) :: v) = some (g, t) →
          AllKept ext t := by
      by_cases hparen : ∃ rest, v = ('(', false) :: rest
      · obtain ⟨rest, rfl⟩ := hparen
        have hrest : AllKept ext rest := passes_allKept _ _ (by decide) (by decide) hbehind
        obtain ⟨htext, hkeeps⟩ := extended_text hsim patternPiece_shortens
          (Letters.pieceAt_shortens d) (passes_length _) c ⟨hrest, by simp⟩
        exact ⟨htext, fun g t hg => (hkeeps g t hg).1⟩
      · have hnot : ∀ u, text v ≠ '(' :: u := by
          intro u hu
          obtain ⟨rest, rfl, -⟩ := text_special hu (by decide) (by decide)
          exact hparen ⟨rest, rfl⟩
        rw [extendedGlobPattern_none hnot, extended_none fun u hu => hparen ⟨u, hu⟩]
        exact ⟨rfl, nofun⟩
    have hglob : globPiece ext (patternPiece ext) (c :: text v) =
          (Letters.glob ext (Letters.pieceAt ext d) ((c, false) :: v)).map (Prod.map id text) ∧
        ∀ g t, Letters.glob ext (Letters.pieceAt ext d) ((c, false) :: v) = some (g, t) →
          AllKept ext t := by
      refine ⟨?_, fun g t hg => ?_⟩
      · unfold globPiece Letters.glob
        rw [hbracket, hb]
        cases ext with
        | false => exact wild_text c v
        | true =>
          rw [if_pos rfl, if_pos rfl, hextended.1]
          cases extended (Letters.pieceAt true d) ((c, false) :: v) with
          | none => exact wild_text c v
          | some r => rfl
      · unfold Letters.glob at hg
        rw [hb] at hg
        dsimp only at hg
        split at hg
        next he =>
          cases hg
          split_ifs at he
          exact hextended.2 g t he
        next =>
          rw [wild_rest hg]
          exact hbehind
    refine ⟨?_, fun g t hg => ?_⟩
    · rw [patternPiece_eq, text_unquoted, pieceRule_cons hc, hglob.1, Letters.pieceAt,
        rule_unquoted hc]
      cases Letters.glob ext (Letters.pieceAt ext d) ((c, false) :: v) with
      | none => rfl
      | some r => rfl
    · rw [Letters.pieceAt, rule_unquoted hc] at hg
      split at hg
      next he =>
        cases hg
        exact hglob.2 g t he
      next =>
        cases hg
        exact hbehind

end

/-- **Pieces.** Where quoted text is kept, the rules on the text read the piece that the rules on
the letters read. -/
theorem piece_text (h : AllKept ext v) {depth : Nat} (hdepth : 2 * v.length ≤ depth) :
    PieceKept ext depth v := by
  induction hn : v.length using Nat.strong_induction_on generalizing v depth with
  | _ n ih =>
    subst hn
    cases v with
    | nil =>
      cases depth with
      | zero => exact ⟨rfl, nofun⟩
      | succ depth => exact ⟨rfl, nofun⟩
    | cons l v =>
      rw [List.length_cons] at hdepth ih
      obtain ⟨depth, rfl⟩ : ∃ d, depth = d + 1 := ⟨depth - 1, by omega⟩
      have hsim : ∀ q : Peg.Rule Letter Glob, Peg.Shortens q →
          (∀ t, t.length ≤ v.length → ∃ d, 2 * t.length ≤ d ∧ q t = Letters.pieceAt ext d t) →
            Peg.Simulates text (fun t => AllKept ext t ∧ t.length ≤ v.length) q
              (patternPiece ext) := by
        intro q hq hdepth
        refine ⟨fun t ht => ?_, fun t g u ht hg => ?_⟩
        · obtain ⟨d, hd, heq⟩ := hdepth t ht.2
          rw [heq]
          exact (ih t.length (by omega) ht.1 hd rfl).step
        · obtain ⟨d, hd, heq⟩ := hdepth t ht.2
          have hlt := hq t g u hg
          rw [heq] at hg
          exact ⟨(ih t.length (by omega) ht.1 hd rfl).keeps g u hg, by omega⟩
      obtain ⟨c, quoted⟩ := l
      cases quoted with
      | true =>
        have hv : AllKept ext v := by
          have hbehind := h.behind
          rwa [behind_cons (bracket_none (fun _ => rfl) v) (by simp)] at hbehind
        have hpiece : Letters.pieceAt ext (depth + 1) ((c, true) :: v) =
            some (.piece (.char c), v) := by
          rw [Letters.pieceAt, rule_quoted]
        refine ⟨?_, fun g t hg => ?_⟩
        · cases h with
          | cons here rest =>
            rw [hpiece, quoted_text here hv (hsim _ Letters.piece_shortens fun t _ =>
              ⟨2 * t.length, Nat.le_refl _, rfl⟩)]
            rfl
        · rw [hpiece] at hg
          cases hg
          exact hv
      | false =>
        by_cases hc : c = '\\'
        · subst hc
          exact backslash_text h
        · exact unquoted_text hc h (hsim _ (Letters.pieceAt_shortens depth) fun t ht =>
            ⟨depth, by omega, rfl⟩)

/-- **Reading.** Where quoted text is kept, the text is read as the letters are. -/
theorem pattern_text (h : AllKept ext v) : pattern ext (text v) = (Letters.pattern ext v, []) := by
  have hsim : Peg.Simulates text (AllKept ext) (Letters.piece ext) (patternPiece ext) :=
    ⟨fun t ht => (piece_text ht (Nat.le_refl _)).step,
      fun t g u ht hg => (piece_text ht (Nat.le_refl _)).keeps g u hg⟩
  have hmany := (hsim.many Letters.piece_shortens patternPiece_shortens h).1
  refine Prod.ext ?_ (pattern_done _)
  unfold pattern
  rw [hmany]
  rfl

/-! ## Literal text -/

/-- Quoted text is literal: every construct that the pattern is read into is one of the unquoted
letters, and the pattern stands for the same strings as those. -/
structure Literal (classes : Classes) (ext : Bool) (pieces : List PatternPiece) : Prop where
  reading : (pattern ext (source pieces)).1 = Letters.pattern ext (pieces.flatMap letters)
  regex : ∀ strictPrefix strictSuffix, toRegexStr ext strictPrefix strictSuffix pieces =
    some ((if strictPrefix then ['^'] else []) ++
      (piecesText (Letters.pattern ext (pieces.flatMap letters)) ++
        if strictSuffix then ['$'] else []))
  language : patternLanguage classes ext (source pieces) =
    piecesLanguage classes (Letters.pattern ext (pieces.flatMap letters))

/-- **Literal.** Where no quoted letter stands where the grammar would read it, quoted text is
literal. -/
theorem pattern_literal (classes : Classes) {pieces : List PatternPiece}
    (h : AllKept ext (pieces.flatMap letters)) : Literal classes ext pieces := by
  have htext : pattern ext (source pieces) =
      (Letters.pattern ext (pieces.flatMap letters), []) := by
    rw [source_eq]
    exact pattern_text h
  refine ⟨congrArg Prod.fst htext, fun strictPrefix strictSuffix => ?_, ?_⟩
  · unfold toRegexStr patternToRegexStr
    rw [htext]
    rfl
  · unfold patternLanguage
    rw [htext]

/-- A quoted closing bracket is a member. -/
theorem closing_literal : Literal (fun _ _ => false) false
    [.pattern ['['], .literal [']'], .pattern ['a', ']']] := by
  have hnil : MembersKept [(']', false)] :=
    .mk ⟨trivial, by decide +kernel, nofun⟩ nofun
  have hone : MembersKept [('a', false), (']', false)] := by
    refine .mk ⟨trivial, by decide +kernel, ?_⟩ ?_
    · rintro lo quoted rest ⟨⟩
    · rintro m t ⟨⟩
      exact hnil
  have hset : MembersKept [(']', true), ('a', false), (']', false)] := by
    refine .mk ⟨trivial, by decide +kernel, ?_⟩ ?_
    · rintro lo quoted rest ⟨⟩
    · rintro m t ⟨⟩
      exact hone
  exact pattern_literal _ (.cons ⟨trivial, nofun, by
    rintro rest ⟨⟩
    exact .inl ⟨nofun, hset⟩⟩ .nil)

theorem mem_set {classes : Classes} {inverted : Bool} {ms : List Member} {c : Char} :
    [c] ∈ piecesLanguage classes [.piece (.set inverted ms)] ↔
      ms.any (memberHas classes c) = !inverted := by
  rw [piecesLanguage, piecesLanguage, mul_one]
  constructor
  · rintro ⟨d, hd, h⟩
    cases hd
    exact h
  · exact fun h => ⟨c, rfl, h⟩

/-- A quoted `-` in brackets makes a range. -/
theorem hyphen_not_literal : ¬ ∀ (classes : Classes) (ext : Bool) (pieces : List PatternPiece),
    Literal classes ext pieces := by
  intro hall
  have h := (hall (fun _ _ => false) false
    [.pattern ['[', 'a'], .literal ['-'], .pattern ['z', ']']]).language
  have hcode : ['m'] ∈ patternLanguage (fun _ _ => false) false ['[', 'a', '-', 'z', ']'] :=
    mem_set.2 (by decide)
  have hletters : ['m'] ∈ piecesLanguage (fun _ _ => false) (Letters.pattern false
      [('[', false), ('a', false), ('-', true), ('z', false), (']', false)]) :=
    h ▸ hcode
  exact absurd (mem_set.1 hletters) (by decide)

end Seahaven.Shell.Extended
