import Mathlib.Data.List.Induction
import Mathlib.Data.List.Infix
import Seahaven.Lib.Offsets

/-!
# Removing matching prefixes and suffixes

`${name#pattern}` and its kin walk the byte offsets of the value's characters, forwards or
backwards, and cut where the pattern first matches.

1. `removeSmallestMatchingPrefix` and the three others, over offsets as the source has them.
2. `Removes`: what is removed is the shortest or the longest part that matches, and is not empty.
3. `removes_affixes`: so it is for all four, and no cut falls within a character.
-/

namespace Seahaven.Shell

open Offsets

/-- How a removal ends early: the pattern engine fails, or a slice panics. -/
inductive AffixStop (ε : Type)
  | failed (e : ε)
  | offBoundary

abbrev Matcher (ε : Type) := Except ε (List Char → Except ε Bool)

variable {ε : Type}

/-- `&s[..idx]`. -/
def sliceTo (s : List Char) (idx : Nat) : Except (AffixStop ε) (List Char) :=
  match cut s idx with
  | some (p, _) => .ok p
  | none => .error .offBoundary

/-- `&s[idx..]`. -/
def sliceFrom (s : List Char) (idx : Nat) : Except (AffixStop ε) (List Char) :=
  match cut s idx with
  | some (_, r) => .ok r
  | none => .error .offBoundary

/-- `re.is_match(part)?`. -/
def isMatch (re : List Char → Except ε Bool) (part : List Char) : Except (AffixStop ε) Bool :=
  (re part).mapError .failed

/-- Compiles the pattern, if there is one, and removes with it. -/
def withPattern (s : List Char) (pattern : Option (Matcher ε))
    (remove : (List Char → Except ε Bool) → Except (AffixStop ε) (List Char)) :
    Except (AffixStop ε) (List Char) :=
  match pattern with
  | none => .ok s
  | some (.error e) => .error (.failed e)
  | some (.ok re) => remove re

/-- The loop of `remove_largest_matching_prefix`, with `last_idx`. -/
def largestPrefixLoop (re : List Char → Except ε Bool) (s : List Char) :
    List Nat → Nat → Except (AffixStop ε) (List Char)
  | [], _ => .ok s
  | idx :: indices, lastIdx => do
    let part ← sliceTo s lastIdx
    if ← isMatch re part then sliceFrom s lastIdx
    else largestPrefixLoop re s indices idx

def removeLargestMatchingPrefix (s : List Char) (pattern : Option (Matcher ε)) :
    Except (AffixStop ε) (List Char) :=
  withPattern s pattern fun re => largestPrefixLoop re s (charIndices 0 s).reverse (byteLen s)

/-- The loop of `remove_smallest_matching_prefix`: the iterator's offset, and what it has not
yielded. -/
def smallestPrefixLoop (re : List Char → Except ε Bool) (s : List Char) :
    Nat → List Char → Except (AffixStop ε) (List Char)
  | _, [] => .ok s
  | offset, c :: indices => do
    let nextIndex := offset + c.utf8Size
    let part ← sliceTo s nextIndex
    if ← isMatch re part then sliceFrom s nextIndex
    else smallestPrefixLoop re s nextIndex indices

def removeSmallestMatchingPrefix (s : List Char) (pattern : Option (Matcher ε)) :
    Except (AffixStop ε) (List Char) :=
  withPattern s pattern fun re => smallestPrefixLoop re s 0 s

/-- The loop of both suffix removals, over offsets in the order they are tried. -/
def suffixLoop (re : List Char → Except ε Bool) (s : List Char) :
    List Nat → Except (AffixStop ε) (List Char)
  | [] => .ok s
  | idx :: indices => do
    let part ← sliceFrom s idx
    if ← isMatch re part then sliceTo s idx
    else suffixLoop re s indices

def removeLargestMatchingSuffix (s : List Char) (pattern : Option (Matcher ε)) :
    Except (AffixStop ε) (List Char) :=
  withPattern s pattern fun re => suffixLoop re s (charIndices 0 s)

def removeSmallestMatchingSuffix (s : List Char) (pattern : Option (Matcher ε)) :
    Except (AffixStop ε) (List Char) :=
  withPattern s pattern fun re => suffixLoop re s (charIndices 0 s).reverse

/-! ## What is removed -/

def predicate (m : List Char → Bool) : Option (Matcher ε) := some (.ok fun part => .ok (m part))

/-- One side of a text, and how the two sides make it up. -/
structure Side where
  isPart : List Char → List Char → Prop
  rejoin : List Char → List Char → List Char
  length_rejoin : ∀ part out, (rejoin part out).length = part.length + out.length

def Side.left : Side where
  isPart part s := part <+: s
  rejoin part out := part ++ out
  length_rejoin _ _ := List.length_append

def Side.right : Side where
  isPart part s := part <:+ s
  rejoin part out := out ++ part
  length_rejoin part out := by rw [List.length_append, Nat.add_comm]

/-- The parts of `s` that match and are not empty. -/
structure Matching (side : Side) (m : List Char → Bool) (s part : List Char) : Prop where
  isPart : side.isPart part s
  ne_nil : part ≠ []
  matched : m part = true

/-- `out` is `s` without a matching part that comes before all others, or `s` if none matches. -/
def Removed (side : Side) (before : Nat → Nat → Prop) (m : List Char → Bool)
    (s out : List Char) : Prop :=
  (out = s ∧ ∀ part, ¬ Matching side m s part) ∨ ∃ part, Matching side m s part ∧
    s = side.rejoin part out ∧ ∀ other, Matching side m s other → before part.length other.length

/-- What a removal answers: never a panic, and `s` itself exactly if nothing matches. -/
def Removes (side : Side) (before : Nat → Nat → Prop) (m : List Char → Bool) (s : List Char)
    (result : Except (AffixStop ε) (List Char)) : Prop :=
  ∃ out, result = .ok out ∧ Removed side before m s out ∧
    (out = s ↔ ∀ part, ¬ Matching side m s part)

theorem Removed.eq_self_iff {side : Side} {before : Nat → Nat → Prop} {m : List Char → Bool}
    {s out : List Char} (h : Removed side before m s out) :
    out = s ↔ ∀ part, ¬ Matching side m s part := by
  rcases h with ⟨rfl, hnone⟩ | ⟨part, hpart, hs, -⟩
  · exact iff_of_true rfl hnone
  · refine iff_of_false ?_ fun hnone => hnone part hpart
    rintro rfl
    have hlen := side.length_rejoin part out
    rw [← hs] at hlen
    exact hpart.ne_nil (List.length_eq_zero_iff.1 (by omega))

theorem Removed.removes {side : Side} {before : Nat → Nat → Prop} {m : List Char → Bool}
    {s out : List Char} {result : Except (AffixStop ε) (List Char)} (hr : result = .ok out)
    (h : Removed side before m s out) : Removes side before m s result :=
  ⟨out, hr, h, h.eq_self_iff⟩

/-! ## The loops -/

theorem sliceTo_append (p r : List Char) :
    (sliceTo (p ++ r) (byteLen p) : Except (AffixStop ε) _) = .ok p := by
  rw [sliceTo, cut_append]

theorem sliceFrom_append (p r : List Char) :
    (sliceFrom (p ++ r) (byteLen p) : Except (AffixStop ε) _) = .ok r := by
  rw [sliceFrom, cut_append]

variable {m : List Char → Bool}

abbrev total (m : List Char → Bool) (part : List Char) : Except ε Bool := .ok (m part)

theorem isMatch_total (part : List Char) :
    isMatch (ε := ε) (total m) part = .ok (m part) := rfl

theorem suffix_of_shorter {q done rest : List Char} (h : q <:+ done ++ rest)
    (hlen : q.length ≤ rest.length) : q <:+ rest :=
  List.suffix_of_suffix_length_le h (List.suffix_append _ _) hlen

theorem smallestPrefixLoop_removes (done rest : List Char)
    (hno : ∀ p, Matching .left m (done ++ rest) p → done.length < p.length) :
    Removes .left (· ≤ ·) m (done ++ rest)
      (smallestPrefixLoop (ε := ε) (total m) (done ++ rest) (byteLen done) rest) := by
  induction rest generalizing done with
  | nil =>
    refine Removed.removes rfl (.inl ⟨rfl, fun p hp => ?_⟩)
    have hlen := hp.isPart.length_le
    rw [List.append_nil] at hlen
    exact absurd (hno p hp) (by omega)
  | cons c rest ih =>
    have hsplit : done ++ c :: rest = (done ++ [c]) ++ rest := by simp
    have hnext : byteLen done + c.utf8Size = byteLen (done ++ [c]) := by simp [byteLen]
    rw [smallestPrefixLoop, hnext, hsplit]
    simp only [sliceTo_append, isMatch_total, sliceFrom_append, bind, Except.bind]
    split_ifs with hm
    · refine Removed.removes rfl (.inr ⟨done ++ [c], ⟨List.prefix_append _ _, by simp, hm⟩, rfl, ?_⟩)
      intro other hother
      rw [← hsplit] at hother
      have := hno other hother
      simp
      omega
    · refine ih (done ++ [c]) fun p hp => ?_
      have hlt := hno p (hsplit ▸ hp)
      have hne : p.length ≠ (done ++ [c]).length := by
        intro he
        obtain rfl := (List.prefix_of_prefix_length_le hp.isPart (List.prefix_append _ _)
          he.le).eq_of_length he
        exact hm hp.matched
      simp at hne ⊢
      omega

theorem largestPrefixLoop_removes (done rest : List Char)
    (hno : ∀ p, Matching .left m (done ++ rest) p → p.length ≤ done.length) :
    Removes .left (· ≥ ·) m (done ++ rest) (largestPrefixLoop (ε := ε) (total m) (done ++ rest)
      (charIndices 0 done).reverse (byteLen done)) := by
  induction done using List.reverseRecOn generalizing rest with
  | nil =>
    refine Removed.removes rfl (.inl ⟨rfl, fun p hp => hp.ne_nil ?_⟩)
    exact List.length_eq_zero_iff.1 (Nat.le_zero.1 (hno p hp))
  | append_singleton done c ih =>
    have hindices : (charIndices 0 (done ++ [c])).reverse =
        byteLen done :: (charIndices 0 done).reverse := by
      rw [charIndices_append]
      simp [charIndices]
    rw [hindices, largestPrefixLoop]
    simp only [sliceTo_append, isMatch_total, sliceFrom_append, bind, Except.bind]
    split_ifs with hm
    · exact Removed.removes rfl (.inr ⟨done ++ [c], ⟨List.prefix_append _ _, by simp, hm⟩, rfl,
        fun other hother => hno other hother⟩)
    · rw [List.append_assoc] at hno ⊢
      refine ih (c :: rest) fun p hp => ?_
      have hle := hno p hp
      have hne : p.length ≠ (done ++ [c]).length := by
        intro he
        have hpre : done ++ [c] <+: done ++ ([c] ++ rest) := by
          rw [← List.append_assoc]
          exact List.prefix_append _ _
        obtain rfl := (List.prefix_of_prefix_length_le hp.isPart hpre he.le).eq_of_length he
        exact hm hp.matched
      simp at hne hle
      omega

theorem largestSuffixLoop_removes (done rest : List Char)
    (hno : ∀ q, Matching .right m (done ++ rest) q → q.length ≤ rest.length) :
    Removes .right (· ≥ ·) m (done ++ rest)
      (suffixLoop (ε := ε) (total m) (done ++ rest) (charIndices (byteLen done) rest)) := by
  induction rest generalizing done with
  | nil =>
    refine Removed.removes rfl (.inl ⟨rfl, fun q hq => hq.ne_nil ?_⟩)
    exact List.length_eq_zero_iff.1 (Nat.le_zero.1 (hno q hq))
  | cons c rest ih =>
    rw [charIndices, suffixLoop]
    simp only [sliceTo_append, isMatch_total, sliceFrom_append, bind, Except.bind]
    split_ifs with hm
    · exact Removed.removes rfl (.inr ⟨c :: rest, ⟨List.suffix_append _ _, by simp, hm⟩, rfl,
        fun other hother => hno other hother⟩)
    · have hsplit : done ++ c :: rest = (done ++ [c]) ++ rest := by simp
      have hnext : byteLen done + c.utf8Size = byteLen (done ++ [c]) := by simp [byteLen]
      rw [hnext, hsplit]
      refine ih (done ++ [c]) fun q hq => ?_
      rw [← hsplit] at hq
      have hle := hno q hq
      have hne : q.length ≠ (c :: rest).length := by
        intro he
        obtain rfl := (suffix_of_shorter hq.isPart he.le).eq_of_length he
        exact hm hq.matched
      simp at hne hle
      omega

theorem smallestSuffixLoop_removes (done rest : List Char)
    (hno : ∀ q, Matching .right m (done ++ rest) q → rest.length < q.length) :
    Removes .right (· ≤ ·) m (done ++ rest)
      (suffixLoop (ε := ε) (total m) (done ++ rest) (charIndices 0 done).reverse) := by
  induction done using List.reverseRecOn generalizing rest with
  | nil =>
    refine Removed.removes rfl (.inl ⟨rfl, fun q hq => ?_⟩)
    exact absurd (hno q hq) (Nat.not_lt.2 hq.isPart.length_le)
  | append_singleton done c ih =>
    have hindices : (charIndices 0 (done ++ [c])).reverse =
        byteLen done :: (charIndices 0 done).reverse := by
      rw [charIndices_append]
      simp [charIndices]
    rw [hindices, suffixLoop, List.append_assoc]
    rw [List.append_assoc] at hno
    simp only [sliceTo_append, isMatch_total, sliceFrom_append, bind, Except.bind]
    split_ifs with hm
    · refine Removed.removes rfl (.inr ⟨[c] ++ rest, ⟨List.suffix_append _ _, by simp, hm⟩, rfl, ?_⟩)
      intro other hother
      have := hno other hother
      simp
      omega
    · refine ih ([c] ++ rest) fun q hq => ?_
      have hlt := hno q hq
      have hne : q.length ≠ ([c] ++ rest).length := by
        intro he
        obtain rfl := (suffix_of_shorter hq.isPart he.le).eq_of_length he
        exact hm hq.matched
      simp at hne ⊢
      omega

/-! ## The four removals -/

/-- **What each removal removes**: the shortest or longest beginning or end that matches and is not
empty, cut between characters. -/
theorem removes_affixes (m : List Char → Bool) (s : List Char) :
    Removes .left (· ≤ ·) m s
      (removeSmallestMatchingPrefix s (predicate m) : Except (AffixStop ε) _) ∧
    Removes .left (· ≥ ·) m s
      (removeLargestMatchingPrefix s (predicate m) : Except (AffixStop ε) _) ∧
    Removes .right (· ≤ ·) m s
      (removeSmallestMatchingSuffix s (predicate m) : Except (AffixStop ε) _) ∧
    Removes .right (· ≥ ·) m s
      (removeLargestMatchingSuffix s (predicate m) : Except (AffixStop ε) _) := by
  refine ⟨?_, ?_, ?_, ?_⟩
  · exact smallestPrefixLoop_removes [] s fun p hp => List.length_pos_iff.2 hp.ne_nil
  · have h := largestPrefixLoop_removes (ε := ε) (m := m) s [] fun p hp => by
      simpa using hp.isPart.length_le
    rwa [List.append_nil] at h
  · have h := smallestSuffixLoop_removes (ε := ε) (m := m) s [] fun q hq =>
      List.length_pos_iff.2 hq.ne_nil
    rwa [List.append_nil] at h
  · exact largestSuffixLoop_removes [] s fun q hq => hq.isPart.length_le

end Seahaven.Shell
