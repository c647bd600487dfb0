import Seahaven.Io
import Seahaven.Lib.Reader
import Seahaven.Lossy
import Seahaven.Vfs.Mount
import Mathlib.Algebra.Order.Ring.Nat

/-!
# The session payload on the wire

What a child is told of its session besides the descriptors: a version, the working directory and,
for each mount, where it lies and what it permits. Lengths and counts are 32-bit words, least
significant byte first.
-/

namespace Seahaven.Broker

open Reader Vfs

def wireVersion : Nat := 1

def malformed (message : String) : IoError := .custom .invalidData (os message)

/-! ## Encoding -/

/-- `u32::to_le_bytes`. -/
def le32 (n : Nat) : List UInt8 :=
  [.ofNat n, .ofNat (n / 2 ^ 8), .ofNat (n / 2 ^ 16), .ofNat (n / 2 ^ 24)]

/-- `u32::try_from(n).unwrap_or(u32::MAX)`. -/
def clamp32 (n : Nat) : Nat := min n (2 ^ 32 - 1)

def putStr (s : OsStr) : List UInt8 := le32 (clamp32 s.bytes.length) ++ s.bytes

def accessByte : Access → UInt8
  | .readOnly => 0
  | .readWrite => 1

def putMount (m : OsStr × Access) : List UInt8 := putStr m.1 ++ [accessByte m.2]

def encode (cwd : OsStr) (mounts : List (OsStr × Access)) : List UInt8 :=
  le32 wireVersion ++ (putStr cwd ++ (le32 (clamp32 mounts.length) ++ mounts.flatMap putMount))

/-! ## Decoding -/

/-- The decoded payload minus handles. -/
structure Decoded where
  cwd : OsStr
  mounts : List (OsStr × Access)
  deriving DecidableEq

def endedEarly : IoError := malformed "session payload ended early"

def take (n : Nat) : Reader UInt8 IoError (List UInt8) := fun b =>
  if n ≤ b.length then .ok (b.take n, b.drop n) else .error endedEarly

def byte : Reader UInt8 IoError UInt8
  | b :: rest => .ok (b, rest)
  | [] => .error endedEarly

/-- `Reader::u32`. -/
def word : Reader UInt8 IoError Nat
  | b₀ :: b₁ :: b₂ :: b₃ :: rest =>
    .ok (b₀.toNat + 2 ^ 8 * b₁.toNat + 2 ^ 16 * b₂.toNat + 2 ^ 24 * b₃.toNat, rest)
  | _ => .error endedEarly

def text (b : List UInt8) : Reader UInt8 IoError OsStr :=
  match fromUtf8 b with
  | some s => pure s
  | none => throw (malformed "session payload has a non-UTF-8 field")

def string : Reader UInt8 IoError OsStr := do
  let len ← word
  let b ← take len
  text b

def accessOf (b : UInt8) : Reader UInt8 IoError Access :=
  if b = 0 then pure .readOnly
  else if b = 1 then pure .readWrite
  else throw (malformed "session payload has an unknown access mode")

def mountOf : Reader UInt8 IoError (OsStr × Access) := do
  let at' ← string
  let b ← byte
  let access ← accessOf b
  pure (at', access)

def checkVersion (version : Nat) : Reader UInt8 IoError Unit :=
  if version ≠ wireVersion then throw (malformed "session payload has the wrong wire version")
  else pure ()

def payload : Reader UInt8 IoError Decoded := do
  let version ← word
  checkVersion version
  let cwd ← string
  let count ← word
  let mounts ← times count mountOf
  pure ⟨cwd, mounts⟩

def decode (bytes : List UInt8) : Except IoError Decoded := (payload bytes).map Prod.fst

/-! ## What is written is what is read -/

variable {bound : Nat}

@[simp] theorem length_le32 (n : Nat) : (le32 n).length = 4 := rfl

theorem reads_word {n : Nat} (h : n < 2 ^ 32) : Reads bound word (le32 n) n where
  whole _ rest := by
    have hsum : n % 2 ^ 8 + 2 ^ 8 * (n / 2 ^ 8 % 2 ^ 8) + 2 ^ 16 * (n / 2 ^ 16 % 2 ^ 8) +
        2 ^ 24 * (n / 2 ^ 24 % 2 ^ 8) = n := by omega
    simp only [le32, List.cons_append, List.nil_append, word, UInt8.toNat_ofNat']
    rw [hsum]
  short s _ hlt _ := by
    rw [length_le32] at hlt
    match s, hlt with
    | [], _ => exact ⟨_, rfl⟩
    | [_], _ => exact ⟨_, rfl⟩
    | [_, _], _ => exact ⟨_, rfl⟩
    | [_, _, _], _ => exact ⟨_, rfl⟩

theorem reads_byte (b : UInt8) : Reads bound byte [b] b where
  whole _ _ := rfl
  short s _ hlt _ := by
    obtain rfl : s = [] := List.length_eq_zero_iff.1 (by simpa using hlt)
    exact ⟨_, rfl⟩

theorem reads_take {n : Nat} {bs : List UInt8}
    (h : bs.length = n ∨ bound < n ∧ bound < bs.length) : Reads bound (take n) bs bs where
  whole hlen rest := by
    obtain rfl : bs.length = n := by omega
    rw [take, if_pos (by simp), List.take_left, List.drop_left]
  short s _ hlt hb := ⟨_, if_neg (by omega)⟩

theorem reads_text {s : OsStr} (hs : s.isUtf8 = true) : Reads bound (text s.bytes) [] s := by
  rw [text, fromUtf8_bytes hs]
  exact reads_pure s

def Fits (bound : Nat) (s : OsStr) : Prop := s.bytes.length < 2 ^ 32 ∨ bound < 2 ^ 32 - 1

theorem reads_string {s : OsStr} (hfit : Fits bound s) (hs : s.isUtf8 = true) :
    Reads bound string (putStr s) s := by
  have hword : clamp32 s.bytes.length < 2 ^ 32 := by rw [clamp32]; omega
  have htake : s.bytes.length = clamp32 s.bytes.length ∨
      bound < clamp32 s.bytes.length ∧ bound < s.bytes.length := by
    rw [clamp32]
    rcases hfit with h | h <;> omega
  exact (reads_word hword).bind ((reads_take htake).bind_nil (reads_text hs))

theorem reads_access (a : Access) : Reads bound (accessOf (accessByte a)) [] a := by
  cases a <;> exact reads_pure _

theorem reads_mount {m : OsStr × Access} (hfit : Fits bound m.1) (hm : m.1.isUtf8 = true) :
    Reads bound mountOf (putMount m) m :=
  (reads_string hfit hm).bind
    ((reads_byte _).bind_nil ((reads_access m.2).bind_nil (reads_pure _)))

/-- **What is written is what is read**, and nothing less is read as anything. -/
theorem reads_payload {cwd : OsStr} {mounts : List (OsStr × Access)} (hfit : Fits bound cwd)
    (hfits : ∀ m ∈ mounts, Fits bound m.1) (hcwd : cwd.isUtf8 = true)
    (hmounts : ∀ m ∈ mounts, m.1.isUtf8 = true) (hcount : mounts.length < 2 ^ 32) :
    Reads bound payload (encode cwd mounts) ⟨cwd, mounts⟩ := by
  have hclamp : clamp32 mounts.length = mounts.length := by rw [clamp32]; omega
  have htimes : Reads bound (times mounts.length mountOf) (mounts.flatMap putMount) mounts := by
    have := reads_times fun m hm => reads_mount (hfits m hm) (hmounts m hm)
    rwa [List.map_id'] at this
  have hversion : Reads bound (checkVersion wireVersion) [] () := reads_pure ()
  refine (reads_word (by decide)).bind (hversion.bind ((reads_string hfit hcwd).bind ?_))
  rw [hclamp]
  exact (reads_word hcount).bind (htimes.bind_nil (reads_pure _))

theorem length_encode (cwd : OsStr) (mounts : List (OsStr × Access)) :
    (encode cwd mounts).length =
      12 + cwd.bytes.length + (mounts.map fun m => 5 + m.1.bytes.length).sum := by
  have hsum : (mounts.flatMap putMount).length =
      (mounts.map fun m => 5 + m.1.bytes.length).sum := by
    rw [List.length_flatMap]
    congr 2
    funext m
    simp only [putMount, putStr, List.length_append, length_le32, List.length_singleton]
    omega
  simp only [encode, putStr, List.length_append, length_le32, hsum]
  omega

/-- **Cut short.** A piece of a payload decodes if and only if it is the whole. -/
theorem decode_take {cwd : OsStr} {mounts : List (OsStr × Access)} {n : Nat} (hn : n ≤ 64 * 1024)
    (hcwd : cwd.isUtf8 = true) (hmounts : ∀ m ∈ mounts, m.1.isUtf8 = true)
    (hcount : mounts.length < 2 ^ 32) :
    ((encode cwd mounts).length ≤ n →
      decode ((encode cwd mounts).take n) = .ok ⟨cwd, mounts⟩) ∧
    (n < (encode cwd mounts).length → ∃ e, decode ((encode cwd mounts).take n) = .error e) := by
  have hpayload : Reads (64 * 1024) payload (encode cwd mounts) ⟨cwd, mounts⟩ :=
    reads_payload (.inr (by decide)) (fun _ _ => .inr (by decide)) hcwd hmounts hcount
  have hread := hpayload.take hn
  refine ⟨fun h => ?_, fun h => ?_⟩
  · rw [decode, hread.1 h]
    rfl
  · obtain ⟨e, he⟩ := hread.2 h
    exact ⟨e, by rw [decode, he]; rfl⟩

/-! ## What is read was written -/

theorem spells_word : Spells word fun n bs => bs = le32 n ∧ n < 2 ^ 32 := by
  intro s n rest h
  match s, h with
  | b₀ :: b₁ :: b₂ :: b₃ :: s, h =>
    obtain ⟨rfl, rfl⟩ := Prod.mk.inj (Except.ok.inj h)
    have h₀ := b₀.toNat_lt
    have h₁ := b₁.toNat_lt
    have h₂ := b₂.toNat_lt
    have h₃ := b₃.toNat_lt
    refine ⟨[b₀, b₁, b₂, b₃], rfl, ?_, by omega⟩
    simp only [le32, List.cons.injEq, and_true, ← UInt8.toNat_inj, UInt8.toNat_ofNat']
    omega

theorem spells_take (n : Nat) : Spells (take n) fun b bs => bs = b ∧ b.length = n := by
  intro s b rest h
  unfold take at h
  split_ifs at h with hn
  obtain ⟨rfl, rfl⟩ := Prod.mk.inj (Except.ok.inj h)
  exact ⟨s.take n, (List.take_append_drop n s).symm, rfl, List.length_take_of_le hn⟩

theorem spells_byte : Spells byte fun b bs => bs = [b] := by
  intro s b rest h
  match s, h with
  | x :: s, h =>
    obtain ⟨rfl, rfl⟩ := Prod.mk.inj (Except.ok.inj h)
    exact ⟨[x], rfl, rfl⟩

theorem spells_text (b : List UInt8) :
    Spells (text b) fun s bs => bs = [] ∧ s.bytes = b ∧ s.isUtf8 = true := by
  unfold text
  cases hb : fromUtf8 b with
  | none =>
    intro s a rest h
    cases h
  | some s =>
    refine (spells_pure s).imp ?_
    rintro _ _ ⟨rfl, rfl⟩
    exact ⟨rfl, fromUtf8_eq_some.1 hb⟩

def Written (s : OsStr) : Prop := s.isUtf8 = true ∧ s.bytes.length < 2 ^ 32

theorem spells_string : Spells string fun s bs => bs = putStr s ∧ Written s := by
  refine (spells_word.bind fun n => (spells_take n).bind spells_text).imp ?_
  rintro s _ ⟨n, _, _, rfl, ⟨rfl, hn⟩, b, _, _, rfl, ⟨rfl, rfl⟩, rfl, rfl, hs⟩
  have hclamp : clamp32 s.bytes.length = s.bytes.length := by rw [clamp32]; omega
  rw [putStr, hclamp, List.append_nil]
  exact ⟨rfl, hs, hn⟩

theorem spells_access (b : UInt8) :
    Spells (accessOf b) fun a bs => bs = [] ∧ accessByte a = b := by
  unfold accessOf
  split_ifs with h₀ h₁
  · refine (spells_pure _).imp ?_
    rintro _ _ ⟨rfl, rfl⟩
    exact ⟨rfl, h₀.symm⟩
  · refine (spells_pure _).imp ?_
    rintro _ _ ⟨rfl, rfl⟩
    exact ⟨rfl, h₁.symm⟩
  · intro s a rest h
    cases h

theorem spells_mount : Spells mountOf fun m bs => bs = putMount m ∧ Written m.1 := by
  refine (spells_string.bind fun at' => spells_byte.bind fun b => (spells_access b).bind
    fun a => spells_pure (at', a)).imp ?_
  rintro _ _ ⟨at', _, _, rfl, ⟨rfl, hat⟩, _, _, _, rfl, rfl, a, _, _, rfl, ⟨rfl, rfl⟩, rfl, rfl⟩
  exact ⟨rfl, hat⟩

theorem spells_version (version : Nat) :
    Spells (checkVersion version) fun _ bs => bs = [] ∧ version = wireVersion := by
  unfold checkVersion
  split_ifs with h
  · intro s a rest h
    cases h
  · refine (spells_pure ()).imp ?_
    rintro _ _ ⟨-, rfl⟩
    exact ⟨rfl, not_not.1 h⟩

/-- **What is read was written**: an accepted payload starts with the encoding of what it is
read as. -/
theorem spells_payload : Spells payload fun d bs => bs = encode d.cwd d.mounts ∧
    Written d.cwd ∧ d.mounts.length < 2 ^ 32 ∧ ∀ m ∈ d.mounts, Written m.1 := by
  refine (spells_word.bind fun version => (spells_version version).bind fun _ =>
    spells_string.bind fun cwd => spells_word.bind fun count =>
      (spells_times spells_mount count).bind fun mounts =>
        spells_pure (Decoded.mk cwd mounts)).imp ?_
  rintro _ _ ⟨_, _, _, rfl, ⟨rfl, -⟩, _, _, _, rfl, ⟨rfl, rfl⟩, cwd, _, _, rfl, ⟨rfl, hcwd⟩,
    _, _, _, rfl, ⟨rfl, hcount⟩, mounts, _, _, rfl, ⟨rfl, rfl, hmounts⟩, rfl, rfl⟩
  have hclamp : clamp32 mounts.length = mounts.length := by rw [clamp32]; omega
  refine ⟨?_, hcwd, hcount, hmounts⟩
  rw [encode, hclamp, List.nil_append, List.append_nil]

end Seahaven.Broker
