import Seahaven.Broker.Wire

/-!
# The payload by index

The decoder keeps the whole payload and an index into it. An index is added to with a check for
overflow, and a piece of the payload is taken by its two ends, which would panic out of bounds.

1. `Follows`: a reader by index does what the reader of `Wire` does with what is left.
2. `decode_follows`: so does the decoder, which therefore never panics.
-/

namespace Seahaven.Broker

open Reader Vfs

/-- A machine word: what an index can be. It holds 32 bits at least. -/
structure Target where
  usizeMax : Nat
  wide : 2 ^ 32 - 1 ≤ usizeMax

/-- Bytes in memory, whose length is an index. -/
structure Slice (T : Target) where
  bytes : List UInt8
  length_le : bytes.length ≤ T.usizeMax

/-- How decoding ends early: with an error, or with a panic. -/
inductive Stop
  | failed (e : IoError)
  | outOfBounds
  deriving DecidableEq

variable {T : Target}

abbrev Cursor (α : Type) := StateT Nat (Except Stop) α

/-- `a.checked_add(b)`. -/
def checkedAdd (T : Target) (a b : Nat) : Option Nat :=
  if a + b ≤ T.usizeMax then some (a + b) else none

/-- `&bytes[start..stop]`. -/
def piece (b : List UInt8) (start stop : Nat) : Except Stop (List UInt8) :=
  if start ≤ stop ∧ stop ≤ b.length then .ok ((b.take stop).drop start) else .error .outOfBounds

/-- `b[i]`. -/
def index (b : List UInt8) (i : Nat) : Except Stop UInt8 :=
  match b[i]? with
  | some x => .ok x
  | none => .error .outOfBounds

namespace Cursor

/-- `Reader::take`. -/
def take (s : Slice T) (n : Nat) : Cursor (List UInt8) := fun at' =>
  match (checkedAdd T at' n).filter fun stop => stop ≤ s.bytes.length with
  | none => .error (.failed endedEarly)
  | some stop => (piece s.bytes at' stop).map fun out => (out, stop)

/-- `Reader::byte`. -/
def byte (s : Slice T) : Cursor UInt8 := do
  let b ← take s 1
  index b 0

/-- `Reader::u32`. -/
def word (s : Slice T) : Cursor Nat := do
  let b ← take s 4
  let b₀ ← index b 0
  let b₁ ← index b 1
  let b₂ ← index b 2
  let b₃ ← index b 3
  pure (b₀.toNat + 2 ^ 8 * b₁.toNat + 2 ^ 16 * b₂.toNat + 2 ^ 24 * b₃.toNat)

/-- `Reader::string`. -/
def string (s : Slice T) : Cursor OsStr := do
  let len ← word s
  let b ← take s len
  match fromUtf8 b with
  | some text => pure text
  | none => throw (.failed (malformed "session payload has a non-UTF-8 field"))

/-- One round of the loop over the mounts. -/
def mount (s : Slice T) : Cursor (OsStr × Access) := do
  let at' ← string s
  let b ← byte s
  if b = 0 then pure (at', .readOnly)
  else if b = 1 then pure (at', .readWrite)
  else throw (.failed (malformed "session payload has an unknown access mode"))

def mounts (s : Slice T) : Nat → List (OsStr × Access) → Cursor (List (OsStr × Access))
  | 0, pushed => pure pushed
  | count + 1, pushed => do
    let m ← mount s
    mounts s count (pushed ++ [m])

def payload (s : Slice T) : Cursor Decoded := do
  let version ← word s
  if version ≠ wireVersion then
    throw (.failed (malformed "session payload has the wrong wire version"))
  else do
    let cwd ← string s
    let count ← word s
    let ms ← mounts s count []
    pure ⟨cwd, ms⟩

/-- `decode`, from the first byte on. -/
def decode (s : Slice T) : Except Stop Decoded := (payload s 0).map Prod.fst

/-! ## What it does with what is left -/

/-- A cursor that reads from an index as `r` reads what is left from there. -/
def Follows (s : Slice T) (c : Cursor α) (r : Reader UInt8 IoError α) : Prop :=
  ∀ at', at' ≤ s.bytes.length →
    (∃ a stop, at' ≤ stop ∧ stop ≤ s.bytes.length ∧ c at' = .ok (a, stop) ∧
      r (s.bytes.drop at') = .ok (a, s.bytes.drop stop)) ∨
    ∃ e, c at' = .error (.failed e) ∧ r (s.bytes.drop at') = .error e

variable {s : Slice T}

theorem follows_pure (a : α) : Follows s (pure a) (pure a) :=
  fun at' h => .inl ⟨a, at', Nat.le_refl _, h, rfl, rfl⟩

theorem follows_throw (e : IoError) : Follows s (throw (.failed e) : Cursor α) (throw e) :=
  fun _ _ => .inr ⟨e, rfl, rfl⟩

variable {c : Cursor α} {f : α → Cursor γ}

theorem bind_of_ok {at' stop : Nat} {a : α}
    (h : c at' = .ok (a, stop)) : (c >>= f) at' = f a stop := by
  change (c at' >>= fun x => f x.1 x.2) = _
  rw [h]
  rfl

theorem bind_of_error {at' : Nat} {e : Stop}
    (h : c at' = .error e) : (c >>= f) at' = .error e := by
  change (c at' >>= fun x => f x.1 x.2) = _
  rw [h]
  rfl

/-- **Sequence.** One cursor after another follows one reader after another. -/
theorem Follows.bind {r : Reader UInt8 IoError α}
    {g : α → Reader UInt8 IoError γ} (hc : Follows s c r) (hf : ∀ a, Follows s (f a) (g a)) :
    Follows s (c >>= f) (r >>= g) := by
  intro at' hat
  rcases hc at' hat with ⟨a, stop, hle, hstop, hok, hread⟩ | ⟨e, herr, hread⟩
  · rw [bind_of_ok hok, Reader.bind_of_ok hread]
    rcases hf a stop hstop with ⟨b, stop', hle', hstop', h⟩ | h
    · exact .inl ⟨b, stop', hle.trans hle', hstop', h⟩
    · exact .inr h
  · exact .inr ⟨e, bind_of_error herr, Reader.bind_of_error hread⟩

theorem take_eq (at' n : Nat) : take s n at' =
    if at' + n ≤ s.bytes.length then .ok ((s.bytes.drop at').take n, at' + n)
    else .error (.failed endedEarly) := by
  have hmax := s.length_le
  unfold take checkedAdd
  split_ifs with h₁ h₂ h₂
  · have hpiece : piece s.bytes at' (at' + n) = .ok ((s.bytes.drop at').take n) := by
      rw [piece, if_pos ⟨Nat.le_add_right _ _, h₂⟩, List.drop_take, Nat.add_sub_cancel_left]
    rw [Option.filter_some, if_pos (by simpa using h₂)]
    dsimp only
    rw [hpiece]
    rfl
  · rw [Option.filter_some, if_neg (by simpa using h₂)]
  · omega
  · rfl

theorem follows_take (n : Nat) : Follows s (take s n) (Broker.take n) := by
  intro at' hat
  rw [take_eq, Broker.take, List.length_drop]
  split_ifs with h h' h'
  · exact .inl ⟨_, _, Nat.le_add_right _ _, h, rfl, by rw [List.drop_drop]⟩
  · omega
  · omega
  · exact .inr ⟨_, rfl, rfl⟩

theorem follows_byte : Follows s (byte s) Broker.byte := by
  intro at' hat
  unfold byte
  rcases follows_take 1 at' hat with ⟨b, stop, hle, hstop, hok, hread⟩ | ⟨e, herr, hread⟩
  · obtain ⟨bs, hsplit, rfl, hlen⟩ := spells_take 1 _ _ _ hread
    obtain ⟨x, rfl⟩ : ∃ x, bs = [x] := List.length_eq_one_iff.1 hlen
    rw [bind_of_ok hok, hsplit]
    exact .inl ⟨x, stop, hle, hstop, rfl, rfl⟩
  · rw [bind_of_error herr]
    unfold Broker.take at hread
    split_ifs at hread with hn
    obtain rfl := Except.error.inj hread
    have hnil : s.bytes.drop at' = [] := List.length_eq_zero_iff.1 (by omega)
    rw [hnil]
    exact .inr ⟨_, rfl, rfl⟩

theorem follows_word : Follows s (word s) Broker.word := by
  intro at' hat
  unfold word
  rcases follows_take 4 at' hat with ⟨b, stop, hle, hstop, hok, hread⟩ | ⟨e, herr, hread⟩
  · obtain ⟨bs, hsplit, rfl, hlen⟩ := spells_take 4 _ _ _ hread
    match bs, hlen with
    | [b₀, b₁, b₂, b₃], _ =>
      rw [bind_of_ok hok, hsplit]
      exact .inl ⟨_, stop, hle, hstop, rfl, rfl⟩
  · rw [bind_of_error herr]
    unfold Broker.take at hread
    split_ifs at hread with hn
    obtain rfl := Except.error.inj hread
    refine .inr ⟨_, rfl, ?_⟩
    match s.bytes.drop at', hn with
    | [], _ => rfl
    | [_], _ => rfl
    | [_, _], _ => rfl
    | [_, _, _], _ => rfl
    | _ :: _ :: _ :: _ :: _, hn => exact absurd (by simp) hn

theorem follows_string : Follows s (string s) Broker.string := by
  refine follows_word.bind fun len => (follows_take len).bind fun b => ?_
  unfold Broker.text
  cases fromUtf8 b with
  | some text => exact follows_pure text
  | none => exact follows_throw _

theorem follows_mount : Follows s (mount s) mountOf := by
  refine follows_string.bind fun at' => follows_byte.bind fun b => ?_
  unfold accessOf
  split_ifs
  · exact follows_pure _
  · exact follows_pure _
  · exact follows_throw _

theorem follows_mounts (count : Nat) (pushed : List (OsStr × Access)) :
    Follows s (mounts s count pushed) (times count mountOf >>= fun ms => pure (pushed ++ ms)) := by
  induction count generalizing pushed with
  | zero =>
    have h : (times 0 mountOf >>= fun ms => pure (pushed ++ ms)) =
        (pure pushed : Reader UInt8 IoError (List (OsStr × Access))) := by
      simp [times]
    rw [mounts, h]
    exact follows_pure pushed
  | succ count ih =>
    have h := follows_mount (s := s).bind fun m => ih (pushed ++ [m])
    rw [mounts]
    simp only [times, bind_assoc, pure_bind]
    simpa using h

theorem follows_payload : Follows s (payload s) Broker.payload := by
  refine follows_word.bind fun version => ?_
  unfold checkVersion
  split_ifs with h
  · exact follows_throw _
  · rw [pure_bind]
    refine follows_string.bind fun cwd => follows_word.bind fun count => ?_
    have hms := follows_mounts (s := s) count []
    simp only [List.nil_append, bind_pure] at hms
    exact hms.bind fun ms => follows_pure _

/-- **The decoder by index decodes as the reader does**, and stops only with its errors. -/
theorem decode_follows (s : Slice T) : decode s =
    match Broker.decode s.bytes with
    | .ok d => .ok d
    | .error e => .error (.failed e) := by
  unfold decode Broker.decode
  rcases follows_payload 0 (Nat.zero_le _) with ⟨d, stop, -, -, hok, hread⟩ | ⟨e, herr, hread⟩
  · rw [List.drop_zero] at hread
    rw [hok, hread]
    rfl
  · rw [List.drop_zero] at hread
    rw [herr, hread]
    rfl

end Cursor

/-! ## What is accepted -/

/-- A session that the encoding can tell: texts and lists of less than `2 ^ 32` bytes or mounts. -/
structure Tellable (cwd : OsStr) (mounts : List (OsStr × Access)) : Prop where
  cwd_written : Written cwd
  points_written : ∀ m ∈ mounts, Written m.1
  count_lt : mounts.length < 2 ^ 32

theorem Tellable.reads {cwd : OsStr} {mounts : List (OsStr × Access)} (h : Tellable cwd mounts)
    (bound : Nat) : Reads bound payload (encode cwd mounts) ⟨cwd, mounts⟩ :=
  reads_payload (.inl h.cwd_written.2) (fun m hm => .inl (h.points_written m hm).2)
    h.cwd_written.1 (fun m hm => (h.points_written m hm).1) h.count_lt

/-- **The decoder inverts the encoder and accepts nothing shorter**: whatever follows an encoding
is left alone, no strict prefix of one is accepted, what is accepted starts with the encoding of
what it is decoded to, and no index is out of bounds. -/
theorem decode_exact (T : Target) :
    (∀ cwd mounts t, Tellable cwd mounts → ∀ s : Slice T, s.bytes = encode cwd mounts ++ t →
      Cursor.decode s = .ok ⟨cwd, mounts⟩) ∧
    (∀ cwd mounts, Tellable cwd mounts → ∀ s : Slice T, s.bytes <+: encode cwd mounts →
      s.bytes ≠ encode cwd mounts → ∃ e, Cursor.decode s = .error (.failed e)) ∧
    (∀ (s : Slice T) (d : Decoded), Cursor.decode s = .ok d → encode d.cwd d.mounts <+: s.bytes) ∧
    ∀ s : Slice T, Cursor.decode s ≠ .error .outOfBounds := by
  refine ⟨fun cwd mounts t h s hs => ?_, fun cwd mounts h s hpre hne => ?_, fun s d h => ?_,
    fun s h => ?_⟩
  · have hwhole := (h.reads (encode cwd mounts).length).whole (Nat.le_refl _) t
    rw [Cursor.decode_follows, hs, decode, hwhole]
    rfl
  · have hlt : s.bytes.length < (encode cwd mounts).length := by
      by_contra hlen
      exact hne (hpre.eq_of_length_le (by omega))
    obtain ⟨e, he⟩ := (h.reads s.bytes.length).short _ hpre hlt (Nat.le_refl _)
    refine ⟨e, ?_⟩
    rw [Cursor.decode_follows, decode, he]
    rfl
  · rw [Cursor.decode_follows] at h
    cases hd : decode s.bytes with
    | error e =>
      rw [hd] at h
      cases h
    | ok d' =>
      rw [hd] at h
      obtain rfl := Except.ok.inj h
      unfold decode at hd
      cases hp : payload s.bytes with
      | error e =>
        rw [hp] at hd
        cases hd
      | ok x =>
        obtain ⟨d'', rest⟩ := x
        rw [hp] at hd
        obtain rfl := Except.ok.inj hd
        obtain ⟨bs, hbs, rfl, -⟩ := spells_payload _ _ _ hp
        exact ⟨rest, hbs.symm⟩
  · rw [Cursor.decode_follows] at h
    split at h <;> cases h

def target64 : Target := ⟨2 ^ 64 - 1, by decide⟩

def trailedSlice : Slice target64 :=
  ⟨encode (os "/work") [(os "/work", .readWrite)] ++ [7], by decide⟩

theorem trailed_decodes :
    Cursor.decode trailedSlice = .ok ⟨os "/work", [(os "/work", .readWrite)]⟩ :=
  (decode_exact target64).1 _ _ _
    ⟨⟨by decide, by decide⟩, by simp [Written]; decide, by decide⟩ _ rfl

end Seahaven.Broker
