import Seahaven.Broker.Cursor
import Seahaven.Broker.Handoff

/-!
# Adopting handle values

On Windows the handles are numbers in the message itself: eight bytes for each mount, after the
payload. The child takes them to be the last bytes of what it read, wherever its decoder stopped.

1. `adopt`: which values a child takes for handles. `receive` builds its session on them.
2. `assemble_none`: a session without mounts is never built.
3. `wholeOnly_iff`: on what bytes a child adopts and accepts whole messages only.
-/

namespace Seahaven.Broker

open Reader Vfs Op

/-- A handle value, and where among the bytes it was read. -/
structure Adopted where
  «at» : Nat
  value : Nat
  deriving DecidableEq

/-- `u64::from_le_bytes`. -/
def le64 (b : List UInt8) : Nat := b.foldr (fun x n => x.toNat + 2 ^ 8 * n) 0

/-- The loop over the chunks of eight bytes: what it adopts before it is through or stops. -/
def adoptLoop : Nat → List UInt8 → List Adopted × Except IoError Unit
  | start, b₀ :: b₁ :: b₂ :: b₃ :: b₄ :: b₅ :: b₆ :: b₇ :: rest =>
    let value := le64 [b₀, b₁, b₂, b₃, b₄, b₅, b₆, b₇]
    if value = 0 then ([], .error (malformed "session payload carries a null handle"))
    else
      let (handles, result) := adoptLoop (start + 8) rest
      (⟨start, value⟩ :: handles, result)
  | _, _ => ([], .ok ())

/-- What `receive` adopts of the bytes it read, and what it then goes on with. -/
def adopt (bytes : List UInt8) : List Adopted × Except IoError Decoded :=
  match decode bytes with
  | .error e => ([], .error e)
  | .ok decoded =>
    let count := decoded.mounts.length
    if bytes.length < count * 8 then
      ([], .error (malformed "session payload is missing its handle values"))
    else
      let tail := bytes.length - count * 8
      let (handles, result) := adoptLoop tail (bytes.drop tail)
      (handles, result.map fun _ => decoded)

variable [Unicode]

/-- `assemble` on handles by value. What a value names is up to the operating system. -/
abbrev Naming := Decoded → List Adopted → Op Host IoError Session

def receiveBytes (naming : Naming) (bytes : List UInt8) : Op Host IoError Session :=
  match adopt bytes with
  | (_, .error e) => .check (.error e)
  | ([], .ok decoded) => assemble decoded ⟨[], by simp, .nil⟩
  | (h :: hs, .ok decoded) => naming decoded (h :: hs)

/-! ## Without mounts -/

variable {bytes : List UInt8} {d : Decoded}

omit [Unicode] in
theorem decode_eq_ok : decode bytes = .ok d ↔
    ∃ rest, payload bytes = .ok (d, rest) := by
  unfold decode
  rw [except_map_eq_ok]
  constructor
  · rintro ⟨⟨d', rest⟩, h, rfl⟩
    exact ⟨rest, h⟩
  · rintro ⟨rest, h⟩
    exact ⟨_, h, rfl⟩

theorem at_of_unmounted {v : Vfs} (hv : v.table.mounts = []) (path : VirtualPath) (follow : Bool)
    (op : Located → Op Host IoError α) : v.at path follow op = .check (.error (notFound path)) := by
  have hexact : v.locateExact path = .error (notFound path) := by
    refine Vfs.locateExact_eq_error.2 ⟨MountTable.resolve_eq_none.2 ?_, rfl⟩
    rw [hv]
    simp
  unfold Vfs.at
  rw [hexact]
  rfl

theorem setCwd_of_unmounted {s : Session} (hs : s.vfs.table.mounts = []) (path : OsStr) (h : Host) :
    ∃ e, (s.setCwd path h).1 = .error e := by
  unfold Session.setCwd
  cases hr : s.resolve path with
  | error e => exact ⟨_, rfl⟩
  | ok target =>
    have hfacts : s.vfs.facts target true h = (.ok none, h) := by
      unfold Vfs.facts Vfs.orNone
      rw [at_of_unmounted hs]
      rfl
    simp only [Except.mapError, check_ok_bind]
    rw [bind_ok hfacts]
    exact ⟨_, rfl⟩

/-- **A session without mounts is never built.** -/
theorem assemble_none (decoded : Decoded) (h : Host) {l : Lent} (hl : l.handles = []) :
    ∃ e, (assemble decoded l h).1 = .error e := by
  have hcase : (∃ e, assemble decoded l = .check (.error e)) ∨
      ∃ v : Vfs, v.table.mounts = [] ∧ assemble decoded l = (Session.new v).setCwd decoded.cwd := by
    unfold assemble
    split_ifs with hlen
    · exact .inl ⟨_, rfl⟩
    split
    · exact .inl ⟨_, rfl⟩
    · rename_i table htable
      have hperm := MountTable.dirs_fromChildHandles htable
      rw [hl, List.zip_nil_right] at hperm
      exact .inr ⟨_, List.map_eq_nil_iff.1 hperm.eq_nil, rfl⟩
  rcases hcase with ⟨e, he⟩ | ⟨v, hv, he⟩
  · exact ⟨e, by rw [he]; rfl⟩
  · rw [he]
    exact setCwd_of_unmounted hv _ h

/-! ## Whole messages -/

def Whole (bytes : List UInt8) : Prop :=
  ∃ cwd mounts values, Tellable cwd mounts ∧ bytes = encode cwd mounts ++ values ∧
    values.length = mounts.length * 8

/-- Only whole messages are adopted and accepted, and no handle is read from what was decoded. -/
structure WholeOnly (naming : Naming) (bytes : List UInt8) (h : Host) : Prop where
  adopts : (adopt bytes).1 ≠ [] → Whole bytes
  rejects : ¬ Whole bytes → ∃ e, (receiveBytes naming bytes h).1 = .error e
  disjoint : ∀ x ∈ (adopt bytes).1, ∀ d rest, payload bytes = .ok (d, rest) →
    bytes.length - rest.length ≤ x.at

/-- A payload of some mounts whose handle values are cut short or followed by more, in a message
that is long enough for them, and whose bytes where the first is looked for are not all zero. -/
def Torn (bytes : List UInt8) : Prop :=
  ∃ cwd mounts t, Tellable cwd mounts ∧ bytes = encode cwd mounts ++ t ∧ mounts ≠ [] ∧
    t.length ≠ mounts.length * 8 ∧ mounts.length * 8 ≤ bytes.length ∧
    ∃ b ∈ (bytes.drop (bytes.length - mounts.length * 8)).take 8, b ≠ 0

omit [Unicode]

theorem payload_encode {cwd : OsStr} {mounts : List (OsStr × Access)} (h : Tellable cwd mounts)
    (t : List UInt8) : payload (encode cwd mounts ++ t) = .ok (⟨cwd, mounts⟩, t) :=
  (h.reads _).whole (Nat.le_refl _) t

variable {rest : List UInt8}

theorem tellable_of_payload (h : payload bytes = .ok (d, rest)) :
    Tellable d.cwd d.mounts ∧ bytes = encode d.cwd d.mounts ++ rest := by
  obtain ⟨bs, rfl, rfl, hcwd, hcount, hmounts⟩ := spells_payload _ _ _ h
  exact ⟨⟨hcwd, hmounts, hcount⟩, rfl⟩

theorem le64_eq_zero {b : List UInt8} : le64 b = 0 ↔ ∀ x ∈ b, x = 0 := by
  induction b with
  | nil => simp [le64]
  | cons x b ih =>
    have hcons : le64 (x :: b) = x.toNat + 2 ^ 8 * le64 b := rfl
    have hx : x.toNat = 0 ↔ x = 0 := by
      rw [← UInt8.toNat_inj]
      rfl
    rw [hcons, List.forall_mem_cons, ← ih, ← hx]
    omega

theorem at_of_adoptLoop {start : Nat} {b : List UInt8} {x : Adopted}
    (hx : x ∈ (adoptLoop start b).1) : start ≤ x.at := by
  fun_induction adoptLoop start b with
  | case1 => simp at hx
  | case2 start b₀ b₁ b₂ b₃ b₄ b₅ b₆ b₇ rest value hvalue handles result hloop ih =>
    rcases List.mem_cons.1 hx with rfl | hx
    · exact Nat.le_refl _
    · have := ih (by rw [hloop]; exact hx)
      omega
  | case3 => simp at hx

theorem adoptLoop_first {start : Nat} {b : List UInt8} (hb : 8 ≤ b.length) :
    (adoptLoop start b).1 ≠ [] ∧ (∃ x ∈ b.take 8, x ≠ 0) ∨
      (adoptLoop start b).1 = [] ∧ (∀ x ∈ b.take 8, x = 0) ∧
        ∃ e, (adoptLoop start b).2 = .error e := by
  match b, hb with
  | b₀ :: b₁ :: b₂ :: b₃ :: b₄ :: b₅ :: b₆ :: b₇ :: rest, _ =>
    have htake : (b₀ :: b₁ :: b₂ :: b₃ :: b₄ :: b₅ :: b₆ :: b₇ :: rest).take 8 =
        [b₀, b₁, b₂, b₃, b₄, b₅, b₆, b₇] := rfl
    unfold adoptLoop
    dsimp only
    rw [htake]
    split_ifs with h
    · exact .inr ⟨rfl, le64_eq_zero.1 h, _, rfl⟩
    · refine .inl ⟨by simp, ?_⟩
      rw [le64_eq_zero] at h
      push Not at h
      exact h

theorem whole_iff (h : payload bytes = .ok (d, rest)) :
    Whole bytes ↔ rest.length = d.mounts.length * 8 := by
  constructor
  · rintro ⟨cwd, mounts, values, htell, rfl, hlen⟩
    rw [payload_encode htell] at h
    obtain ⟨rfl, rfl⟩ := Prod.mk.inj (Except.ok.inj h)
    exact hlen
  · intro hlen
    obtain ⟨htell, hbytes⟩ := tellable_of_payload h
    exact ⟨d.cwd, d.mounts, rest, htell, hbytes, hlen⟩

theorem torn_iff (h : payload bytes = .ok (d, rest)) :
    Torn bytes ↔ d.mounts ≠ [] ∧ rest.length ≠ d.mounts.length * 8 ∧
      d.mounts.length * 8 ≤ bytes.length ∧
      ∃ b ∈ (bytes.drop (bytes.length - d.mounts.length * 8)).take 8, b ≠ 0 := by
  constructor
  · rintro ⟨cwd, mounts, t, htell, hbytes, htorn⟩
    rw [hbytes, payload_encode htell] at h
    obtain ⟨rfl, rfl⟩ := Prod.mk.inj (Except.ok.inj h)
    exact htorn
  · intro htorn
    obtain ⟨htell, hbytes⟩ := tellable_of_payload h
    exact ⟨d.cwd, d.mounts, rest, htell, hbytes, htorn⟩

theorem adopt_of_payload (h : payload bytes = .ok (d, rest)) : adopt bytes =
      if bytes.length < d.mounts.length * 8 then
        ([], .error (malformed "session payload is missing its handle values"))
      else
        ((adoptLoop (bytes.length - d.mounts.length * 8)
            (bytes.drop (bytes.length - d.mounts.length * 8))).1,
          (adoptLoop (bytes.length - d.mounts.length * 8)
            (bytes.drop (bytes.length - d.mounts.length * 8))).2.map fun _ => d) := by
  unfold adopt
  rw [decode_eq_ok.2 ⟨rest, h⟩]

variable [Unicode]

theorem receiveBytes_of_none {naming : Naming} (h : Host)
    (ha : (adopt bytes).1 = []) : ∃ e, (receiveBytes naming bytes h).1 = .error e := by
  unfold receiveBytes
  cases hadopt : adopt bytes with
  | mk handles result =>
    rw [hadopt] at ha
    obtain rfl : handles = [] := ha
    cases result with
    | error e => exact ⟨e, rfl⟩
    | ok decoded => exact assemble_none decoded h rfl

/-- **Whole messages only.** The child adopts and accepts nothing else if and only if the message
is not torn. -/
theorem wholeOnly_iff (naming : Naming) (bytes : List UInt8) (h : Host) :
    WholeOnly naming bytes h ↔ ¬ Torn bytes := by
  cases hp : payload bytes with
  | error e =>
    have hadopt : adopt bytes = ([], .error e) := by
      unfold adopt decode
      rw [hp]
      rfl
    have hnone : (adopt bytes).1 = [] := by rw [hadopt]
    refine iff_of_true ⟨fun hne => absurd hnone hne, fun _ => receiveBytes_of_none h hnone, ?_⟩ ?_
    · rw [hnone]
      simp
    · rintro ⟨cwd, mounts, t, htell, rfl, -⟩
      rw [payload_encode htell] at hp
      cases hp
  | ok x =>
    obtain ⟨d, rest⟩ := x
    obtain ⟨-, hbytes⟩ := tellable_of_payload hp
    have hlen : bytes.length = (encode d.cwd d.mounts).length + rest.length := by
      rw [← List.length_append, ← hbytes]
    by_cases hwhole : Whole bytes
    · -- the values are looked for where they are
      have hrest := (whole_iff hp).1 hwhole
      refine iff_of_true ⟨fun _ => hwhole, fun hno => absurd hwhole hno, ?_⟩ ?_
      · intro y hy d' rest' hp'
        rw [hp] at hp'
        obtain ⟨rfl, rfl⟩ := Prod.mk.inj (Except.ok.inj hp')
        rw [adopt_of_payload hp] at hy
        split_ifs at hy with hshort
        · simp at hy
        · have := at_of_adoptLoop hy
          omega
      · rw [torn_iff hp]
        rintro ⟨-, hne, -⟩
        exact hne hrest
    · have hrest := mt (whole_iff hp).2 hwhole
      have hnone_iff : (adopt bytes).1 = [] ↔ ¬ Torn bytes := by
        rw [torn_iff hp, adopt_of_payload hp]
        split_ifs with hshort
        · refine iff_of_true rfl ?_
          rintro ⟨-, -, hle, -⟩
          omega
        by_cases hmounts : d.mounts = []
        · refine iff_of_true ?_ fun htorn => htorn.1 hmounts
          rw [hmounts, List.length_nil, Nat.zero_mul, Nat.sub_zero, List.drop_length]
          rfl
        have hpos := List.length_pos_iff.2 hmounts
        rcases @adoptLoop_first (bytes.length - d.mounts.length * 8)
          (bytes.drop (bytes.length - d.mounts.length * 8))
          (by rw [List.length_drop]; omega) with ⟨hne, hsome⟩ | ⟨hnil, hzero, -⟩
        · exact iff_of_false hne fun h => h ⟨hmounts, hrest, by omega, hsome⟩
        · refine iff_of_true hnil ?_
          rintro ⟨-, -, -, b, hb, hb'⟩
          exact hb' (hzero b hb)
      constructor
      · intro honly
        rw [← hnone_iff]
        by_contra hne
        exact hwhole (honly.adopts hne)
      · intro htorn
        have hnone := hnone_iff.2 htorn
        refine ⟨fun hne => absurd hnone hne, fun _ => receiveBytes_of_none h hnone, ?_⟩
        rw [hnone]
        simp

end Seahaven.Broker

namespace Seahaven.Broker

open Vfs

section Fixture

attribute [local instance] composed

def cutMessage : List UInt8 := encode (os "/work") [(os "/work", .readWrite)] ++ [0x54, 0, 0, 0]

/-- **Cut in the middle of a handle value.** The end of the payload is adopted with its
beginning. -/
theorem cut_not_wholeOnly :
    ¬ WholeOnly (fun _ _ => .check (.error endedEarly)) cutMessage (.ofTrees []) := by
  intro honly
  have htell : Tellable (os "/work") [(os "/work", .readWrite)] :=
    ⟨⟨by decide, by decide⟩, by simp [Written]; decide, by decide⟩
  have hwhole : Whole cutMessage := honly.adopts (by decide +kernel)
  have hlen := (whole_iff (payload_encode htell [0x54, 0, 0, 0])).1 hwhole
  exact absurd hlen (by decide)

end Fixture

end Seahaven.Broker
