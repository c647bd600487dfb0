import Mathlib.Data.List.Sort
import Seahaven.Lib.Frontier
import Seahaven.Text

/-!
# The trust store

Consent is recorded as sets of mounts, each at the tier it was given for, and a request is
accepted when one record covers it in both. Records form a preorder (mount subset under the
access order, and the tier order), and the store is the frontier of the stream of `record` calls:
a covered set is skipped and the records it covers are dropped.
-/

namespace Seahaven.Trust

/-- One mount, as consent records it. -/
structure GrantedMount where
  /-- Where it appears in the namespace. -/
  «at» : OsStr
  /-- The host directory behind it. -/
  host : PathBuf
  /-- Whether it is writable. -/
  writable : Bool
  deriving DecidableEq

namespace GrantedMount

def cmp (a b : GrantedMount) : Ordering :=
  (compare a.at.bytes b.at.bytes).then
    ((compare (a.host.map OsStr.bytes) (b.host.map OsStr.bytes)).then
      (compare a.writable b.writable))

end GrantedMount

/-- `Vec::dedup` after an element that is kept. -/
def dedupFrom (a : GrantedMount) : List GrantedMount → List GrantedMount
  | [] => [a]
  | b :: l => if a = b then dedupFrom a l else a :: dedupFrom b l

/-- `Vec::dedup`: of equal neighbours the first stays. -/
def dedup : List GrantedMount → List GrantedMount
  | [] => []
  | a :: l => dedupFrom a l

/-- A set of mounts, as consent records it. -/
structure GrantedSet where
  mounts : List GrantedMount
  deriving DecidableEq

namespace GrantedSet

def new (mounts : List GrantedMount) : GrantedSet :=
  ⟨dedup (mounts.insertionSort fun a b => (a.cmp b).isLE = true)⟩

/-- Whether the grant `granted` answers for the mount `wanted`. -/
def answers (granted wanted : GrantedMount) : Bool :=
  granted.at = wanted.at && granted.host = wanted.host && (granted.writable || !wanted.writable)

/-- Whether everything here was already granted by `other`. -/
def isSubsetOf (s other : GrantedSet) : Bool :=
  s.mounts.all fun wanted => other.mounts.any fun granted => answers granted wanted

/-- What this set asks for beyond `other`. -/
def beyond (s other : GrantedSet) : List GrantedMount :=
  s.mounts.filter fun wanted => !(new [wanted]).isSubsetOf other

end GrantedSet

/-- What to do about a request. -/
inductive Decision
  /-- Already granted, or a narrowing of something already granted. -/
  | accept
  /-- Asks for more than anything on record. The mounts listed are the excess. -/
  | ask (excess : List GrantedMount)
  deriving DecidableEq

/-- Which execution tier a grant is consent for. -/
inductive Tier
  | wasm
  | native
  deriving DecidableEq

/-- Whether consent at this tier covers a request at `other`. -/
def Tier.covers : Tier → Tier → Bool
  | .native, _ => true
  | .wasm, .wasm => true
  | .wasm, .native => false

/-- A granted set together with the tier it was consented for. -/
structure GrantedRecord where
  set : GrantedSet
  tier : Tier
  deriving DecidableEq

/-- Everything the user has consented to on this machine. -/
structure TrustStore where
  granted : List GrantedRecord

namespace TrustStore

/-- `TrustStore::default()`. -/
def empty : TrustStore := ⟨[]⟩

/-- Whether a stored record covers `set` at `tier`. -/
def covered (store : TrustStore) (set : GrantedSet) (tier : Tier) : Bool :=
  store.granted.any fun g => g.tier.covers tier && set.isSubsetOf g.set

/-- Whether `request` at `tier` is covered by something already granted, and what is new in it
against the closest record of a covering tier otherwise. -/
def decide (store : TrustStore) (request : GrantedSet) (tier : Tier) : Decision :=
  if store.covered request tier then
    .accept
  else
    let closest := (store.granted.filter fun g => g.tier.covers tier).minOn?
      fun g => (request.beyond g.set).length
    .ask (closest.elim request.mounts fun g => request.beyond g.set)

/-- Records a set as granted at `tier`. -/
def record (store : TrustStore) (set : GrantedSet) (tier : Tier) : TrustStore :=
  if store.covered set tier then
    store
  else
    ⟨(store.granted.filter fun g => !(tier.covers g.tier && g.set.isSubsetOf set)) ++ [⟨set, tier⟩]⟩

/-- A sequence of `record` calls. -/
def recordAll (store : TrustStore) (calls : List GrantedRecord) : TrustStore :=
  calls.foldl (fun store call => store.record call.set call.tier) store

end TrustStore

/-! ## The orders -/

theorem Tier.covers_refl (t : Tier) : t.covers t = true := by cases t <;> rfl

theorem Tier.covers_trans {a b c : Tier} (hab : a.covers b = true) (hbc : b.covers c = true) :
    a.covers c = true := by
  cases a with
  | native => rfl
  | wasm =>
    cases b with
    | native => cases hab
    | wasm => exact hbc

namespace GrantedSet

theorem answers_iff {granted wanted : GrantedMount} : answers granted wanted = true ↔
    granted.at = wanted.at ∧ granted.host = wanted.host ∧
      (wanted.writable = true → granted.writable = true) := by
  cases hw : wanted.writable <;> simp [answers, hw, and_assoc]

theorem answers_refl (m : GrantedMount) : answers m m = true := answers_iff.2 ⟨rfl, rfl, id⟩

theorem answers_trans {a b c : GrantedMount} (hab : answers a b = true)
    (hbc : answers b c = true) : answers a c = true := by
  obtain ⟨hat, hhost, hw⟩ := answers_iff.1 hab
  obtain ⟨hat', hhost', hw'⟩ := answers_iff.1 hbc
  exact answers_iff.2 ⟨hat.trans hat', hhost.trans hhost', hw ∘ hw'⟩

variable {s other : GrantedSet}

theorem isSubsetOf_iff : s.isSubsetOf other = true ↔
    ∀ wanted ∈ s.mounts, ∃ granted ∈ other.mounts, answers granted wanted = true := by
  simp only [isSubsetOf, List.all_eq_true, List.any_eq_true]

theorem isSubsetOf_refl (s : GrantedSet) : s.isSubsetOf s = true :=
  isSubsetOf_iff.2 fun m hm => ⟨m, hm, answers_refl m⟩

theorem isSubsetOf_trans {a b c : GrantedSet} (hab : a.isSubsetOf b = true)
    (hbc : b.isSubsetOf c = true) : a.isSubsetOf c = true := by
  rw [isSubsetOf_iff] at hab hbc ⊢
  intro wanted hwanted
  obtain ⟨m, hm, hmw⟩ := hab wanted hwanted
  obtain ⟨granted, hg, hgm⟩ := hbc m hm
  exact ⟨granted, hg, answers_trans hgm hmw⟩

variable {l : List GrantedMount} {m : GrantedMount}

theorem mem_dedupFrom {a : GrantedMount} :
    m ∈ dedupFrom a l ↔ m ∈ a :: l := by
  induction l generalizing a with
  | nil => rfl
  | cons b l ih =>
    unfold dedupFrom
    split_ifs with h
    · rw [ih, h]
      simp
    · rw [List.mem_cons, ih, List.mem_cons (b := a)]

theorem mem_dedup : m ∈ dedup l ↔ m ∈ l := by
  cases l with
  | nil => rfl
  | cons a l => exact mem_dedupFrom

theorem mem_new : m ∈ (new l).mounts ↔ m ∈ l := by
  rw [new, mem_dedup, List.mem_insertionSort]

theorem new_singleton (m : GrantedMount) : new [m] = ⟨[m]⟩ := by
  simp [new, dedup, dedupFrom]

theorem mem_beyond : m ∈ s.beyond other ↔
    m ∈ s.mounts ∧ ¬ ∃ granted ∈ other.mounts, answers granted m = true := by
  simp [beyond, new_singleton, isSubsetOf]

theorem beyond_eq_nil_iff : s.beyond other = [] ↔ s.isSubsetOf other = true := by
  rw [List.eq_nil_iff_forall_not_mem, isSubsetOf_iff]
  refine forall_congr' fun m => ?_
  rw [mem_beyond, not_and, not_not]

end GrantedSet

/-- The order of records: fewer mounts, less access, a tier that needs less trust. -/
instance : Preorder GrantedRecord where
  le r s := s.tier.covers r.tier = true ∧ r.set.isSubsetOf s.set = true
  le_refl r := ⟨r.tier.covers_refl, r.set.isSubsetOf_refl⟩
  le_trans _ _ _ h h' :=
    ⟨Tier.covers_trans h'.1 h.1, GrantedSet.isSubsetOf_trans h.2 h'.2⟩

theorem GrantedRecord.le_def {r s : GrantedRecord} :
    r ≤ s ↔ s.tier.covers r.tier = true ∧ r.set.isSubsetOf s.set = true := Iff.rfl

instance : DecidableLE GrantedRecord := fun _ _ => decidable_of_iff _ GrantedRecord.le_def.symm

/-! ## The store is a frontier -/

namespace TrustStore

variable {store : TrustStore} {tier : Tier}

theorem covered_iff {set : GrantedSet} :
    store.covered set tier = true ↔ Frontier.Below store.granted ⟨set, tier⟩ := by
  simp [covered, Frontier.Below, GrantedRecord.le_def]

theorem record_granted (store : TrustStore) (set : GrantedSet) (tier : Tier) :
    (store.record set tier).granted = Frontier.insert store.granted ⟨set, tier⟩ := by
  unfold record Frontier.insert
  by_cases h : store.covered set tier = true
  · rw [if_pos h, if_pos (covered_iff.1 h)]
  · rw [if_neg h, if_neg (covered_iff.not.1 h)]
    refine congrArg (· ++ [_]) (List.filter_congr fun g _ => ?_)
    simp [GrantedRecord.le_def]

theorem recordAll_granted (store : TrustStore) (calls : List GrantedRecord) :
    (store.recordAll calls).granted = calls.foldl Frontier.insert store.granted := by
  induction calls generalizing store with
  | nil => rfl
  | cons call calls ih =>
    rw [List.foldl_cons, ← record_granted]
    exact ih _

theorem decide_eq_accept_iff {request : GrantedSet} :
    store.decide request tier = .accept ↔ store.covered request tier = true := by
  unfold decide
  split_ifs with h <;> simp [h]

theorem ask_sound {request : GrantedSet}
    {excess : List GrantedMount} (h : store.decide request tier = .ask excess) :
    (∀ m ∈ excess, m ∈ request.mounts) ∧ (excess = [] → request.mounts = []) := by
  unfold decide at h
  split_ifs at h with hcov
  injection h with h
  cases hc : (store.granted.filter fun g => g.tier.covers tier).minOn?
      fun g => (request.beyond g.set).length with
  | none =>
    obtain rfl : request.mounts = excess := by rw [← h, hc, Option.elim_none]
    exact ⟨fun _ hm => hm, id⟩
  | some g =>
    rw [hc] at h
    have hg : g ∈ store.granted.filter fun g => g.tier.covers tier := List.minOn?_mem hc
    refine ⟨fun m hm => (GrantedSet.mem_beyond.1 (h ▸ hm)).1, fun he => ?_⟩
    -- a covering record of the whole request would have been an acceptance
    have hsub := GrantedSet.beyond_eq_nil_iff.1 (h.trans he)
    exact absurd (List.any_eq_true.2 ⟨g, (List.mem_filter.1 hg).1, by
      simp [hsub, (List.mem_filter.1 hg).2]⟩) hcov

/-- **Consent over a history of calls.** After any calls from the empty store a request is accepted
exactly when some call recorded a superset of it at a covering tier, what is asked for otherwise is
part of the request and empty only with it, each call extends what is accepted by what it
recorded and by nothing else, and no stored record is covered by another. -/
theorem decide_recordAll (calls : List GrantedRecord) (request : GrantedSet) (tier : Tier) :
    let store := empty.recordAll calls
    (store.decide request tier = .accept ↔
      ∃ call ∈ calls, call.tier.covers tier = true ∧ request.isSubsetOf call.set = true) ∧
    (∀ excess, store.decide request tier = .ask excess →
      (∀ m ∈ excess, m ∈ request.mounts) ∧ (excess = [] → request.mounts = [])) ∧
    (∀ set t, (store.record set t).decide request tier = .accept ↔
      store.decide request tier = .accept ∨
        (t.covers tier = true ∧ request.isSubsetOf set = true)) ∧
    store.granted.Pairwise fun g g' =>
      ¬ (g'.tier.covers g.tier = true ∧ g.set.isSubsetOf g'.set = true) ∧
      ¬ (g.tier.covers g'.tier = true ∧ g'.set.isSubsetOf g.set = true) := by
  intro store
  have hstore : store.granted = Frontier.ofStream calls := recordAll_granted empty calls
  refine ⟨?_, fun _ => ask_sound, fun set t => ?_, ?_⟩
  · rw [decide_eq_accept_iff, covered_iff, hstore, Frontier.below_ofStream]
    rfl
  · rw [decide_eq_accept_iff, decide_eq_accept_iff, covered_iff, covered_iff, record_granted,
      Frontier.below_insert]
    rfl
  · rw [hstore]
    exact Frontier.isAntichain_ofStream calls

end TrustStore

end Seahaven.Trust
