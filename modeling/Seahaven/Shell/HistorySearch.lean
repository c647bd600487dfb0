import Seahaven.Shell.History
import Mathlib

/-!
# The history as a store

The numbers of the items stand in a list, their contents in a map. A search goes over the list by an
index, forward or backward, and looks the items up.

1. `Search`: the iterator. `collect_eq`: it answers the items that a query includes, up to its limit.
2. `Step`: the operations of a history with its flushes; `Keyed` holds after any of them.
3. `savedIds`: what flushes of unsaved items write; `count_savedIds`: each item once.
4. `behaves_iff`: when a history is a consistent store, and what a query finds in it.
-/

namespace Seahaven.Shell.History

variable {T : Type}

/-! ## Queries -/

inductive Direction
  /-- From the oldest item. -/
  | forward
  /-- From the youngest item. -/
  | backward
  deriving DecidableEq

inductive CommandLineFilter
  | startsWith (s : List Char)
  | endsWith (s : List Char)
  | contains (s : List Char)
  | equals (s : List Char)

structure Query (T : Type) where
  direction : Direction
  notAtOrBeforeTime : Option T
  notAtOrAfterTime : Option T
  notAtOrBeforeId : Option ItemId
  notAtOrAfterId : Option ItemId
  maxItems : Option Int64
  commandLineFilter : Option CommandLineFilter

def CommandLineFilter.accepts (commandLine : List Char) : CommandLineFilter → Bool
  | .startsWith s => s.isPrefixOf commandLine
  | .endsWith s => s.isSuffixOf commandLine
  | .contains s => decide (s <:+: commandLine)
  | .equals s => commandLine = s

/-- Whether a query includes an item. -/
def Query.includes [LE T] [DecidableLE T] (q : Query T) (item : HistoryItem T) : Bool :=
  !(q.notAtOrBeforeTime.any fun t => item.timestamp.any fun ts => ts ≤ t) &&
    !(q.notAtOrAfterTime.any fun t => item.timestamp.any fun ts => t ≤ ts) &&
    !(q.notAtOrBeforeId.any fun id => item.id ≤ id) &&
    !(q.notAtOrAfterId.any fun id => id ≤ item.id) &&
    q.commandLineFilter.all fun f => f.accepts item.commandLine

/-! ## Searching -/

structure Search (T : Type) where
  query : Query T
  /-- The next index in `items`. -/
  nextIndex : Option ℕ
  /-- How many items were returned so far. -/
  count : ℕ

variable {item : HistoryItem T}

namespace Search

def new (h : History T) (query : Query T) : Search T where
  query := query
  nextIndex :=
    match query.direction with
    | .forward => some 0
    | .backward => if h.items = [] then none else some (h.items.length - 1)
  count := 0

def incrementNextIndex (s : Search T) : Search T :=
  { s with
    nextIndex := s.nextIndex.bind fun index =>
      match s.query.direction with
      | .forward => some (index + 1)
      | .backward => if index = 0 then none else some (index - 1) }

/-- The numbers that are still to be looked up. -/
def ahead (h : History T) (s : Search T) : List ItemId :=
  match s.nextIndex with
  | none => []
  | some index =>
    match s.query.direction with
    | .forward => h.items.drop index
    | .backward => if index < h.items.length then (h.items.take (index + 1)).reverse else []

variable {s : Search T}

theorem ahead_increment {h : History T} {index : ℕ}
    (hindex : s.nextIndex = some index) (hlt : index < h.items.length) :
    s.ahead h = h.items[index] :: s.incrementNextIndex.ahead h := by
  unfold ahead incrementNextIndex
  rw [hindex]
  dsimp only [Option.bind_some]
  cases s.query.direction with
  | forward => exact List.drop_eq_getElem_cons hlt
  | backward =>
    dsimp only
    rw [if_pos hlt, List.take_add_one, List.getElem?_eq_getElem hlt]
    cases index with
    | zero => rfl
    | succ index =>
      rw [if_neg (Nat.succ_ne_zero _)]
      dsimp only
      rw [Nat.add_sub_cancel, if_pos (Nat.lt_of_succ_lt hlt), List.reverse_append]
      rfl

theorem ahead_beyond {h : History T} {index : ℕ}
    (hindex : s.nextIndex = some index) (hlt : ¬index < h.items.length) : s.ahead h = [] := by
  unfold ahead
  rw [hindex]
  dsimp only
  cases s.query.direction with
  | forward => exact List.drop_eq_nil_of_le (Nat.le_of_not_lt hlt)
  | backward => exact if_neg hlt

/-- A limit as it is compared: `as usize`. -/
def asUsize (n : Int64) : ℕ := n.toBitVec.toNat

theorem asUsize_eq {n : Int64} (h : 0 ≤ n.toInt) : asUsize n = n.toInt.toNat := by
  have hcond : n.toInt = if 2 * n.toBitVec.toNat < 2 ^ 64 then (n.toBitVec.toNat : ℤ)
      else n.toBitVec.toNat - ((2 ^ 64 : ℕ) : ℤ) := BitVec.toInt_eq_toNat_cond _
  have hlt := n.toBitVec.isLt
  unfold asUsize
  split_ifs at hcond <;> omega

theorem asUsize_pos {n : Int64} (h : n.toInt < 0) : 0 < asUsize n := by
  have hcond : n.toInt = if 2 * n.toBitVec.toNat < 2 ^ 64 then (n.toBitVec.toNat : ℤ)
      else n.toBitVec.toNat - ((2 ^ 64 : ℕ) : ℤ) := BitVec.toInt_eq_toNat_cond _
  unfold asUsize
  split_ifs at hcond <;> omega

variable [LE T] [DecidableLE T]

/-- `Iterator::next`. -/
def next (h : History T) (s : Search T) : Option (HistoryItem T × Search T) :=
  match hindex : s.nextIndex with
  | none => none
  | some index =>
    if hlt : index < h.items.length then
      match h.idMap h.items[index] with
      | none => next h s.incrementNextIndex
      | some item =>
        if s.query.maxItems.any fun m => asUsize m ≤ s.count then none
        else if s.query.includes item then
          some (item, { s.incrementNextIndex with count := s.count + 1 })
        else next h s.incrementNextIndex
    else none
  termination_by (s.ahead h).length
  decreasing_by
    all_goals
      rw [ahead_increment hindex hlt, List.length_cons]
      exact Nat.lt_succ_self _

theorem next_nil {h : History T} (hahead : s.ahead h = []) : s.next h = none := by
  rw [next]
  split
  · rfl
  · rename_i index hindex
    rw [dif_neg]
    intro hlt
    rw [ahead_increment hindex hlt] at hahead
    cases hahead

theorem next_cons {h : History T} {id : ItemId} {ids : List ItemId}
    (hahead : s.ahead h = id :: ids) : s.incrementNextIndex.ahead h = ids ∧ s.next h =
      match h.idMap id with
      | none => s.incrementNextIndex.next h
      | some item =>
        if s.query.maxItems.any fun m => asUsize m ≤ s.count then none
        else if s.query.includes item then
          some (item, { s.incrementNextIndex with count := s.count + 1 })
        else s.incrementNextIndex.next h := by
  cases hindex : s.nextIndex with
  | none =>
    unfold ahead at hahead
    rw [hindex] at hahead
    cases hahead
  | some index =>
    by_cases hlt : index < h.items.length
    · rw [ahead_increment hindex hlt] at hahead
      obtain ⟨rfl, rfl⟩ := List.cons.inj hahead
      refine ⟨rfl, ?_⟩
      conv_lhs => rw [next]
      split
      · rename_i hnone
        cases hindex.symm.trans hnone
      · rename_i index' hindex'
        cases hindex.symm.trans hindex'
        rw [dif_pos hlt]
    · rw [ahead_beyond hindex hlt] at hahead
      cases hahead

variable {s' : Search T}

theorem next_lt {h : History T}
    (hnext : s.next h = some (item, s')) : (s'.ahead h).length < (s.ahead h).length := by
  induction hids : s.ahead h generalizing s with
  | nil =>
    rw [next_nil hids] at hnext
    cases hnext
  | cons id ids ih =>
    obtain ⟨hahead, hcons⟩ := next_cons hids
    rw [hcons] at hnext
    have hskip : s.incrementNextIndex.next h = some (item, s') →
        (s'.ahead h).length < (id :: ids).length := fun h' =>
      (ih h' hahead).trans (Nat.lt_succ_self _)
    split at hnext
    · exact hskip hnext
    · split_ifs at hnext
      · cases hnext
        show (s.incrementNextIndex.ahead h).length < _
        rw [hahead]
        exact Nat.lt_succ_self _
      · exact hskip hnext

/-- All items that a search answers. -/
def collect (h : History T) (s : Search T) : List (HistoryItem T) :=
  match _hnext : s.next h with
  | none => []
  | some (item, s') => item :: collect h s'
  termination_by (s.ahead h).length
  decreasing_by exact next_lt _hnext

theorem collect_none {h : History T} (hnext : s.next h = none) :
    s.collect h = [] := by
  rw [collect]
  split
  · rfl
  · rename_i h'
    cases hnext.symm.trans h'

theorem collect_some {h : History T}
    (hnext : s.next h = some (item, s')) : s.collect h = item :: s'.collect h := by
  rw [collect]
  split
  · rename_i h'
    cases hnext.symm.trans h'
  · rename_i h'
    cases hnext.symm.trans h'
    rfl

theorem collect_congr {h : History T} (hnext : s.next h = s'.next h) :
    s.collect h = s'.collect h := by
  cases h' : s'.next h with
  | none => rw [collect_none h', collect_none (hnext.trans h')]
  | some r => rw [collect_some h', collect_some (hnext.trans h')]

def limited (limit : Option ℕ) {α : Type*} (found : List α) : List α :=
  match limit with
  | none => found
  | some n => found.take n

theorem collect_eq (h : History T) (s : Search T) :
    s.collect h = limited (s.query.maxItems.map fun m => asUsize m - s.count)
      (((s.ahead h).filterMap h.idMap).filter s.query.includes) := by
  induction hids : s.ahead h generalizing s with
  | nil =>
    rw [collect_none (next_nil hids)]
    cases s.query.maxItems <;> simp [limited]
  | cons id ids ih =>
    obtain ⟨hahead, hcons⟩ := next_cons hids
    have hskip : s.next h = s.incrementNextIndex.next h → s.collect h =
        limited (s.query.maxItems.map fun m => asUsize m - s.count)
          ((ids.filterMap h.idMap).filter s.query.includes) := fun h' =>
      (collect_congr h').trans (ih _ hahead)
    cases hitem : h.idMap id with
    | none =>
      rw [hitem] at hcons
      rw [List.filterMap_cons_none hitem]
      exact hskip hcons
    | some item =>
      rw [hitem] at hcons
      dsimp only at hcons
      rw [List.filterMap_cons_some hitem]
      cases hlimit : s.query.maxItems.any fun m => asUsize m ≤ s.count with
      | true =>
        rw [hlimit, if_pos rfl] at hcons
        cases hm : s.query.maxItems with
        | none =>
          rw [hm] at hlimit
          cases hlimit
        | some m =>
          rw [hm, Option.any_some, decide_eq_true_iff] at hlimit
          rw [collect_none hcons, Option.map_some, limited, Nat.sub_eq_zero_of_le hlimit,
            List.take_zero]
      | false =>
        rw [hlimit, if_neg Bool.false_ne_true] at hcons
        cases hincludes : s.query.includes item with
        | false =>
          rw [hincludes, if_neg Bool.false_ne_true] at hcons
          rw [List.filter_cons, hincludes, if_neg Bool.false_ne_true]
          exact hskip hcons
        | true =>
          rw [hincludes, if_pos rfl] at hcons
          rw [List.filter_cons, hincludes, if_pos rfl, collect_some hcons,
            ih { s.incrementNextIndex with count := s.count + 1 } hahead]
          show item :: limited (s.query.maxItems.map fun m => asUsize m - (s.count + 1))
            ((ids.filterMap h.idMap).filter s.query.includes) = _
          cases hm : s.query.maxItems with
          | none => rfl
          | some m =>
            rw [hm, Option.any_some, decide_eq_false_iff_not, not_le] at hlimit
            rw [Option.map_some, Option.map_some, limited, limited,
              show asUsize m - s.count = asUsize m - (s.count + 1) + 1 by omega,
              List.take_succ_cons]

end Search

/-- `History::search`: all items of the iterator. -/
def search [LE T] [DecidableLE T] (h : History T) (q : Query T) : List (HistoryItem T) :=
  (Search.new h q).collect h

def found [LE T] [DecidableLE T] (h : History T) (q : Query T) : List (HistoryItem T) :=
  (match q.direction with
    | .forward => h.listed
    | .backward => h.listed.reverse).filter q.includes

def answers [LE T] [DecidableLE T] (h : History T) (q : Query T) : List (HistoryItem T) :=
  Search.limited (q.maxItems.map fun m => m.toInt.toNat) (h.found q)

section Search

variable [LE T] [DecidableLE T] (h : History T) (q : Query T)

theorem search_eq : h.search q =
    Search.limited (q.maxItems.map Search.asUsize) (h.found q) := by
  have hahead : (Search.new h q).ahead h =
      match q.direction with
      | .forward => h.items
      | .backward => h.items.reverse := by
    unfold Search.ahead Search.new
    cases q.direction with
    | forward => rfl
    | backward =>
      dsimp only
      by_cases hnil : h.items = []
      · rw [if_pos hnil, hnil]
        rfl
      · have hpos := List.length_pos_iff.2 hnil
        rw [if_neg hnil]
        dsimp only
        rw [if_pos (by omega), Nat.sub_add_cancel hpos, List.take_length]
  rw [search, Search.collect_eq, hahead]
  show Search.limited (q.maxItems.map fun m => Search.asUsize m - 0) _ = _
  simp only [Nat.sub_zero]
  unfold found listed
  show Search.limited (q.maxItems.map Search.asUsize) (List.filter q.includes _) = _
  cases q.direction with
  | forward => rfl
  | backward =>
    dsimp only
    rw [List.filterMap_reverse]

theorem search_eq_answers_iff : h.search q = h.answers q ↔
    (∀ m, q.maxItems = some m → 0 ≤ m.toInt) ∨ h.found q = [] := by
  rw [search_eq, answers]
  cases hm : q.maxItems with
  | none => exact iff_of_true rfl (.inl nofun)
  | some m =>
    rw [Option.map_some, Option.map_some, Search.limited, Search.limited]
    by_cases hneg : 0 ≤ m.toInt
    · rw [Search.asUsize_eq hneg]
      exact iff_of_true rfl (.inl fun m' h' => by cases h'; exact hneg)
    · have hpos := Search.asUsize_pos (Int.not_le.1 hneg)
      rw [show m.toInt.toNat = 0 by omega, List.take_zero, List.take_eq_nil_iff]
      constructor
      · rintro (hzero | hnil)
        · omega
        · exact .inr hnil
      · rintro (hall | hnil)
        · exact absurd (hall m rfl) hneg
        · exact .inr hnil

end Search

/-! ## Flushes of unsaved items -/

def unsaved (h : History T) : List ItemId :=
  h.items.filter fun id => (h.idMap id).any HistoryItem.dirty

def saved (h : History T) : History T :=
  { h with
    idMap := fun id =>
      if id ∈ h.items then (h.idMap id).map fun item => { item with dirty := false }
      else h.idMap id }

theorem flush_unsaved (clock : Clock T) (h : History T) (hnodup : h.items.Nodup)
    (writeTimestamps : Bool) : h.flush clock true writeTimestamps =
      ((h.unsaved.filterMap h.idMap).flatMap (itemBytes clock writeTimestamps), h.saved) := by
  have hfold : ∀ (ids : List ItemId) (written : List UInt8)
      (idMap : ItemId → Option (HistoryItem T)), ids.Nodup → (∀ id ∈ ids, idMap id = h.idMap id) →
      ids.foldl (flushItem clock true writeTimestamps) (written, { h with idMap }) =
        (written ++ ((ids.filter fun id => (h.idMap id).any HistoryItem.dirty).filterMap
          h.idMap).flatMap (itemBytes clock writeTimestamps),
          { h with
            idMap := fun id =>
              if id ∈ ids then (idMap id).map fun item => { item with dirty := false }
              else idMap id }) := by
    intro ids
    induction ids with
    | nil => simp
    | cons id ids ih =>
      intro written idMap hnodup hagree
      obtain ⟨hid, hids⟩ := List.nodup_cons.1 hnodup
      rw [List.forall_mem_cons] at hagree
      rw [List.foldl_cons]
      have hext : ∀ idMap' : ItemId → Option (HistoryItem T),
          idMap' id = (idMap id).map (fun item => { item with dirty := false }) →
          (∀ other ≠ id, idMap' other = idMap other) →
          (fun other => if other ∈ ids then
              (idMap' other).map fun item => { item with dirty := false } else idMap' other) =
            fun other => if other ∈ id :: ids then
              (idMap other).map fun item => { item with dirty := false } else idMap other := by
        intro idMap' hself hother
        funext other
        by_cases heq : other = id
        · rw [heq, if_neg hid, if_pos List.mem_cons_self, hself]
        · rw [hother other heq]
          simp only [List.mem_cons, heq, false_or]
      cases hitem : idMap id with
      | none =>
        have hround : flushItem clock true writeTimestamps (written, { h with idMap }) id =
            (written, { h with idMap }) := by simp [flushItem, hitem]
        rw [hround, ih _ _ hids hagree.2, hext idMap (by rw [hitem]; rfl) fun _ _ => rfl,
          List.filter_cons, ← hagree.1, hitem]
        rfl
      | some item =>
        cases hdirty : item.dirty with
        | false =>
          have hround : flushItem clock true writeTimestamps (written, { h with idMap }) id =
              (written, { h with idMap }) := by simp [flushItem, hitem, hdirty]
          have hself : idMap id = (idMap id).map fun item => { item with dirty := false } := by
            rw [hitem, Option.map_some, ← hdirty]
          rw [hround, ih _ _ hids hagree.2, hext idMap hself fun _ _ => rfl, List.filter_cons,
            ← hagree.1, hitem, Option.any_some, hdirty, if_neg Bool.false_ne_true]
        | true =>
          have hround : flushItem clock true writeTimestamps (written, { h with idMap }) id =
              (written ++ itemBytes clock writeTimestamps item,
                { h with
                  idMap := Function.update idMap id (some { item with dirty := false }) }) := by
            simp [flushItem, hitem, hdirty]
          rw [hround, ih _ _ hids (fun other hother => by
              rw [Function.update_of_ne (ne_of_mem_of_not_mem hother hid)]
              exact hagree.2 other hother),
            hext _ (by rw [Function.update_self, hitem]; rfl)
              (fun other hne => Function.update_of_ne hne _ _), List.filter_cons, ← hagree.1, hitem,
            Option.any_some, hdirty, if_pos rfl, List.filterMap_cons_some (hagree.1.symm.trans hitem),
            List.flatMap_cons, List.append_assoc]
  have := hfold h.items [] h.idMap hnodup fun _ _ => rfl
  rwa [List.nil_append] at this

/-! ## Steps -/

/-- A step of a shell with its history. -/
inductive Step (T : Type)
  | op (o : HistoryOp T)
  | flush (unsavedItemsOnly writeTimestamps : Bool)

def step (clock : Clock T) (h : History T) : Step T → History T
  | .op o => h.apply o
  | .flush unsavedItemsOnly writeTimestamps => (h.flush clock unsavedItemsOnly writeTimestamps).2

def runSteps (clock : Clock T) (h : History T) (steps : List (Step T)) : History T :=
  steps.foldl (step clock) h

def getById (h : History T) (id : ItemId) : Option (HistoryItem T) := h.idMap id

def get (h : History T) (index : ℕ) : Option (HistoryItem T) :=
  match h.items[index]? with
  | some id => h.idMap id
  | none => none

/-- The numbers stand in their order, and each has an item. -/
structure Keyed (h : History T) : Prop where
  increasing : h.items.Pairwise (· < ·)
  given : ∀ id ∈ h.items, id < h.nextId
  keys : ∀ id, id ∈ h.items ↔ (h.idMap id).isSome = true

def OwnIds (h : History T) : Prop := ∀ id item, h.idMap id = some item → item.id = id

theorem Keyed.nodup {h : History T} (hk : h.Keyed) : h.items.Nodup :=
  hk.increasing.imp fun hlt => ne_of_lt hlt

theorem keyed_empty : (empty : History T).Keyed :=
  ⟨List.Pairwise.nil, nofun, fun _ => by simp [empty]⟩

section Steps

variable {h : History T} (hk : h.Keyed)
include hk

theorem Keyed.add (item : HistoryItem T) : (h.add item).Keyed := by
  constructor
  · refine List.pairwise_append.2 ⟨hk.increasing, List.pairwise_singleton _ _, fun a ha b hb => ?_⟩
    rw [List.mem_singleton.1 hb]
    exact hk.given a ha
  · intro id hid
    show id < h.nextId + 1
    rcases List.mem_append.1 hid with hmem | hmem
    · exact lt_trans (hk.given id hmem) (Int.lt_succ _)
    · rw [List.mem_singleton.1 hmem]
      exact Int.lt_succ _
  · intro id
    show id ∈ h.items ++ [h.nextId] ↔ (Function.update h.idMap h.nextId _ id).isSome = true
    rw [List.mem_append, List.mem_singleton]
    by_cases hnext : id = h.nextId
    · rw [hnext, Function.update_self]
      exact iff_of_true (.inr rfl) rfl
    · rw [Function.update_of_ne hnext, ← hk.keys]
      exact or_iff_left hnext

theorem Keyed.remove {items : List ItemId} {id : ItemId} (hsub : items.Sublist h.items)
    (hmem : ∀ other, other ∈ items ↔ other ∈ h.items ∧ other ≠ id) :
    ({ h with items, idMap := Function.update h.idMap id none } : History T).Keyed := by
  constructor
  · exact hk.increasing.sublist hsub
  · exact fun other hother => hk.given other (hsub.subset hother)
  · intro other
    show other ∈ items ↔ (Function.update h.idMap id none other).isSome = true
    rw [hmem]
    by_cases heq : other = id
    · rw [heq, Function.update_self]
      exact iff_of_false (fun h => h.2 rfl) Bool.false_ne_true
    · rw [Function.update_of_ne heq, ← hk.keys]
      exact and_iff_left heq

theorem Keyed.apply (o : HistoryOp T) : (h.apply o).Keyed := by
  cases o with
  | add item => exact hk.add item
  | updateById id item =>
    show (h.updateById id item).Keyed
    unfold updateById
    split_ifs with hid
    · refine ⟨hk.increasing, hk.given, fun other => ?_⟩
      show other ∈ h.items ↔ (Function.update h.idMap id (some item) other).isSome = true
      by_cases heq : other = id
      · rw [heq, Function.update_self, hk.keys, hid]
        rfl
      · rw [Function.update_of_ne heq]
        exact hk.keys other
    · exact hk
  | removeNthItem n =>
    show (h.removeNthItem n).Keyed
    unfold removeNthItem
    split
    · rename_i id hn
      refine hk.remove (List.eraseIdx_sublist _ _) fun other => ?_
      obtain ⟨hlen, hval⟩ := List.getElem?_eq_some_iff.1 hn
      rw [List.mem_eraseIdx_iff_getElem?]
      constructor
      · rintro ⟨m, hne, hm⟩
        obtain ⟨hmlen, hmval⟩ := List.getElem?_eq_some_iff.1 hm
        refine ⟨List.mem_of_getElem? hm, fun heq => hne ?_⟩
        exact hk.nodup.getElem_inj_iff.1 (hmval.trans (heq.trans hval.symm))
      · rintro ⟨hmem, hne⟩
        obtain ⟨m, hm⟩ := List.mem_iff_getElem?.1 hmem
        refine ⟨m, fun heq => hne ?_, hm⟩
        rw [heq, hn] at hm
        exact (Option.some.inj hm).symm
    · exact hk
  | deleteItemById id =>
    exact hk.remove List.filter_sublist fun other => by simp
  | clear => exact ⟨List.Pairwise.nil, nofun, fun _ => by simp [History.apply, clear]⟩

theorem Keyed.saved : h.saved.Keyed := by
  refine ⟨hk.increasing, hk.given, fun id => ?_⟩
  show id ∈ h.items ↔ _
  rw [hk.keys id]
  unfold History.saved
  dsimp only
  split_ifs
  · rw [Option.isSome_map]
  · rfl

theorem flush_state (clock : Clock T) (unsavedItemsOnly writeTimestamps : Bool) :
    (h.flush clock unsavedItemsOnly writeTimestamps).2 =
      if unsavedItemsOnly then h.saved else h := by
  cases unsavedItemsOnly with
  | false => rw [flush_all, if_neg Bool.false_ne_true]
  | true => rw [flush_unsaved clock h hk.nodup, if_pos rfl]

/-- **Step.** Every step keeps the numbers and the items together. -/
theorem Keyed.step (clock : Clock T) (s : Step T) : (h.step clock s).Keyed := by
  cases s with
  | op o => exact hk.apply o
  | flush unsavedItemsOnly writeTimestamps =>
    show ((h.flush clock _ _).2).Keyed
    rw [flush_state hk]
    split_ifs
    · exact hk.saved
    · exact hk

end Steps

theorem Keyed.run {clock : Clock T} (steps : List (Step T)) {h : History T} (hk : h.Keyed) :
    (h.runSteps clock steps).Keyed := by
  induction steps generalizing h with
  | nil => exact hk
  | cons s steps ih => exact ih (hk.step clock s)

theorem runSteps_append (clock : Clock T) (h : History T) (steps more : List (Step T)) :
    h.runSteps clock (steps ++ more) = (h.runSteps clock steps).runSteps clock more :=
  List.foldl_append

/-! ## Own numbers -/

section OwnIds

variable {h : History T} (hown : h.OwnIds)
include hown

theorem OwnIds.update {id : ItemId} {item : HistoryItem T} (hid : item.id = id)
    (items : List ItemId) (nextId : ItemId) :
    (⟨items, Function.update h.idMap id (some item), nextId⟩ : History T).OwnIds := by
  intro other found hfound
  change Function.update h.idMap id (some item) other = some found at hfound
  by_cases heq : other = id
  · rw [heq, Function.update_self] at hfound
    rw [heq, ← Option.some.inj hfound, hid]
  · rw [Function.update_of_ne heq] at hfound
    exact hown other found hfound

theorem OwnIds.add (item : HistoryItem T) : (h.add item).OwnIds :=
  @update _ _ hown _ { item with id := h.nextId } rfl _ _

theorem OwnIds.remove (id : ItemId) (items : List ItemId) (nextId : ItemId) :
    (⟨items, Function.update h.idMap id none, nextId⟩ : History T).OwnIds := by
  intro other found hfound
  change Function.update h.idMap id none other = some found at hfound
  by_cases heq : other = id
  · rw [heq, Function.update_self] at hfound
    cases hfound
  · rw [Function.update_of_ne heq] at hfound
    exact hown other found hfound

/-- **Step.** Only an update can store an item under another number than its own. -/
theorem OwnIds.step (hk : h.Keyed) (clock : Clock T) (s : Step T)
    (hupdate : ∀ id item, s = .op (.updateById id item) → (h.idMap id).isSome = true →
      item.id = id) : (h.step clock s).OwnIds := by
  cases s with
  | op o =>
    cases o with
    | add item => exact hown.add item
    | updateById id item =>
      show (h.updateById id item).OwnIds
      unfold updateById
      split_ifs with hid
      · exact hown.update (hupdate id item rfl hid) _ _
      · exact hown
    | removeNthItem n =>
      show (h.removeNthItem n).OwnIds
      unfold removeNthItem
      split
      · exact hown.remove _ _ _
      · exact hown
    | deleteItemById id => exact hown.remove _ _ _
    | clear => exact fun _ _ => nofun
  | flush unsavedItemsOnly writeTimestamps =>
    show ((h.flush clock _ _).2).OwnIds
    rw [flush_state hk]
    split_ifs
    · intro id item hitem
      change (if id ∈ h.items then (h.idMap id).map fun item => { item with dirty := false }
        else h.idMap id) = some item at hitem
      split_ifs at hitem
      · obtain ⟨item', hitem', rfl⟩ := Option.map_eq_some_iff.1 hitem
        exact hown id item' hitem'
      · exact hown id item hitem
    · exact hown

end OwnIds

def UpdatesOwn (clock : Clock T) (h : History T) (steps : List (Step T)) : Prop :=
  ∀ before id item after, steps = before ++ .op (.updateById id item) :: after →
    ((h.runSteps clock before).idMap id).isSome = true → item.id = id

theorem OwnIds.run {clock : Clock T} (steps : List (Step T)) {h : History T} (hk : h.Keyed)
    (hown : h.OwnIds) (hupdates : h.UpdatesOwn clock steps) :
    (h.runSteps clock steps).OwnIds := by
  induction steps generalizing h with
  | nil => exact hown
  | cons s steps ih =>
    refine ih (hk.step clock s) (hown.step hk clock s ?_) ?_
    · rintro id item rfl
      exact hupdates [] id item steps rfl
    · rintro before id item after rfl
      exact hupdates (s :: before) id item after rfl

theorem importFrom_keyed (clock : Clock T) (bytes : List UInt8) :
    (importFrom clock bytes).Keyed ∧ (importFrom clock bytes).OwnIds := by
  have hfold : ∀ (lines : List (Option (List Char))) (read : History T × Option T),
      read.1.Keyed ∧ read.1.OwnIds → (lines.foldl (importLine clock) read).1.Keyed ∧
        (lines.foldl (importLine clock) read).1.OwnIds := by
    intro lines
    induction lines with
    | nil => exact fun _ hread => hread
    | cons line lines ih =>
      intro read hread
      rw [List.foldl_cons]
      apply ih
      cases line with
      | none => exact hread
      | some line =>
        by_cases hline : line.head? = some '#'
        · obtain ⟨comment, rfl⟩ := List.head?_eq_some_iff.1 hline
          exact hread
        · rw [importLine_line hline]
          exact ⟨hread.1.add _, hread.2.add _⟩
  exact hfold _ _ ⟨keyed_empty, fun _ _ => nofun⟩

/-! ## A consistent store -/

structure Consistent (h : History T) : Prop where
  increasing : h.items.Pairwise (· < ·)
  keys : ∀ id, id ∈ h.items ↔ (h.getById id).isSome = true
  ownIds : ∀ id item, h.getById id = some item → item.id = id
  isSome_get : ∀ n, (h.get n).isSome = true ↔ n < h.items.length
  getById_get : ∀ n item, h.get n = some item → h.getById item.id = some item
  get_getById : ∀ id item, h.getById id = some item →
    ∃ n, h.items[n]? = some id ∧ h.get n = some item

theorem Keyed.consistent {h : History T} (hk : h.Keyed) (hown : h.OwnIds) : h.Consistent := by
  constructor
  · exact hk.increasing
  · exact hk.keys
  · exact hown
  · intro n
    unfold get
    by_cases hn : n < h.items.length
    · rw [List.getElem?_eq_getElem hn]
      exact iff_of_true ((hk.keys _).1 (List.getElem_mem hn)) hn
    · rw [List.getElem?_eq_none (Nat.le_of_not_lt hn)]
      exact iff_of_false Bool.false_ne_true hn
  · intro n item hget
    unfold get at hget
    split at hget
    · rename_i id hid
      show h.idMap item.id = _
      rw [hown id item hget, hget]
    · cases hget
  · intro id item hitem
    have hmem : id ∈ h.items := (hk.keys id).2 (Option.isSome_of_eq_some hitem)
    obtain ⟨n, hn⟩ := List.mem_iff_getElem?.1 hmem
    refine ⟨n, hn, ?_⟩
    unfold get
    rw [hn]
    exact hitem

/-! ## What is written -/

def savedIds (clock : Clock T) : History T → List (Step T) → List ItemId
  | _, [] => []
  | h, .flush true writeTimestamps :: steps =>
    h.unsaved ++ savedIds clock (h.step clock (.flush true writeTimestamps)) steps
  | h, s :: steps => savedIds clock (h.step clock s) steps

def savedBy (h : History T) : Step T → List ItemId
  | .flush true _ => h.unsaved
  | _ => []

theorem savedIds_cons (clock : Clock T) (h : History T) (s : Step T) (steps : List (Step T)) :
    h.savedIds clock (s :: steps) = h.savedBy s ++ (h.step clock s).savedIds clock steps := by
  cases s with
  | op o => rfl
  | flush unsavedItemsOnly writeTimestamps => cases unsavedItemsOnly <;> rfl

theorem savedIds_append (clock : Clock T) (h : History T) (steps more : List (Step T)) :
    h.savedIds clock (steps ++ more) =
      h.savedIds clock steps ++ (h.runSteps clock steps).savedIds clock more := by
  induction steps generalizing h with
  | nil => rfl
  | cons s steps ih =>
    rw [List.cons_append, savedIds_cons, savedIds_cons, ih, List.append_assoc]
    rfl

section Writing

variable {clock : Clock T} {h : History T} {id : ItemId}

theorem mem_unsaved (hk : h.Keyed) :
    id ∈ h.unsaved ↔ ∃ item, h.idMap id = some item ∧ item.dirty = true := by
  unfold unsaved
  rw [List.mem_filter, hk.keys, Option.any_eq_true]
  constructor
  · rintro ⟨-, item, hitem, hdirty⟩
    exact ⟨item, hitem, hdirty⟩
  · rintro ⟨item, hitem, hdirty⟩
    exact ⟨Option.isSome_of_eq_some hitem, item, hitem, hdirty⟩

theorem nextId_le (hk : h.Keyed) (s : Step T) : h.nextId ≤ (h.step clock s).nextId := by
  cases s with
  | op o =>
    cases o with
    | add item => exact le_of_lt (Int.lt_succ _)
    | updateById id item =>
      show _ ≤ (h.updateById id item).nextId
      unfold updateById
      split_ifs <;> exact le_refl _
    | removeNthItem n =>
      show _ ≤ (h.removeNthItem n).nextId
      unfold removeNthItem
      split <;> exact le_refl _
    | deleteItemById id => exact le_refl _
    | clear => exact le_refl _
  | flush unsavedItemsOnly writeTimestamps =>
    show _ ≤ ((h.flush clock _ _).2).nextId
    rw [flush_state hk]
    split_ifs <;> exact le_refl _

theorem apply_idMap (hid : id < h.nextId) {o : HistoryOp T}
    (hupdate : ∀ item, o ≠ .updateById id item) :
    (h.apply o).idMap id = none ∨ (h.apply o).idMap id = h.idMap id := by
  have hremoved : ∀ other : ItemId, Function.update h.idMap other none id = none ∨
      Function.update h.idMap other none id = h.idMap id := by
    intro other
    by_cases heq : id = other
    · rw [heq]
      exact .inl (Function.update_self ..)
    · exact .inr (Function.update_of_ne heq ..)
  cases o with
  | add item => exact .inr (Function.update_of_ne (ne_of_lt hid) ..)
  | updateById other item =>
    right
    show (h.updateById other item).idMap id = _
    unfold updateById
    split_ifs
    · apply Function.update_of_ne
      rintro rfl
      exact hupdate item rfl
    · rfl
  | removeNthItem n =>
    show (h.removeNthItem n).idMap id = none ∨ (h.removeNthItem n).idMap id = _
    unfold removeNthItem
    split
    · exact hremoved _
    · exact .inr rfl
  | deleteItemById other => exact hremoved other
  | clear => exact .inl rfl

theorem saved_idMap (hk : h.Keyed) :
    h.saved.idMap id = (h.idMap id).map fun item => { item with dirty := false } := by
  unfold saved
  dsimp only
  split_ifs with hmem
  · rfl
  · rw [hk.keys, Option.not_isSome_iff_eq_none] at hmem
    rw [hmem]
    rfl

/-- There is nothing left to write of a number. -/
structure Settled (h : History T) (id : ItemId) : Prop where
  given : id < h.nextId
  clean : ∀ item, h.idMap id = some item → item.dirty = false

theorem Settled.step (hk : h.Keyed) (hs : h.Settled id) {s : Step T}
    (hupdate : ∀ item, s ≠ .op (.updateById id item)) : (h.step clock s).Settled id := by
  refine ⟨hs.given.trans_le (nextId_le hk s), ?_⟩
  cases s with
  | op o =>
    intro item hitem
    change (h.apply o).idMap id = some item at hitem
    rcases apply_idMap hs.given fun item heq => hupdate item (congrArg _ heq) with hnone | hsame
    · cases hnone.symm.trans hitem
    · exact hs.clean item (hsame.symm.trans hitem)
  | flush unsavedItemsOnly writeTimestamps =>
    show ∀ item, ((h.flush clock _ _).2).idMap id = some item → _
    rw [flush_state hk]
    split_ifs
    · rw [saved_idMap hk]
      intro item hitem
      obtain ⟨_, -, rfl⟩ := Option.map_eq_some_iff.1 hitem
      rfl
    · exact hs.clean

theorem Settled.notMem_unsaved (hk : h.Keyed) (hs : h.Settled id) : id ∉ h.unsaved := by
  rw [mem_unsaved hk]
  rintro ⟨item, hitem, hdirty⟩
  exact Bool.false_ne_true ((hs.clean item hitem).symm.trans hdirty)

/-- **Written no more.** -/
theorem Settled.notMem_savedIds {steps : List (Step T)} (hk : h.Keyed) (hs : h.Settled id)
    (hupdate : ∀ item, .op (.updateById id item) ∉ steps) : id ∉ h.savedIds clock steps := by
  induction steps generalizing h with
  | nil => exact List.not_mem_nil
  | cons s steps ih =>
    rw [savedIds_cons, List.mem_append]
    rintro (hnow | hlater)
    · unfold savedBy at hnow
      split at hnow
      · exact hs.notMem_unsaved hk hnow
      · cases hnow
    · exact ih (hk.step clock s)
        (hs.step hk fun item heq => hupdate item (heq ▸ List.mem_cons_self))
        (fun item hmem => hupdate item (List.mem_cons_of_mem _ hmem)) hlater

theorem runSteps_gone {steps : List (Step T)} (hk : h.Keyed) (hid : id < h.nextId)
    (hnone : h.idMap id = none) : (h.runSteps clock steps).idMap id = none := by
  induction steps generalizing h with
  | nil => exact hnone
  | cons s steps ih =>
    refine ih (hk.step clock s) (hid.trans_le (nextId_le hk s)) ?_
    cases s with
    | op o =>
      show (h.apply o).idMap id = none
      by_cases hupdate : ∃ item, o = .updateById id item
      · obtain ⟨item, rfl⟩ := hupdate
        show (h.updateById id item).idMap id = none
        unfold updateById
        rw [hnone]
        exact hnone
      · rcases apply_idMap hid fun item heq => hupdate ⟨item, heq⟩ with hgone | hsame
        · exact hgone
        · exact hsame.trans hnone
    | flush unsavedItemsOnly writeTimestamps =>
      show ((h.flush clock _ _).2).idMap id = none
      rw [flush_state hk]
      split_ifs
      · rw [saved_idMap hk, hnone]
        rfl
      · exact hnone

theorem count_savedIds_flush (hk : h.Keyed)
    (hid : h.idMap id = some item) (hdirty : item.dirty = true) {writeTimestamps : Bool}
    {after : List (Step T)} (hupdate : ∀ item, .op (.updateById id item) ∉ after) :
    (h.savedIds clock (.flush true writeTimestamps :: after)).count id = 1 := by
  have hmem : id ∈ h.unsaved := (mem_unsaved hk).2 ⟨item, hid, hdirty⟩
  have hsettled : (h.step clock (.flush true writeTimestamps)).Settled id := by
    constructor
    · exact (hk.given id (List.mem_of_mem_filter hmem)).trans_le (nextId_le hk _)
    · intro item' hitem'
      change ((h.flush clock _ _).2).idMap id = some item' at hitem'
      rw [flush_state hk, if_pos rfl, saved_idMap hk, hid] at hitem'
      cases hitem'
      rfl
  have hlater := @Settled.notMem_savedIds _ clock _ _ _ (hk.step clock _) hsettled hupdate
  rw [savedIds_cons, List.count_append, List.count_eq_zero_of_not_mem hlater]
  exact List.count_eq_one_of_mem (hk.nodup.filter _) hmem

/-- **Written once.** An unsaved item is written by the first flush, if it is still there. -/
theorem count_savedIds (hk : h.Keyed) (hid : h.idMap id = some item)
    (hdirty : item.dirty = true) {waiting : List (Step T)} {writeTimestamps : Bool}
    {after : List (Step T)}
    (hupdate : ∀ item, .op (.updateById id item) ∉
      waiting ++ .flush true writeTimestamps :: after)
    (hkept : ((h.runSteps clock waiting).idMap id).isSome = true) :
    (h.savedIds clock (waiting ++ .flush true writeTimestamps :: after)).count id = 1 := by
  induction waiting generalizing h with
  | nil => exact count_savedIds_flush hk hid hdirty fun item hmem =>
      hupdate item (List.mem_cons_of_mem _ hmem)
  | cons s waiting ih =>
    have hgiven : id < h.nextId := hk.given id ((hk.keys id).2 (Option.isSome_of_eq_some hid))
    have hrest : ∀ item, .op (.updateById id item) ∉
        waiting ++ Step.flush true writeTimestamps :: after := fun item hmem =>
      hupdate item (List.mem_cons_of_mem _ hmem)
    -- A step that leaves the item as it is leaves it to the flush.
    have hsame : (h.step clock s).idMap id = h.idMap id → h.savedBy s = [] →
        (h.savedIds clock (s :: waiting ++ .flush true writeTimestamps :: after)).count id = 1 := by
      intro hsame hnothing
      rw [List.cons_append, savedIds_cons, hnothing, List.nil_append]
      exact ih (hk.step clock s) (hsame.trans hid) hrest hkept
    cases s with
    | op o =>
      rcases apply_idMap hgiven fun item heq => hupdate item (heq ▸ List.mem_cons_self) with
        hgone | hkeeps
      · have hnone : ((h.step clock (.op o)).runSteps clock waiting).idMap id = none :=
          runSteps_gone (hk.step clock (.op o)) (hgiven.trans_le (nextId_le hk _)) hgone
        change (((h.step clock (.op o)).runSteps clock waiting).idMap id).isSome = true at hkept
        rw [hnone] at hkept
        cases hkept
      · exact hsame hkeeps rfl
    | flush unsavedItemsOnly writeTimestamps =>
      cases unsavedItemsOnly with
      | true => exact count_savedIds_flush hk hid hdirty hrest
      | false =>
        refine hsame ?_ rfl
        show ((h.flush clock _ _).2).idMap id = _
        rw [flush_state hk, if_neg Bool.false_ne_true]

theorem nextId_le_run {steps : List (Step T)} (hk : h.Keyed) :
    h.nextId ≤ (h.runSteps clock steps).nextId ∧
      ∀ id ∈ h.savedIds clock steps, id < (h.runSteps clock steps).nextId := by
  induction steps generalizing h with
  | nil => exact ⟨le_refl _, nofun⟩
  | cons s steps ih =>
    obtain ⟨hle, hsaved⟩ := ih (hk.step clock s)
    refine ⟨(nextId_le hk s).trans hle, fun id hmem => ?_⟩
    rw [savedIds_cons, List.mem_append] at hmem
    rcases hmem with hnow | hlater
    · unfold savedBy at hnow
      split at hnow
      · exact (hk.given id (List.mem_of_mem_filter hnow)).trans_le ((nextId_le hk _).trans hle)
      · cases hnow
    · exact hsaved id hlater

end Writing

/-! ## Result -/

/-- A history that is imported and goes through steps is a consistent store, a query finds what it is
for in it, and each item that is added unsaved is written once. -/
structure Behaves [LE T] [DecidableLE T] (clock : Clock T) (bytes : List UInt8)
    (steps : List (Step T)) (q : Query T) : Prop where
  consistent : ∀ before after, steps = before ++ after →
    ((importFrom clock bytes).runSteps clock before).Consistent
  search : ∀ before after, steps = before ++ after →
    ((importFrom clock bytes).runSteps clock before).search q =
      ((importFrom clock bytes).runSteps clock before).answers q
  /-- A flush of unsaved items writes those of `unsaved`. -/
  written : ∀ before writeTimestamps after,
    steps = before ++ .flush true writeTimestamps :: after →
    (((importFrom clock bytes).runSteps clock before).flush clock true writeTimestamps).1 =
      (((importFrom clock bytes).runSteps clock before).unsaved.filterMap
        ((importFrom clock bytes).runSteps clock before).getById).flatMap
          (itemBytes clock writeTimestamps)
  /-- An item that is neither replaced nor gone when a flush comes is written once. -/
  once : ∀ before item waiting writeTimestamps after,
    steps = before ++ .op (.add item) :: (waiting ++ .flush true writeTimestamps :: after) →
    item.dirty = true →
    let id := ((importFrom clock bytes).runSteps clock before).nextId
    (∀ item', .op (.updateById id item') ∉ waiting ++ .flush true writeTimestamps :: after) →
    (((importFrom clock bytes).runSteps clock (before ++ .op (.add item) :: waiting)).getById
      id).isSome = true →
    ((importFrom clock bytes).savedIds clock steps).count id = 1

/-- **Result.** -/
theorem behaves_iff [LE T] [DecidableLE T] (clock : Clock T) (bytes : List UInt8)
    (steps : List (Step T)) (q : Query T) : Behaves clock bytes steps q ↔
      (importFrom clock bytes).UpdatesOwn clock steps ∧
        ((∀ m, q.maxItems = some m → 0 ≤ m.toInt) ∨ ∀ before after, steps = before ++ after →
          ((importFrom clock bytes).runSteps clock before).found q = []) := by
  obtain ⟨hkeyed, hown⟩ := importFrom_keyed clock bytes
  constructor
  · intro hb
    constructor
    · rintro before id item after rfl hsome
      have hafter : ((importFrom clock bytes).runSteps clock
          (before ++ [.op (.updateById id item)])).getById id = some item := by
        rw [runSteps_append]
        show (History.updateById _ id item).idMap id = _
        rw [updateById, if_pos hsome]
        exact Function.update_self ..
      exact (hb.consistent _ after (by rw [List.append_assoc]; rfl)).ownIds id item hafter
    · by_cases hlimit : ∀ m, q.maxItems = some m → 0 ≤ m.toInt
      · exact .inl hlimit
      · right
        intro before after hsteps
        exact ((search_eq_answers_iff _ q).1 (hb.search before after hsteps)).resolve_left hlimit
  · rintro ⟨hupdates, hquery⟩
    constructor
    · rintro before after rfl
      refine (hkeyed.run before).consistent (hown.run before hkeyed ?_)
      rintro first id item rest rfl
      exact hupdates first id item (rest ++ after) (by simp)
    · intro before after hsteps
      rw [search_eq_answers_iff]
      exact hquery.imp_right fun hfound => hfound before after hsteps
    · rintro before writeTimestamps after -
      rw [flush_unsaved clock _ (hkeyed.run before).nodup]
      rfl
    · rintro before item waiting writeTimestamps after rfl hdirty id hupdate hkept
      have hk : ((importFrom clock bytes).runSteps clock before).Keyed := hkeyed.run before
      have hbefore : id ∉ (importFrom clock bytes).savedIds clock before := fun hmem =>
        lt_irrefl id ((nextId_le_run hkeyed).2 id hmem)
      rw [savedIds_append, List.count_append, List.count_eq_zero_of_not_mem hbefore, Nat.zero_add]
      rw [runSteps_append] at hkept
      exact count_savedIds (hk.add item) (Function.update_self ..) hdirty hupdate hkept

/-- An item with another number, and a negative limit. -/
theorem not_behaves : ¬Behaves secondsClock [] [.op (.add ⟨0, ['a'], none, true⟩),
        .op (.updateById 0 ⟨5, ['a'], none, true⟩)] ⟨.forward, none, none, none, none, none, none⟩ ∧
      ¬Behaves secondsClock [] [.op (.add ⟨0, ['a'], none, true⟩)]
        ⟨.forward, none, none, none, none, some (-1), none⟩ := by
  have hempty : importFrom secondsClock [] = empty := by
    unfold importFrom
    rw [Lines.read]
    rfl
  constructor
  · intro hb
    have hitem := (hb.consistent _ [] (List.append_nil _).symm).ownIds 0 ⟨5, ['a'], none, true⟩
    rw [hempty] at hitem
    exact absurd (hitem rfl) (by decide)
  · intro hb
    have hsearch := hb.search _ [] (List.append_nil _).symm
    rw [hempty, search_eq] at hsearch
    exact absurd (congrArg List.length hsearch) (by decide)

end Seahaven.Shell.History
