import Seahaven.Vfs.LocateLoop

/-!
# What the cursor is worth

The walk asks its directory handle about a component as the caller or a link spells it. Without the
handle it asks the mount about the path, whose components are in normal form. The two walks are run
side by side here.

1. `bare_turn`: where the two questions have one answer, so do the two walks.
2. `Agreed`: states that have been reached with one answer all along.
3. `agreesAlong_of_spells`: links spelled as the grammar spells names keep them so.
4. `locate_byPath`: where the walk ends agreed it is the walk without the cursor, and where it
   first sees a link only through the cursor, or misses one only because of it at the end, it is
   not.
-/

namespace Seahaven.Vfs

open Host OsStr

variable [Unicode]

/-- `locate`, with the cursor always `None`. -/
def locateByPath (v : Vfs) (path : VirtualPath) (followFinal : Bool) (h : Host) :
    Except IoError Located :=
  (v.walkLoop false h path followFinal (.start path)).2

def Loop.bare (s : Loop) : Loop := { s with cursor := none }

/-- The two questions that a turn may ask whether a component is a link, where it looks one up and
would follow it. -/
structure AsksLink (v : Vfs) (followFinal : Bool) (s : Loop) (c : OsStr) (rest : List OsStr)
    (l : Located) : Prop where
  pending : s.pending = c :: rest
  exact : ∃ q, s.resolved.resolve c = .ok q ∧ v.locateExact q = .ok l
  follows : rest ≠ [] ∨ followFinal = true

def seen (h : Host) (s : Loop) (c : OsStr) (l : Located) : Bool :=
  isLink (probe h (descent s.cursor l.mount) c l)

def there (h : Host) (c : OsStr) (l : Located) : Bool := isLink (probe h none c l)

variable {v : Vfs} {h : Host} {path : VirtualPath} {followFinal : Bool}

variable (v h followFinal) in
def AgreesAt (s : Loop) : Prop :=
  ∀ c rest l, v.AsksLink followFinal s c rest l → seen h s c l = there h c l

variable {s : Loop}

/-- **Side by side.** Where the two questions have one answer, a turn of the one walk is a turn of
the other. -/
theorem bare_turn (hs : v.AgreesAt h followFinal s) :
    v.turn false h path followFinal s.bare =
      match v.turn true h path followFinal s with
      | .done met r => .done met r
      | .next s' => .next s'.bare := by
  obtain ⟨resolved, pending, hops, cursor⟩ := s
  unfold turn Loop.bare
  dsimp only
  cases pending with
  | nil => rfl
  | cons c pending =>
    dsimp only
    cases hq : resolved.resolve c with
    | error e => rfl
    | ok q =>
      dsimp only
      cases hl : v.locateExact q with
      | error e =>
        dsimp only
        split_ifs <;> rfl
      | ok l =>
        dsimp only
        have hlink : (isLink (probe h (descent none l.mount) c l) = true ∧
              (pending ≠ [] ∨ followFinal = true)) ↔
            (isLink (probe h (descent cursor l.mount) c l) = true ∧
              (pending ≠ [] ∨ followFinal = true)) := by
          refine and_congr_left fun hfollows => ?_
          have hagree := hs c pending l ⟨rfl, ⟨q, hq, hl⟩, hfollows⟩
          unfold seen there at hagree
          rw [hagree]
          rfl
        by_cases hstop : isLink (probe h (descent cursor l.mount) c l) = true ∧
            (pending ≠ [] ∨ followFinal = true)
        · rw [if_pos hstop, if_pos (hlink.2 hstop)]
          by_cases hlast : maxSymlinkHops < hops + 1
          · rw [if_pos hlast]
          · rw [if_neg hlast]
            cases linkTarget h path l <;> rfl
        · rw [if_neg hstop, if_neg fun hc => hstop (hlink.1 hc), if_pos (Or.inr rfl)]

variable (v h path followFinal) in
/-- The states that the walk reaches while its two questions have one answer. -/
inductive Agreed : Loop → Prop
  | start : Agreed (.start path)
  | turn {s s' : Loop} (hs : Agreed s) (ha : v.AgreesAt h followFinal s)
      (ht : v.turn true h path followFinal s = .next s') : Agreed s'

variable (v h path followFinal) in
def AgreesAlong : Prop := ∀ s, v.Agreed h path followFinal s → v.AgreesAt h followFinal s

theorem walks_from_agreed (hs : v.Agreed h path followFinal s) :
    v.walkLoop true h path followFinal (.start path) =
        v.walkLoop true h path followFinal s ∧
      v.walkLoop false h path followFinal (.start path) =
        v.walkLoop false h path followFinal s.bare := by
  induction hs with
  | start => exact ⟨rfl, rfl⟩
  | turn _ ha ht ih =>
    have hbare : v.turn false h path followFinal _ = _ := bare_turn ha
    rw [ht] at hbare
    exact ⟨ih.1.trans (walkLoop_next ht), ih.2.trans (walkLoop_next hbare)⟩

theorem ends_alike (ha : v.AgreesAlong h path followFinal) (s : Loop)
    (hs : v.Agreed h path followFinal s) :
    v.walkLoop false h path followFinal s.bare = v.walkLoop true h path followFinal s := by
  refine walkLoop_induction (P := fun s r => v.Agreed h path followFinal s →
    v.walkLoop false h path followFinal s.bare = r) ?_ ?_ s hs
  · intro s met r ht hs
    have hbare : v.turn false h path followFinal s.bare = _ := bare_turn (ha s hs)
    rw [ht] at hbare
    exact walkLoop_done hbare
  · intro s s' r ht hr hs
    have hbare : v.turn false h path followFinal s.bare = _ := bare_turn (ha s hs)
    rw [ht] at hbare
    rw [walkLoop_next hbare]
    exact hr (.turn hs (ha s hs) ht)

/-! ## Where the answers differ -/

omit [Unicode] in
theorem readLinkContents_iff {d : CapDir} {rel : List OsStr} :
    (∃ target, d.readLinkContents rel h = .ok target) ↔
      isLink (d.symlinkMetadata rel h) = true := by
  rw [isLink_iff]
  constructor
  · rintro ⟨target, ht⟩
    obtain ⟨root, hroot, hread⟩ := CapDir.ask_eq_ok.1 ht
    unfold Tree.readLink at hread
    cases hstat : (h.tree d.tree).stat root false rel with
    | error e => rw [hstat] at hread; cases hread
    | ok x =>
      obtain ⟨r, i, k⟩ := x
      obtain ⟨hr, hn⟩ := Tree.stat_eq_ok.1 hstat
      rw [hstat] at hread
      cases k with
      | link target' => exact ⟨root, r, target', hroot, hr, Tree.linkAt_eq_some.2 ⟨i, hn⟩⟩
      | dir => cases hread
      | file => cases hread
      | special k => cases hread
  · rintro ⟨root, r, target, hroot, hr, hlink⟩
    obtain ⟨i, hn⟩ := Tree.linkAt_eq_some.1 hlink
    refine ⟨target, CapDir.ask_eq_ok.2 ⟨root, hroot, ?_⟩⟩
    rw [Tree.readLink, Tree.stat_eq_ok.2 ⟨hr, hn⟩]

variable {s' : Loop}

theorem cursor_turn (ht : v.turn false h path followFinal s = .next s') :
    s'.cursor = none := by
  obtain ⟨c, pending, q, -, -, ⟨e, -, rfl⟩ | ⟨l, -, ⟨target, -, -, -, rfl⟩ | ⟨-, rfl⟩⟩⟩ := turn_next ht
  · rfl
  · rfl
  · exact if_pos (Or.inr rfl)

theorem not_ofHost_byPath (s : Loop) (hs : s.cursor = none) {e : IoError}
    (hr : (v.walkLoop false h path followFinal s).2 = .error e) : ¬OfHost e := by
  have hkind : ∀ {k : ErrorKind} {m : OsStr}, k ≠ .permissionDenied → ¬OfHost (.custom k m) := by
    rintro k m hk (⟨n, hn⟩ | hn)
    · cases hn
    · cases hn
      exact hk rfl
  refine walkLoop_induction (P := fun s r => s.cursor = none → ∀ e, r.2 = .error e → ¬OfHost e)
    ?_ ?_ s hs e hr
  · intro s met r ht hs e hr
    dsimp only at hr
    rcases turn_done ht with ⟨-, hexact | ⟨q, hq⟩ | ⟨e', he⟩⟩ | ⟨-, -, he⟩ |
      ⟨-, -, c, pending, q, l, e', -, -, -, hlink, htarget, he⟩
    · obtain rfl := (locateExact_eq_error.1 (hexact.2.symm.trans hr)).2
      exact hkind nofun
    · cases hq.symm.trans hr
      exact hkind nofun
    · cases he.symm.trans hr
      exact hkind nofun
    · cases he.symm.trans hr
      exact hkind nofun
    · cases he.symm.trans hr
      rw [hs] at hlink
      obtain ⟨target, hread⟩ := readLinkContents_iff.2 hlink
      unfold linkTarget at htarget
      rw [hread] at htarget
      dsimp only at htarget
      split_ifs at htarget
      cases htarget
      exact hkind nofun
  · exact fun s s' r ht hr hs => hr (cursor_turn ht)

/-- A component of a path or of a link's target. -/
structure Raw (c : OsStr) : Prop where
  ne_nil : c ≠ []
  no_slash : slash ∉ c

variable {c : OsStr}

theorem resolve_raw {p q : VirtualPath} (hc : Raw c) (hq : p.resolve c = .ok q) :
    q = p ∨ p.parent = some q ∨ ∃ d, ∃ hd, q = p.push d hd := by
  by_cases hdot : c = dot
  · subst hdot
    rw [p.resolve_dot] at hq
    exact .inl (Except.ok.inj hq).symm
  by_cases hdotdot : c = dotdot
  · subst hdotdot
    refine .inr (.inl ?_)
    cases hp : p.parent with
    | none =>
      rw [VirtualPath.resolve_dotdot_of_root hp] at hq
      cases hq
    | some r =>
      rw [VirtualPath.resolve_dotdot_of_parent hp] at hq
      rw [Except.ok.inj hq]
  · obtain ⟨hnul, hback, d, hd, hcomps⟩ :=
      (VirtualPath.resolve_name hc.ne_nil hc.no_slash hdot hdotdot).1 hq
    have hcomp := isComponent_of_validate hc.ne_nil hc.no_slash hback hnul hd
    exact .inr (.inr ⟨d, hcomp, VirtualPath.ext hcomps⟩)

theorem above_of_raw {p q : VirtualPath} (hc : Raw c) (hp : v.Clear h p)
    (hq : p.resolve c = .ok q) : v.ClearAbove h q := by
  rcases resolve_raw hc hq with rfl | hup | ⟨d, hd, rfl⟩
  · exact hp.above
  · exact (hp.mono (prefix_of_parent hup)).above
  · exact ClearAbove.push hp

variable (v h) in
/-- A walk by whole paths that has no link behind it. -/
structure Plain (s : Loop) : Prop where
  cursor : s.cursor = none
  clear : v.Clear h s.resolved
  raw : ∀ c ∈ s.pending, Raw c

theorem plain_start : v.Plain h (.start path) :=
  ⟨rfl, clear_root, fun c hc => ⟨(path.valid c hc).ne_nil, (path.valid c hc).no_slash⟩⟩

theorem plain_turn (hs : v.Plain h s)
    (ht : v.turn false h path true s = .next s') : v.Plain h s' := by
  have hcursor := cursor_turn ht
  obtain ⟨c, pending, q, hp, hq, hturn⟩ := turn_next ht
  have hc := hs.raw c (by rw [hp]; exact List.mem_cons_self)
  have hrest : ∀ d ∈ pending, Raw d := fun d hd => hs.raw d (by rw [hp]; exact .tail c hd)
  have habove := above_of_raw hc hs.clear hq
  rcases hturn with ⟨e, hl, rfl⟩ | ⟨l, hl, ⟨target, -, -, -, rfl⟩ | ⟨hstop, rfl⟩⟩
  · exact ⟨hcursor, clear_of_error habove hl, hrest⟩
  · refine ⟨hcursor, clear_linkBase (by rwa [(locateExact_eq_ok.1 hl).2]), fun d hd => ?_⟩
    rcases List.mem_append.1 hd with hd | hd
    · exact ⟨components_ne_nil hd, slash_not_mem_of_mem_components hd⟩
    · exact hrest d hd
  · have hlink : l.link h = none := by
      rw [hs.cursor] at hstop
      have hpath := isLink_path habove hl
      by_contra hne
      exact hstop ⟨hpath.trans (Option.isSome_iff_ne_none.2 hne), Or.inr rfl⟩
    exact ⟨hcursor, clear_of_link habove hl hlink, hrest⟩

variable {l : Located}

theorem clear_byPath (s : Loop) (hs : v.Plain h s)
    (hr : (v.walkLoop false h path true s).2 = .ok l) : v.Clear h l.virtualPath := by
  refine walkLoop_induction
    (P := fun s r => v.Plain h s → ∀ l, r.2 = .ok l → v.Clear h l.virtualPath) ?_ ?_ s hs l hr
  · intro s met r ht hs l hr
    dsimp only at hr
    rcases turn_done ht with ⟨-, hexact | ⟨q, hq⟩ | ⟨e', he⟩⟩ | ⟨-, -, he⟩ |
      ⟨-, -, c, pending, q, l', e', -, -, -, -, -, he⟩
    · rw [(locateExact_eq_ok.1 (hexact.2.symm.trans hr)).2]
      exact hs.clear
    · cases hq.symm.trans hr
    · cases he.symm.trans hr
    · cases he.symm.trans hr
    · cases he.symm.trans hr
  · exact fun s s' r ht hr hs => hr (plain_turn hs ht)

theorem plain_of_agreed (hs : v.Agreed h path true s) : v.Plain h s.bare := by
  induction hs with
  | start => exact plain_start
  | turn _ ha ht ih =>
    have hbare : v.turn false h path true _ = _ := bare_turn ha
    rw [ht] at hbare
    exact plain_turn ih hbare

/-! ## Links spelled as the grammar spells names -/

variable (v h) in
/-- A walk that has its directory in hand and only names in normal form before it. -/
structure Tracked (s : Loop) : Prop where
  clear : v.Clear h s.resolved
  on : v.CursorOn h s.cursor s.resolved
  queued : ∀ c ∈ s.pending, Queued c

theorem tracked_turn (hspells : v.Spells h) (hs : v.Tracked h s)
    (ht : v.turn true h path followFinal s = .next s') :
    s'.pending = [] ∨ v.Tracked h s' := by
  obtain ⟨c, pending, q, hp, hq, hturn⟩ := turn_next ht
  have hc := hs.queued c (by rw [hp]; exact List.mem_cons_self)
  have hrest : ∀ d ∈ pending, Queued d := fun d hd => hs.queued d (by rw [hp]; exact .tail c hd)
  have habove := above_of_resolve hc hs.clear hq
  rcases hturn with ⟨e, hl, rfl⟩ | ⟨l, hl, ⟨target, hlink, -, htarget, rfl⟩ | ⟨hstop, rfl⟩⟩
  · exact .inr ⟨clear_of_error habove hl, cursorOn_none, hrest⟩
  · rw [isLink_probe hc hs.clear hq hl hs.on] at hlink
    obtain ⟨target', hlink⟩ := Option.isSome_iff_exists.1 hlink
    rw [linkTarget_eq hl hlink] at htarget
    split_ifs at htarget
    obtain rfl := Except.ok.inj htarget
    refine .inr ⟨clear_linkBase (by rwa [(locateExact_eq_ok.1 hl).2]), cursorOn_none, fun d hd => ?_⟩
    rcases List.mem_append.1 hd with hd | hd
    · exact queued_target (hspells l.mount (mem_of_locateExact hl) _ target' hlink) d hd
    · exact hrest d hd
  · rw [isLink_probe hc hs.clear hq hl hs.on] at hstop
    by_cases hnil : pending = []
    · exact .inl hnil
    · have hlink : l.link h = none := by
        by_contra hne
        exact hstop ⟨Option.isSome_iff_ne_none.2 hne, Or.inl hnil⟩
      refine .inr ⟨clear_of_link habove hl hlink, ?_, hrest⟩
      show v.CursorOn h (if pending = [] ∨ true = false then none
        else advance h (descent s.cursor l.mount) c l) q
      rw [if_neg (by simp [hnil])]
      exact cursorOn_advance hc hs.clear hq hl hs.on hlink

theorem agreesAlong_of_spells (hspells : v.Spells h) : v.AgreesAlong h path followFinal := by
  have htracked : ∀ s, v.Agreed h path followFinal s → s.pending = [] ∨ v.Tracked h s := by
    intro s hs
    induction hs with
    | start =>
      exact .inr ⟨clear_root, cursorOn_none, fun c hc => (path.valid c hc).queued⟩
    | turn _ _ ht ih =>
      rcases ih with hnil | ih
      · unfold turn at ht
        rw [hnil] at ht
        cases ht
      · exact tracked_turn hspells ih ht
  intro s hs c rest l hasks
  rcases htracked s hs with hnil | ht
  · rw [hasks.pending] at hnil
    cases hnil
  · obtain ⟨q, hq, hl⟩ := hasks.exact
    have hc := ht.queued c (by rw [hasks.pending]; exact List.mem_cons_self)
    unfold seen there
    rw [isLink_probe hc ht.clear hq hl ht.on]
    exact (isLink_path (above_of_resolve hc ht.clear hq) hl).symm

/-! ## The worth of the cursor -/

theorem ofHost_of_seen {rest : List OsStr}
    (hs : v.Agreed h path followFinal s) (hasks : v.AsksLink followFinal s c rest l)
    (hseen : seen h s c l = true) (hthere : there h c l = false)
    (hhops : s.hops < maxSymlinkHops) :
    ∃ e, OfHost e ∧ v.locate path followFinal h = .error e := by
  obtain ⟨q, hq, hl⟩ := hasks.exact
  cases hread : l.mount.dir.readLinkContents l.relative h with
  | ok target =>
    have hlink := readLinkContents_iff.1 ⟨target, hread⟩
    exact absurd (hthere.symm.trans hlink) (by simp)
  | error e =>
    refine ⟨e, ofHost_readLinkContents hread, ?_⟩
    have hturn : v.turn true h path followFinal s = .done (s.hops + 1) (.error e) := by
      unfold turn
      rw [hasks.pending]
      dsimp only
      rw [hq]
      dsimp only
      rw [hl]
      dsimp only
      rw [if_pos ⟨hseen, hasks.follows⟩, if_neg (by omega), linkTarget, hread]
    rw [← walkLoop_eq_locate, (walks_from_agreed hs).1, walkLoop_done hturn]

theorem locate_of_missed
    (hs : v.Agreed h path followFinal s) (hasks : v.AsksLink followFinal s c [] l)
    (hseen : seen h s c l = false) : v.locate path followFinal h = .ok l := by
  obtain ⟨q, hq, hl⟩ := hasks.exact
  have hturn : v.turn true h path followFinal s = .next ⟨q, [], s.hops, none⟩ := by
    unfold turn
    rw [hasks.pending]
    dsimp only
    rw [hq]
    dsimp only
    rw [hl]
    dsimp only
    rw [if_neg fun hc => absurd (hseen.symm.trans hc.1) (by simp), if_pos (Or.inl rfl)]
  have hlast : v.turn true h path followFinal ⟨q, [], s.hops, none⟩ = .done s.hops (.ok l) := by
    unfold turn
    dsimp only
    rw [hl]
  rw [← walkLoop_eq_locate, (walks_from_agreed hs).1, walkLoop_next hturn, walkLoop_done hlast]

/-- **The worth of the cursor.** Where asking the directory in hand for a component as it is
spelled and asking the mount for the path agree whether it is a link, `locate` is the walk without
the cursor. Where they first disagree it is not, if the link is seen through the cursor with a link
left to follow, or missed through it as the last component. -/
theorem locate_byPath (v : Vfs) (h : Host) (path : VirtualPath) (followFinal : Bool) :
    (v.AgreesAlong h path followFinal →
      v.locate path followFinal h = v.locateByPath path followFinal h) ∧
    ∀ s c rest l, v.Agreed h path followFinal s → v.AsksLink followFinal s c rest l →
      (seen h s c l = true ∧ there h c l = false ∧ s.hops < maxSymlinkHops) ∨
        (seen h s c l = false ∧ there h c l = true ∧ rest = []) →
      v.locate path followFinal h ≠ v.locateByPath path followFinal h := by
  refine ⟨fun ha => ?_, fun s c rest l hs hasks hdiffer heq => ?_⟩
  · unfold locateByPath
    rw [← walkLoop_eq_locate, ← ends_alike ha _ .start]
    rfl
  rcases hdiffer with ⟨hseen, hthere, hhops⟩ | ⟨hseen, hthere, rfl⟩
  · obtain ⟨e, hhost, he⟩ := ofHost_of_seen hs hasks hseen hthere hhops
    exact not_ofHost_byPath (.start path) rfl (heq.symm.trans he) hhost
  · obtain rfl : followFinal = true := hasks.follows.resolve_left (by simp)
    have hl := locate_of_missed hs hasks hseen
    obtain ⟨q, hq, hexact⟩ := hasks.exact
    have hclear : v.Clear h l.virtualPath := clear_byPath (.start path) plain_start
      (heq.symm.trans hl)
    have hplain := plain_of_agreed hs
    have hraw : Raw c := hplain.raw c (by
      show c ∈ s.pending
      rw [hasks.pending]
      exact List.mem_cons_self)
    have hlink := isLink_path (above_of_raw hraw hplain.clear hq) hexact
    obtain rfl : l.virtualPath = q := (locateExact_eq_ok.1 hexact).2
    have hnone : l.link h = none := by
      rw [← linkAt_of_exact hexact]
      exact (clear_iff.1 hclear).2
    rw [hnone] at hlink
    exact absurd (hthere.symm.trans hlink) (by simp)

end Seahaven.Vfs

namespace Seahaven.Vfs

open Host OsStr

def angstromSign : OsChar := .chr '\u212b'

def ringedLetter : OsChar := .chr '\u00c5'

def composeLetter (x : OsChar) : OsChar := if x = angstromSign then ringedLetter else x

theorem composeLetter_idem (x : OsChar) : composeLetter (composeLetter x) = composeLetter x := by
  unfold composeLetter
  split_ifs with h₁ h₂
  · exact absurd h₂ (by decide)
  · rfl
  · rfl

theorem composeLetter_eq {x y : OsChar} (hy : y ≠ ringedLetter) (h : composeLetter x = y) :
    x = y := by
  unfold composeLetter at h
  split_ifs at h
  · exact absurd h.symm hy
  · exact h

/-- Texts in which no letter but the angstrom sign is out of normal form. -/
@[reducible] def ringed : Unicode where
  nfc s := s.map composeLetter
  quick s := decide (angstromSign ∉ s)
  lower s := s.map asciiLower
  debug s := os "\"" ++ s ++ os "\""
  quick_sound s h := by
    refine (List.map_congr_left fun x hx => ?_).trans (List.map_id s)
    have hne : x ≠ angstromSign := fun heq => of_decide_eq_true h (heq ▸ hx)
    exact if_neg hne
  nfc_idem s := by
    rw [List.map_map]
    exact List.map_congr_left fun x _ => composeLetter_idem x
  nfc_nil := rfl
  nfc_boundary a x b hx := by
    have hfix : composeLetter x = x := by
      unfold composeLetter
      rw [if_neg]
      rintro rfl
      exact absurd hx (by decide)
    rw [List.map_append, List.map_cons, hfix]
  nfc_not_mem s x hx hs := by
    intro hmem
    obtain ⟨y, hy, heq⟩ := List.mem_map.1 hmem
    have hne : x ≠ ringedLetter := by
      rintro rfl
      exact absurd hx (by decide)
    exact hs (composeLetter_eq hne heq ▸ hy)
  nfc_ascii s hs := by
    refine (List.map_congr_left fun x hx => ?_).trans (List.map_id s)
    obtain ⟨c, hc, hlt, -⟩ := hs _ (List.mem_map_of_mem hx)
    have hne : composeLetter x ≠ ringedLetter := by
      intro heq
      rw [heq] at hc
      obtain rfl := OsChar.chr.inj hc
      exact absurd hlt (by decide)
    exact (composeLetter_eq hne rfl).symm
  nfc_ne_nil s hs := by simpa using hs

/-! ## A link whose name is out of normal form -/

section Fixture

attribute [local instance] ringed

/-- A host with a link in `d` named by the angstrom sign, and a link `a` to it as it is spelled. -/
def signHost : Host := .ofTrees [.ofEntries [([os "d"], .dir),
  ([os "d", [angstromSign]], .link (os "t")), ([os "a"], .link (os "d/" ++ [angstromSign]))]]

/-- A namespace with that host's tree at `/work`. -/
def signVfs : Vfs where
  table := .fromMounts [⟨⟨[os "work"], by decide⟩, ⟨0, 0⟩, none, none, .readWrite, false⟩]
    (by decide)
  roots := by decide
  apart := by decide

/-- **The cursor is more than a short cut.** The link is seen under its own name, and read under
another. -/
theorem not_byPath :
    signVfs.locate ⟨[os "work", os "a"], by decide⟩ true signHost = .error (.os .noent) ∧
      signVfs.locateByPath ⟨[os "work", os "a"], by decide⟩ true signHost ≠
        signVfs.locate ⟨[os "work", os "a"], by decide⟩ true signHost := by
  have hlocate : signVfs.locate ⟨[os "work", os "a"], by decide⟩ true signHost =
      .error (.os .noent) := by decide
  refine ⟨hlocate, fun heq => ?_⟩
  exact not_ofHost_byPath (.start ⟨[os "work", os "a"], by decide⟩) rfl (heq.trans hlocate)
    (.inl ⟨.noent, rfl⟩)

end Fixture

section Fixture

attribute [local instance] composed

theorem spells_ringHost : ringVfs.Spells ringHost := by
  have hkeys : ∀ m ∈ ringVfs.table.mounts, ∀ p ∈ (ringHost.tree m.dir.tree).keys,
      ∀ target ∈ (ringHost.tree m.dir.tree).linkAt p, ∀ c ∈ target.components, Spelled c := by
    decide
  exact fun m hm => Tree.linksAre_of_keys (hkeys m hm)

/-- `/work/a/up` leads where it leads without the cursor. -/
theorem byPath_up : ringVfs.AgreesAlong ringHost ⟨[os "work", os "a", os "up"], by decide⟩ true ∧
      ringVfs.locate ⟨[os "work", os "a", os "up"], by decide⟩ true ringHost =
        ringVfs.locateByPath ⟨[os "work", os "a", os "up"], by decide⟩ true ringHost :=
  ⟨agreesAlong_of_spells spells_ringHost,
    (locate_byPath ringVfs ringHost ⟨[os "work", os "a", os "up"], by decide⟩ true).1
      (agreesAlong_of_spells spells_ringHost)⟩

end Fixture

end Seahaven.Vfs
