import Seahaven.Vfs.Frame
import Seahaven.Shell.WorkingDir

/-!
# One working directory

1. `Agrees`: an external command is started where a glob is expanded from.
2. `DirStep.Meets`: the steps after which the records agree again.
3. `recordsAlong`: in a run of such steps they agree in every state, and what fails changes nothing.
-/

namespace Seahaven.Shell

open OsStr Vfs Host

/-! ## Variables under their names -/

namespace ShellEnvironment

theorem entries_setAt_of_ne (env : ShellEnvironment) {i : Nat} {name m : List Char} (hm : m ≠ name)
    (w : Option ShellVariable) : (env.setAt i name w).entries m = env.entries m := by
  have hscopes : ∀ (scopes : List (EnvironmentScope × ShellVariableMap)) (i : Nat), entriesIn m
      (scopes.modify i fun s => (s.1, Function.update s.2 name w)) = entriesIn m scopes := by
    intro scopes
    induction scopes with
    | nil =>
      intro i
      rw [List.modify_nil]
    | cons s scopes ih =>
      intro i
      cases i with
      | zero =>
        rw [List.modify_zero_cons, entriesIn_cons, entriesIn_cons]
        exact congrArg (fun o => o.toList ++ _) (Function.update_of_ne hm w s.2)
      | succ i => rw [List.modify_succ_cons, entriesIn_cons, entriesIn_cons, ih]
  exact hscopes env.scopes i

def HasScope (env : ShellEnvironment) (scope : EnvironmentScope) : Prop :=
  ∃ s ∈ env.scopes, s.1 = scope

theorem hasScope_setAt {env : ShellEnvironment} {scope : EnvironmentScope} (i : Nat)
    (name : List Char) (w : Option ShellVariable) (h : env.HasScope scope) :
    (env.setAt i name w).HasScope scope := by
  obtain ⟨s, hs, rfl⟩ := h
  obtain ⟨j, hj, rfl⟩ := List.getElem_of_mem hs
  have hlt : j < (env.setAt i name w).scopes.length := by simpa [setAt] using hj
  refine ⟨(env.setAt i name w).scopes[j], List.getElem_mem _, ?_⟩
  simp only [setAt, List.getElem_modify]
  split <;> rfl

theorem find_anywhere (env : ShellEnvironment) (name : List Char) :
    (env.find .anywhere name).map Prod.snd = (env.entries name).head? := by
  have hscopes : ∀ (scopes : List (EnvironmentScope × ShellVariableMap)) (count : Nat),
      (findIn .anywhere name count scopes).map Prod.snd = (entriesIn name scopes).head? := by
    intro scopes
    induction scopes with
    | nil => exact fun _ => rfl
    | cons s scopes ih =>
      intro count
      rw [entriesIn_cons, findIn]
      rw [if_pos (admits_anywhere _ _)]
      cases s.2 name with
      | none =>
        dsimp only
        rw [if_neg (by simp), Option.map_map]
        exact ih _
      | some v => rfl
  exact hscopes env.scopes 0

theorem head?_entries_setAt {env : ShellEnvironment} {i : Nat} {name : List Char}
    (hi : i < env.scopes.length)
    (habove : ∀ j < i, env.varAt j name = none) (w : ShellVariable) :
    ((env.setAt i name (some w)).entries name).head? = some w := by
  have hscopes : ∀ (scopes : List (EnvironmentScope × ShellVariableMap)) (i : Nat)
      (_ : i < scopes.length) (_ : ∀ j < i, (scopes[j]?.bind fun s => s.2 name) = none),
      (entriesIn name (scopes.modify i fun s => (s.1, Function.update s.2 name (some w)))).head? =
        some w := by
    intro scopes
    induction scopes with
    | nil => nofun
    | cons s scopes ih =>
      intro i hi habove
      cases i with
      | zero =>
        rw [List.modify_zero_cons, entriesIn_cons]
        dsimp only
        rw [Function.update_self]
        rfl
      | succ i =>
        have hs : s.2 name = none := habove 0 (Nat.succ_pos i)
        rw [List.modify_succ_cons, entriesIn_cons, hs]
        exact ih i (Nat.lt_of_succ_lt_succ hi) fun j hj => habove (j + 1) (Nat.succ_lt_succ hj)
  exact hscopes env.scopes i hi habove

/-- What a write to a name leaves: the variables of other names, and the scopes. -/
structure WritesOnly (env : ShellEnvironment) (name : List Char) (env' : ShellEnvironment) :
    Prop where
  others : ∀ m ≠ name, env'.entries m = env.entries m
  scopes : ∀ scope, env.HasScope scope → env'.HasScope scope

theorem writesOnly_add (env : ShellEnvironment) (name : List Char) (v : ShellVariable)
    (scope : EnvironmentScope) : env.WritesOnly name (env.add name v scope).2 := by
  unfold add
  dsimp only
  split
  · exact ⟨fun _ _ => rfl, fun _ h => h⟩
  · exact ⟨fun m hm => entries_setAt_of_ne env hm _, fun scope' h => hasScope_setAt _ name _ h⟩

theorem add_of_absent {env : ShellEnvironment} {name : List Char} {scope : EnvironmentScope}
    (hscope : env.HasScope scope) (habsent : env.entries name = []) (v : ShellVariable) :
    ∃ env' w, env.add name v scope = (.ok (), env') ∧ (env'.entries name).head? = some w ∧
      w.value = v.value ∧ env.WritesOnly name env' := by
  obtain ⟨i, hi⟩ : ∃ i, (env.scopes.findIdx? fun s => s.1 = scope) = some i := by
    refine Option.isSome_iff_exists.1 ?_
    rw [List.findIdx?_isSome, List.any_eq_true]
    exact hscope.imp fun s hs => ⟨hs.1, by simpa using hs.2⟩
  have hlt : i < env.scopes.length := (List.findIdx?_eq_some_iff_getElem.1 hi).1
  have habove : ∀ j < i, env.varAt j name = none := by
    intro j _
    by_contra hj
    obtain ⟨u, hu⟩ := Option.ne_none_iff_exists'.1 hj
    obtain ⟨s, hs, hu⟩ := Option.bind_eq_some_iff.1 hu
    have hmem : u ∈ env.entries name :=
      List.mem_filterMap.2 ⟨s, List.mem_of_getElem? hs, hu⟩
    rw [habsent] at hmem
    cases hmem
  unfold add
  rw [hi]
  refine ⟨_, _, rfl, head?_entries_setAt hlt habove _, ?_,
    fun m hm => entries_setAt_of_ne env hm _, fun scope' h => hasScope_setAt i name _ h⟩
  split_ifs <;> rfl

end ShellEnvironment

/-! ## What an assignment leaves -/

section

variable [Casing]

/-- A variable that takes a text as it is. -/
structure Takes (text : List Char) (v : ShellVariable) : Prop where
  writable : v.readonly = false
  unchanged : v.convertValueStr text = .ok text
  static : ∀ accessors, v.value ≠ .dynamic accessors

/-- A variable that takes a text, in its own form. -/
structure Accepts (text : List Char) (v : ShellVariable) : Prop where
  writable : v.readonly = false
  converts : ∃ t t', v.convertValueStr text = .ok t ∧ v.convertValueStr t = .ok t'

theorem Takes.accepts {text : List Char} {v : ShellVariable} (h : Takes text v) : Accepts text v :=
  ⟨h.writable, text, text, h.unchanged, h.unchanged⟩

theorem storeAtIndex_zero {v : ShellVariable} {text t : List Char}
    (hv : (∃ values, v.value = .indexedArray values) ∨ ∃ values, v.value = .associativeArray values)
    (ht : v.convertValueStr text = .ok t) :
    ∃ v', v.storeAtIndex ['0'] text false = (.ok (), v') ∧
      v'.value.toStrWithoutDynamicSupport = t := by
  unfold ShellVariable.storeAtIndex
  rw [ht]
  rcases hv with ⟨values, hv⟩ | ⟨values, hv⟩
  · rw [hv]
    refine ⟨_, rfl, ?_⟩
    have hkey : ((parseI64 ['0']).getD 0).toNat = 0 := by decide
    simp [ShellVariable.setValue, ShellValue.toStrWithoutDynamicSupport, ShellVariable.elementValue,
      hkey]
  · rw [hv]
    refine ⟨_, rfl, ?_⟩
    simp [ShellVariable.setValue, ShellValue.toStrWithoutDynamicSupport, ShellVariable.elementValue]

theorem replaceBy_scalar {v : ShellVariable} {t t' : List Char} (hro : v.readonly = false)
    (ht : v.convertValueStr t = .ok t') :
    ∃ v', v.replaceBy (.scalar t) = (.ok (), v') ∧
      (t' = t → (∀ accessors, v.value ≠ .dynamic accessors) →
        v'.value.toStrWithoutDynamicSupport = t) := by
  -- an element is converted once more when it is stored
  have helement : ∀ v₁ : ShellVariable, v₁.convertValueStr t = .ok t' →
      ((∃ values, v₁.value = .indexedArray values) ∨
        ∃ values, v₁.value = .associativeArray values) →
      ∃ v', v₁.storeAtIndex ['0'] t false = (.ok (), v') ∧
        (t' = t → v'.value.toStrWithoutDynamicSupport = t) := by
    intro v₁ hconvert hvalue
    obtain ⟨v', hstore, hv'⟩ := storeAtIndex_zero hvalue hconvert
    exact ⟨v', hstore, fun heq => hv'.trans heq⟩
  unfold ShellVariable.replaceBy
  cases hval : v.value with
  | unset ty =>
    cases ty with
    | untyped => exact ⟨_, rfl, fun _ _ => rfl⟩
    | associativeArray =>
      obtain ⟨v', hstore, hv'⟩ := helement (v.setValue (.associativeArray ∅)) ht (.inr ⟨∅, rfl⟩)
      refine ⟨v', ?_, fun heq _ => hv' heq⟩
      rw [← hstore]
      simp [ShellVariable.assignAtIndex, ShellVariable.assignEmptyArray, hval, hro,
        ShellVariable.replaceByArray, ShellValue.updateAssociativeArrayFromLiterals,
        ShellValue.updateAssociativeLoop]
    | indexedArray =>
      obtain ⟨v', hstore, hv'⟩ := helement (v.setValue (.indexedArray ∅)) ht (.inl ⟨∅, rfl⟩)
      refine ⟨v', ?_, fun heq _ => hv' heq⟩
      rw [← hstore]
      simp [ShellVariable.assignAtIndex, ShellVariable.assignEmptyArray, hval, hro,
        ShellVariable.replaceByArray, ShellValue.updateIndexedArrayFromLiterals]
  | string s => exact ⟨_, rfl, fun _ _ => rfl⟩
  | associativeArray values =>
    obtain ⟨v', hstore, hv'⟩ := helement v ht (.inr ⟨values, hval⟩)
    refine ⟨v', ?_, fun heq _ => hv' heq⟩
    rw [← hstore]
    simp [ShellVariable.assignAtIndex, hval]
  | indexedArray values =>
    obtain ⟨v', hstore, hv'⟩ := helement v ht (.inl ⟨values, hval⟩)
    refine ⟨v', ?_, fun heq _ => hv' heq⟩
    rw [← hstore]
    simp [ShellVariable.assignAtIndex, hval]
  | dynamic accessors => exact ⟨v, rfl, fun _ hstatic => absurd rfl (hstatic accessors)⟩

theorem assign_of_accepts {text : List Char} {v : ShellVariable} (h : Accepts text v) :
    ∃ v', v.assign (.scalar text) false = (.ok (), v') ∧
      (Takes text v → v'.value.toStrWithoutDynamicSupport = text) := by
  obtain ⟨hro, t, t', ht, ht'⟩ := h
  have hconvert : v.convertValueLiteral (.scalar text) = .ok (.scalar t) := by
    unfold ShellVariable.convertValueLiteral
    dsimp only
    rw [ht]
    rfl
  unfold ShellVariable.assign
  rw [hro, hconvert]
  obtain ⟨v', hreplace, hv'⟩ := replaceBy_scalar hro ht'
  refine ⟨v', hreplace, fun htakes => ?_⟩
  obtain rfl : text = t := Except.ok.inj (htakes.unchanged.symm.trans ht)
  exact hv' (Except.ok.inj (ht'.symm.trans ht)) htakes.static

/-- The variable a name stands for is one of these, or there is none and there is a scope for it. -/
def Assignable (env : ShellEnvironment) (name : List Char) (P : ShellVariable → Prop) : Prop :=
  match (env.entries name).head? with
  | some v => P v
  | none => env.HasScope .global

theorem assignText_of_assignable {env : ShellEnvironment} {name text : List Char}
    (h : Assignable env name (Accepts text)) :
    ∃ env' v, DirShell.assignText env name text = (.ok (), env') ∧ env.WritesOnly name env' ∧
      (env'.entries name).head? = some v ∧
      (Assignable env name (Takes text) → v.value.toStrWithoutDynamicSupport = text) := by
  unfold DirShell.assignText ShellEnvironment.updateOrAdd
  have hfind := env.find_anywhere name
  cases hf : env.find .anywhere name with
  | some r =>
    obtain ⟨i, v⟩ := r
    rw [hf] at hfind
    have hv : Accepts text v := by
      unfold Assignable at h
      rwa [← hfind] at h
    obtain ⟨v', hassign, hv'⟩ := assign_of_accepts hv
    obtain ⟨w, hupdate, hw⟩ : ∃ w, env.update (.scalar text) .skip v = (.ok (), w) ∧
        w.value = v'.value := by
      unfold ShellEnvironment.update
      rw [hassign]
      refine ⟨_, rfl, ?_⟩
      split_ifs <;> rfl
    have hat := ShellEnvironment.find_setAt (ShellEnvironment.varAt_of_find hf) w .anywhere name
    rw [hf, Option.map_some, if_pos ⟨rfl, rfl⟩] at hat
    have hhead := (env.setAt i name (some w)).find_anywhere name
    rw [hat] at hhead
    refine ⟨env.setAt i name (some w), w, ?_, ⟨fun m hm => env.entries_setAt_of_ne hm _,
      fun scope h => ShellEnvironment.hasScope_setAt i name _ h⟩, hhead.symm, fun htakes => ?_⟩
    · dsimp only
      rw [hupdate]
      rfl
    · unfold Assignable at htakes
      rw [← hfind] at htakes
      rw [hw]
      exact hv' htakes
  | none =>
    rw [hf] at hfind
    have habsent : env.entries name = [] := List.head?_eq_none_iff.1 hfind.symm
    have hscope : env.HasScope .global := by
      unfold Assignable at h
      rwa [← hfind] at h
    have hcreated : (env.created (.scalar text)).value = .string text := by
      unfold ShellEnvironment.created
      split_ifs <;> rfl
    obtain ⟨env', w, hadd, hhead, hw, hwrites⟩ :=
      ShellEnvironment.add_of_absent hscope habsent (env.created (.scalar text))
    refine ⟨env', w, ?_, hwrites, hhead, fun _ => ?_⟩
    · dsimp only
      rw [ShellEnvironment.update_fresh]
      exact hadd
    · rw [hw, hcreated]
      rfl

omit [Casing] in
theorem Assignable.congr {env env' : ShellEnvironment} {name : List Char} {P : ShellVariable → Prop}
    (hentries : env'.entries name = env.entries name)
    (hscopes : ∀ scope, env.HasScope scope → env'.HasScope scope) (h : Assignable env name P) :
    Assignable env' name P := by
  unfold Assignable at h ⊢
  rw [hentries]
  split at h
  · exact h
  · exact hscopes _ h

omit [Casing] in
theorem Assignable.mono {env : ShellEnvironment} {name : List Char} {P Q : ShellVariable → Prop}
    (hPQ : ∀ v, P v → Q v) (h : Assignable env name P) : Assignable env name Q := by
  unfold Assignable at h ⊢
  split at h
  · exact hPQ _ h
  · exact h

end

/-! ## The records -/

namespace DirShell

variable [Unicode] (s : DirShell)

/-- `env_str("PWD")`. -/
def shownPwd : Option (List Char) :=
  (s.env.get pwdName).map fun r => r.2.value.toStrWithoutDynamicSupport

theorem shownPwd_eq : s.shownPwd =
    (s.env.entries pwdName).head?.map fun v => v.value.toStrWithoutDynamicSupport := by
  rw [← ShellEnvironment.get_eq, Option.map_map]
  rfl

/-- The three records agree; `PWD` may be the script's own. -/
structure Records (own : Prop) : Prop where
  /-- An external command is started where a glob is expanded from. -/
  agrees : s.commandDirectory = .ok s.session.cwd
  pwd : ¬ own → s.shownPwd = some (lossyText s.workingDir)

variable [Casing]

/-- The variables can record this directory. -/
structure CanRecord (p : VirtualPath) : Prop where
  pwd : Assignable s.env pwdName (Takes (lossyText p.asStr))
  oldPwd : Assignable s.env oldPwdName (Accepts (lossyText s.workingDir))

def CanEnter (target : OsStr) (h : Host) : Prop :=
  ∀ p, toVirtualPath s.session (s.absolutePath target) = .ok p →
    s.session.isDirectory p h = true → s.CanRecord p

def MustEnter (target : OsStr) (h : Host) : Prop :=
  ∃ p, toVirtualPath s.session (s.absolutePath target) = .ok p ∧
    s.session.isDirectory p h = true ∧ s.CanRecord p

/-- The shell has entered a directory. -/
structure Entered (s' : DirShell) (p : VirtualPath) : Prop where
  session : s'.session = { s.session with cwd := p }
  workingDir : s'.workingDir = p.asStr
  directoryStack : s'.directoryStack = s.directoryStack
  pwd : s'.shownPwd = some (lossyText p.asStr)

variable {s}

theorem recordDirectory_of_canRecord {p : VirtualPath} (hcan : s.CanRecord p) :
    ∃ s', { s with session := { s.session with cwd := p } }.recordDirectory p.asStr =
      (.ok (), s') ∧ s.Entered s' p := by
  obtain ⟨env₁, v, hpwd, hassigned, hhead, hv⟩ :=
    assignText_of_assignable (hcan.pwd.mono fun _ => Takes.accepts)
  have hne : oldPwdName ≠ pwdName := by decide
  have hold : Assignable env₁ oldPwdName (Accepts (lossyText s.workingDir)) :=
    hcan.oldPwd.congr (hassigned.others _ hne) hassigned.scopes
  obtain ⟨env₂, w, holdpwd, hassigned₂, -, -⟩ := assignText_of_assignable hold
  refine ⟨{ s with session := { s.session with cwd := p }, env := env₂, workingDir := p.asStr },
    ?_, rfl, rfl, rfl, ?_⟩
  · unfold recordDirectory
    rw [hpwd]
    dsimp only
    rw [holdpwd]
  · rw [shownPwd_eq]
    dsimp only
    rw [hassigned₂.others _ hne.symm, hhead]
    exact congrArg some (hv hcan.pwd)

theorem setWorkingDir_of_directory {target : OsStr} {h : Host} {p : VirtualPath}
    (hp : toVirtualPath s.session (s.absolutePath target) = .ok p)
    (hdir : s.session.isDirectory p h = true) (hcan : s.CanRecord p) :
    ∃ s', s.setWorkingDir target h = (.ok (), s') ∧ s.Entered s' p := by
  have hcwd : (s.session.setCwd p.asStr h).1 = .ok { s.session with cwd := p } :=
    s.session.setCwd_ok (VirtualPath.resolve_asStr _ p) hdir
  obtain ⟨s', hrecord, hentered⟩ := recordDirectory_of_canRecord hcan
  refine ⟨s', ?_, hentered⟩
  unfold Session.isDirectory at hdir
  unfold setWorkingDir
  dsimp only
  rw [hp]
  dsimp only
  cases hfacts : (s.session.vfs.facts p true h).1 with
  | error e =>
    rw [hfacts] at hdir
    cases hdir
  | ok answer =>
    rw [hfacts] at hdir
    cases answer with
    | none => cases hdir
    | some facts =>
      dsimp only at hdir ⊢
      rw [if_pos hdir, hcwd]
      exact hrecord

theorem setWorkingDir_of_not_directory {target : OsStr} {h : Host}
    (hdir : ∀ p, toVirtualPath s.session (s.absolutePath target) = .ok p →
      s.session.isDirectory p h = false) :
    ∃ e, s.setWorkingDir target h = (.error e, s) := by
  unfold setWorkingDir
  dsimp only
  cases hp : toVirtualPath s.session (s.absolutePath target) with
  | error e => exact ⟨_, rfl⟩
  | ok p =>
    have hdir := hdir p hp
    unfold Session.isDirectory at hdir
    dsimp only
    split
    · rename_i facts hfacts
      rw [hfacts] at hdir
      rw [if_neg (by simpa using hdir)]
      exact ⟨_, rfl⟩
    · exact ⟨_, rfl⟩

/-- **A change of directory** enters the target or leaves the shell as it was. -/
theorem setWorkingDir_cases {target : OsStr} {h : Host} (hcan : s.CanEnter target h) :
    (∃ e, s.setWorkingDir target h = (.error e, s)) ∨
      ∃ p s', toVirtualPath s.session (s.absolutePath target) = .ok p ∧
        s.session.isDirectory p h = true ∧ s.setWorkingDir target h = (.ok (), s') ∧
        s.Entered s' p := by
  by_cases hdir : ∃ p, toVirtualPath s.session (s.absolutePath target) = .ok p ∧
      s.session.isDirectory p h = true
  · obtain ⟨p, hp, hdir⟩ := hdir
    obtain ⟨s', hs', hentered⟩ := setWorkingDir_of_directory hp hdir (hcan p hp hdir)
    exact .inr ⟨p, s', hp, hdir, hs', hentered⟩
  · refine .inl (setWorkingDir_of_not_directory fun p hp => ?_)
    by_contra hd
    exact hdir ⟨p, hp, by simpa using hd⟩

omit [Casing] in
theorem Entered.records {s' : DirShell} {p : VirtualPath} (hentered : s.Entered s' p)
    (hutf : p.asStr.isUtf8 = true) (own : Prop) : s'.Records own where
  agrees := by
    have habs : s'.absolutePath s'.workingDir = p.asStr := by
      rw [hentered.workingDir, absolutePath, if_pos]
      simp [VirtualPath.asStr, OsStr.isAbsolute]
    rw [commandDirectory, habs, toVirtualPath_asStr hutf, hentered.session]
  pwd _ := by rw [hentered.pwd, hentered.workingDir]

omit [Casing] in
theorem isAbsolute_absolutePath {s : DirShell} (habs : s.workingDir.isAbsolute = true)
    {path : OsStr} (hne : path ≠ []) : (s.absolutePath path).isAbsolute = true := by
  unfold absolutePath joinPath
  split_ifs with h hpath hend
  · simpa [hne] using h
  · exact hpath
  · exact (isAbsolute_append (fun hnil => by rw [hnil] at habs; cases habs) _).trans habs
  · exact (isAbsolute_append (fun hnil => by rw [hnil] at habs; cases habs) _).trans habs

omit [Casing] in
theorem isUtf8_of_absolutePath
    (hnfc : ∀ c : OsStr, c.isUtf8 = true → (Unicode.nfc c).isUtf8 = true)
    (habs : s.workingDir.isAbsolute = true) {session : Session} {path : OsStr} {p : VirtualPath}
    (hp : toVirtualPath session (s.absolutePath path) = .ok p) : p.asStr.isUtf8 = true := by
  by_cases hne : path = []
  · subst hne
    cases hp
  · exact isUtf8_of_toVirtualPath hnfc (isAbsolute_absolutePath habs hne) hp

end DirShell

/-! ## Steps -/

section

variable [Unicode] [Casing]

/-- The steps after which the records agree: the variables can record where a change of directory
leads, and where one must not fail it leads to a directory. -/
def DirStep.Meets (h : Host) (s : DirShell) : DirStep → Prop
  | .setMounts vfs => ∃ landing p, DirShell.landing vfs h = some landing ∧
      toVirtualPath (.new vfs) landing.asStr = .ok p ∧
      (Session.new vfs).isDirectory p h = true ∧ s.CanRecord p
  | .setWorkingDir targetDir => s.CanEnter targetDir h
  | .pushd noDirectoryChange dir => noDirectoryChange = false → s.CanEnter dir h
  | .popd noDirectoryChange => noDirectoryChange = false →
      ∀ popped, s.directoryStack.getLast? = some popped → s.MustEnter popped h
  | .clearDirs => True
  | .edit _ => True

/-- Whether what `PWD` stands for is the script's own after a step. -/
def DirStep.scripted (h : Host) (s : DirShell) (own : Prop) : DirStep → Prop
  | .setMounts _ => False
  | .setWorkingDir targetDir => own ∧ (s.setWorkingDir targetDir h).1 ≠ .ok ()
  | .pushd noDirectoryChange dir =>
    own ∧ (noDirectoryChange = true ∨ (s.setWorkingDir dir h).1 ≠ .ok ())
  | .popd noDirectoryChange =>
    own ∧ (noDirectoryChange = true ∨ (s.popd false h).1 ≠ .ok ())
  | .clearDirs => own
  | .edit f => own ∨ (f s.env).get pwdName ≠ s.env.get pwdName

/-- A step that fails changes nothing, and one that moves moves to a directory. -/
structure DirStep.Sound (h : Host) (s : DirShell) (step : DirStep) : Prop where
  unchanged : ∀ e, (step.run h s).1 = .error e → (step.run h s).2 = s
  directory : (step.run h s).2.session = s.session ∨
    (step.run h s).2.session.isDirectory (step.run h s).2.session.cwd h = true

def MeetsAlong : DirShell → List (Host × DirStep) → Prop
  | _, [] => True
  | s, (h, step) :: rest => step.Meets h s ∧ MeetsAlong (step.run h s).2 rest

def RecordsAlong : Prop → DirShell → List (Host × DirStep) → Prop
  | own, s, [] => s.Records own
  | own, s, (h, step) :: rest => s.Records own ∧ step.Sound h s ∧
      RecordsAlong (step.scripted h s own) (step.run h s).2 rest

/-- What holds before a step and after: the records agree on an absolute directory. -/
structure DirShell.Settled (own : Prop) (s : DirShell) : Prop extends s.Records own where
  absolute : s.workingDir.isAbsolute = true

omit [Casing] in
theorem DirShell.Entered.settled {s s' : DirShell} {p : VirtualPath} (hentered : s.Entered s' p)
    (hutf : p.asStr.isUtf8 = true) (own : Prop) : s'.Settled own where
  toRecords := hentered.records hutf own
  absolute := by rw [hentered.workingDir]; rfl

omit [Unicode] [Casing] in
theorem writes_resynthesize (env : ShellEnvironment) :
    (∀ m, m = pwdName ∨ m = oldPwdName →
      (resynthesizeSessionFacts env).entries m = env.entries m) ∧
    ∀ scope, env.HasScope scope → (resynthesizeSessionFacts env).HasScope scope := by
  have hne : ∀ m, m = pwdName ∨ m = oldPwdName →
      m ≠ "HOSTNAME".toList ∧ m ≠ "UID".toList ∧ m ≠ "EUID".toList := by
    rintro m (rfl | rfl) <;> decide
  unfold resynthesizeSessionFacts
  dsimp only
  refine ⟨fun m hm => ?_, fun scope h => ?_⟩
  · obtain ⟨hhost, huid, heuid⟩ := hne m hm
    rw [(ShellEnvironment.writesOnly_add _ _ _ _).others m heuid,
      (ShellEnvironment.writesOnly_add _ _ _ _).others m huid,
      (ShellEnvironment.writesOnly_add _ _ _ _).others m hhost]
  · exact (ShellEnvironment.writesOnly_add _ _ _ _).scopes _
      ((ShellEnvironment.writesOnly_add _ _ _ _).scopes _
        ((ShellEnvironment.writesOnly_add _ _ _ _).scopes _ h))

section Step

variable {h : Host} {s : DirShell} {own : Prop}
  (hnfc : ∀ c : OsStr, c.isUtf8 = true → (Unicode.nfc c).isUtf8 = true)

theorem settled_of_canEnter (hnfc : ∀ c : OsStr, c.isUtf8 = true → (Unicode.nfc c).isUtf8 = true)
    {target : OsStr} (hcan : s.CanEnter target h) (hs : s.Settled own) :
    (∃ e, s.setWorkingDir target h = (.error e, s)) ∨
      ∃ s', s.setWorkingDir target h = (.ok (), s') ∧ (∀ own', s'.Settled own') ∧
        s'.session.isDirectory s'.session.cwd h = true := by
  rcases DirShell.setWorkingDir_cases hcan with hfail | ⟨p, s', hp, hdir, hset, hentered⟩
  · exact .inl hfail
  · refine .inr ⟨s', hset, fun own' => hentered.settled ?_ own', ?_⟩
    · exact DirShell.isUtf8_of_absolutePath hnfc hs.absolute hp
    · rw [hentered.session]
      exact hdir

omit [Casing] in
theorem DirShell.Settled.mono {own' : Prop} (hs : s.Settled own) (hown : own → own') :
    s.Settled own' := ⟨⟨hs.agrees, fun h => hs.pwd (mt hown h)⟩, hs.absolute⟩

omit [Casing] in
theorem settled_edit (f : ShellEnvironment → ShellEnvironment) (hs : s.Settled own) :
    { s with env := f s.env }.Settled (own ∨ (f s.env).get pwdName ≠ s.env.get pwdName) where
  agrees := hs.agrees
  pwd hown := by
    rw [not_or, not_not] at hown
    unfold DirShell.shownPwd
    dsimp only
    rw [hown.2]
    exact hs.pwd hown.1
  absolute := hs.absolute

theorem sound_of_error {step : DirStep} {e : DirError} (hstep : step.run h s = (.error e, s)) :
    step.Sound h s :=
  ⟨fun _ _ => congrArg Prod.snd hstep, .inl (congrArg (fun r => r.2.session) hstep)⟩

theorem sound_of_ok {step : DirStep} {s' : DirShell} (hstep : step.run h s = (.ok (), s'))
    (hdir : s'.session = s.session ∨ s'.session.isDirectory s'.session.cwd h = true) :
    step.Sound h s := by
  refine ⟨fun e he => ?_, ?_⟩
  · rw [hstep] at he
    cases he
  · rw [hstep]
    exact hdir

omit [Casing] in
theorem settled_stack (hs : s.Settled own) (directoryStack : List OsStr) :
    { s with directoryStack }.Settled own := ⟨⟨hs.agrees, hs.pwd⟩, hs.absolute⟩

/-- **A step that meets its condition** is sound and leaves the records settled. -/
theorem sound_step (hnfc : ∀ c : OsStr, c.isUtf8 = true → (Unicode.nfc c).isUtf8 = true)
    (step : DirStep) (hmeets : step.Meets h s) (hs : s.Settled own) :
    step.Sound h s ∧ (step.run h s).2.Settled (step.scripted h s own) := by
  cases step with
  | setMounts vfs =>
    obtain ⟨landing, p, hlanding, hp, hdir, hcan⟩ := hmeets
    obtain ⟨hentries, hscopes⟩ := writes_resynthesize s.env
    let s₁ : DirShell := { s with
      session := .new vfs
      namespaceInstalled := true
      env := resynthesizeSessionFacts s.env }
    have hcan₁ : s₁.CanRecord p :=
      ⟨hcan.pwd.congr (hentries _ (.inl rfl)) hscopes,
        hcan.oldPwd.congr (hentries _ (.inr rfl)) hscopes⟩
    have htarget : s₁.absolutePath landing.asStr = landing.asStr := by
      rw [DirShell.absolutePath, if_pos]
      simp [VirtualPath.asStr, OsStr.isAbsolute]
    obtain ⟨s', hset, hentered⟩ :=
      DirShell.setWorkingDir_of_directory (s := s₁) (htarget.symm ▸ hp) hdir hcan₁
    have hrun : (DirStep.setMounts vfs).run h s = (.ok (), s') := by
      rw [DirStep.run, DirShell.setMounts, hlanding]
      exact congrArg (fun r => (Except.ok (), r.2)) hset
    refine ⟨sound_of_ok hrun (.inr ?_), ?_⟩
    · rw [hentered.session]
      exact hdir
    · rw [hrun]
      exact hentered.settled (isUtf8_of_toVirtualPath hnfc rfl hp) _
  | setWorkingDir targetDir =>
    rcases settled_of_canEnter hnfc hmeets hs with ⟨e, hset⟩ | ⟨s', hset, hsettled, hdir⟩
    · have hrun : (DirStep.setWorkingDir targetDir).run h s = (.error e, s) := hset
      refine ⟨sound_of_error hrun, ?_⟩
      rw [hrun, DirStep.scripted, hset]
      exact hs.mono fun hown => ⟨hown, by rintro ⟨⟩⟩
    · have hrun : (DirStep.setWorkingDir targetDir).run h s = (.ok (), s') := hset
      refine ⟨sound_of_ok hrun (.inr hdir), ?_⟩
      rw [hrun]
      exact hsettled _
  | pushd noDirectoryChange dir =>
    cases noDirectoryChange with
    | true =>
      refine ⟨sound_of_ok rfl (.inl rfl), ?_⟩
      exact settled_stack (hs.mono fun hown => ⟨hown, .inl rfl⟩) _
    | false =>
      rcases settled_of_canEnter hnfc (hmeets rfl) hs with ⟨e, hset⟩ | ⟨s', hset, hsettled, hdir⟩
      · have hrun : (DirStep.pushd false dir).run h s = (.error e, s) := by
          rw [DirStep.run, DirShell.pushd, if_neg (by decide), hset]
        refine ⟨sound_of_error hrun, ?_⟩
        rw [hrun, DirStep.scripted, hset]
        exact hs.mono fun hown => ⟨hown, .inr (by rintro ⟨⟩)⟩
      · have hrun : (DirStep.pushd false dir).run h s =
            (.ok (), { s' with directoryStack := s'.directoryStack ++ [s.workingDir] }) := by
          rw [DirStep.run, DirShell.pushd, if_neg (by decide), hset]
        refine ⟨sound_of_ok hrun (.inr hdir), ?_⟩
        rw [hrun]
        exact settled_stack (hsettled _) _
  | popd noDirectoryChange =>
    cases hlast : s.directoryStack.getLast? with
    | none =>
      have hrun : ∀ no, (DirStep.popd no).run h s = (.error .dirStackEmpty, s) := by
        intro no
        rw [DirStep.run, DirShell.popd, hlast]
      refine ⟨sound_of_error (hrun _), ?_⟩
      rw [hrun, DirStep.scripted]
      refine hs.mono fun hown => ⟨hown, .inr ?_⟩
      rw [show s.popd false h = _ from hrun false]
      rintro ⟨⟩
    | some popped =>
      cases noDirectoryChange with
      | true =>
        have hrun : (DirStep.popd true).run h s =
            (.ok (), { s with directoryStack := s.directoryStack.dropLast }) := by
          rw [DirStep.run, DirShell.popd, hlast]
          rfl
        refine ⟨sound_of_ok hrun (.inl rfl), ?_⟩
        rw [hrun]
        exact settled_stack (hs.mono fun hown => ⟨hown, .inl rfl⟩) _
      | false =>
        obtain ⟨p, hp, hdir, hcan⟩ := hmeets rfl popped hlast
        let s₀ : DirShell := { s with directoryStack := s.directoryStack.dropLast }
        obtain ⟨s', hset, hentered⟩ :=
          DirShell.setWorkingDir_of_directory (s := s₀) hp hdir ⟨hcan.pwd, hcan.oldPwd⟩
        have hrun : (DirStep.popd false).run h s = (.ok (), s') := by
          rw [DirStep.run, DirShell.popd, hlast]
          exact hset
        refine ⟨sound_of_ok hrun (.inr ?_), ?_⟩
        · rw [hentered.session]
          exact hdir
        · rw [hrun]
          exact hentered.settled (DirShell.isUtf8_of_absolutePath hnfc hs.absolute hp) _
  | clearDirs => exact ⟨sound_of_ok rfl (.inl rfl), settled_stack hs _⟩
  | edit f => exact ⟨sound_of_ok rfl (.inl rfl), settled_edit f hs⟩

theorem recordsAlong_of_settled
    (hnfc : ∀ c : OsStr, c.isUtf8 = true → (Unicode.nfc c).isUtf8 = true)
    {steps : List (Host × DirStep)} (hmeets : MeetsAlong s steps) (hs : s.Settled own) :
    RecordsAlong own s steps := by
  induction steps generalizing s own with
  | nil => exact hs.toRecords
  | cons step rest ih =>
    obtain ⟨h, step⟩ := step
    obtain ⟨hstep, hrest⟩ := hmeets
    obtain ⟨hsound, hsettled⟩ := sound_step hnfc step hstep hs
    exact ⟨hs.toRecords, hsound, ih hrest hsettled⟩

end Step

/-! ## Runs of a new shell -/

def StartsIn (vfs : Vfs) (start : OsStr) (h : Host) : Prop :=
  start.isAbsolute = true ∧ ∃ p, (Session.new vfs).resolve start.toStringLossy = .ok p ∧
    (Session.new vfs).isDirectory p h = true

omit [Unicode] [Casing] in
theorem scopes_add {env : ShellEnvironment} {map : ShellVariableMap}
    (hscopes : env.scopes = [(.global, map)]) (name : List Char) (v : ShellVariable) :
    ∃ w, w.value = v.value ∧ (env.add name v .global).2.scopes =
      [(.global, Function.update map name (some w))] := by
  have hidx : (env.scopes.findIdx? fun s => s.1 = .global) = some 0 := by
    rw [hscopes]
    rfl
  refine ⟨if env.exportVariablesOnModification then v.export else v, by split_ifs <;> rfl, ?_⟩
  unfold ShellEnvironment.add
  rw [hidx]
  change env.scopes.modify 0 _ = _
  rw [hscopes]
  rfl

omit [Unicode] [Casing] in
theorem scopes_globalsOf (vars : List (List Char × ShellVariable)) :
    ∃ map, (globalsOf vars).scopes = [(.global, map)] := by
  unfold globalsOf
  induction vars using List.reverseRecOn with
  | nil => exact ⟨_, rfl⟩
  | append_singleton vars v ih =>
    obtain ⟨map, hmap⟩ := ih
    rw [List.foldl_append, List.foldl_cons, List.foldl_nil]
    obtain ⟨w, -, hscopes⟩ := scopes_add hmap v.1 v.2
    exact ⟨_, hscopes⟩

omit [Casing] in
theorem settled_new {vfs : Vfs} {start : OsStr} {h : Host} (hstart : StartsIn vfs start h)
    (vars : List (List Char × ShellVariable)) :
    (DirShell.new vfs start vars h).Settled False := by
  obtain ⟨habs, p, hp, hdir⟩ := hstart
  have hcwd : ((Session.new vfs).setCwd start.toStringLossy h).1 =
      .ok { Session.new vfs with cwd := p } := (Session.new vfs).setCwd_ok hp hdir
  refine ⟨⟨?_, fun _ => ?_⟩, habs⟩
  · have hsession : (DirShell.new vfs start vars h).session =
        { Session.new vfs with cwd := p } := by
      unfold DirShell.new
      dsimp only
      rw [hcwd]
    have htarget : (DirShell.new vfs start vars h).absolutePath start = start := by
      rw [DirShell.absolutePath, if_pos (by simp [habs])]
    rw [DirShell.commandDirectory, hsession, show (DirShell.new vfs start vars h).workingDir = start
      from rfl, htarget, toVirtualPath_of_lossy (VirtualPath.plain_of_resolve hp).2.2
      (colon_of_resolve hp), Session.resolve, resolve_of_isAbsolute
      (isAbsolute_toStringLossy habs) hp]
    rfl
  · obtain ⟨map, hmap⟩ := scopes_globalsOf vars
    obtain ⟨w, hw, hscopes⟩ :=
      scopes_add hmap pwdName (ShellVariable.new (.string (lossyText start))).export
    rw [DirShell.shownPwd_eq]
    unfold DirShell.new ShellEnvironment.entries
    dsimp only
    rw [hscopes, ShellEnvironment.entriesIn_cons]
    dsimp only
    rw [Function.update_self]
    exact congrArg some (congrArg ShellValue.toStrWithoutDynamicSupport hw)

/-- **One working directory.** In every run of a new shell whose steps meet their conditions, the
records agree in every state, and what fails changes nothing. -/
theorem recordsAlong (hnfc : ∀ c : OsStr, c.isUtf8 = true → (Unicode.nfc c).isUtf8 = true)
    {vfs : Vfs} {start : OsStr} {vars : List (List Char × ShellVariable)} {h : Host}
    (hstart : StartsIn vfs start h) {steps : List (Host × DirStep)}
    (hmeets : MeetsAlong (DirShell.new vfs start vars h) steps) :
    RecordsAlong False (DirShell.new vfs start vars h) steps :=
  recordsAlong_of_settled hnfc hmeets (settled_new hstart vars)

end

section Fixture

attribute [local instance] composed asciiCasing

def tmpHost : Host := .ofTrees [.ofEntries [([os "tmp"], .dir)]]

/-- A shell that has started at `/` of that host. -/
def rootShell : DirShell := .new (mountedAt .root) (os "/") [] tmpHost

/-- `readonly name`. -/
def makeReadonly (name : List Char) (env : ShellEnvironment) : ShellEnvironment :=
  match env.find .anywhere name with
  | some (i, v) => env.setAt i name (some v.setReadonly)
  | none => env

theorem startsIn_root : StartsIn (mountedAt .root) (os "/") tmpHost :=
  ⟨by decide, .root, by decide +kernel, by decide⟩

/-- `cd /tmp`. -/
def cdTmp : List (Host × DirStep) := [(tmpHost, .setWorkingDir (os "/tmp"))]

theorem recordsAlong_cd : (StartsIn (mountedAt .root) (os "/") tmpHost ∧
    MeetsAlong rootShell cdTmp) ∧ RecordsAlong False rootShell cdTmp := by
  have hmeets : MeetsAlong rootShell cdTmp := by
    refine ⟨fun p hp hdir => ?_, trivial⟩
    obtain rfl : (⟨[os "tmp"], by decide⟩ : VirtualPath) = p :=
      Except.ok.inj ((by decide +kernel : _ = _).symm.trans hp)
    exact ⟨⟨rfl, rfl, nofun⟩, ⟨_, List.mem_singleton_self _, rfl⟩⟩
  exact ⟨⟨startsIn_root, hmeets⟩, recordsAlong (fun _ h => h) startsIn_root hmeets⟩

/-- `readonly PWD; cd /tmp`. -/
def cdReadonly : List (Host × DirStep) := (tmpHost, .edit (makeReadonly pwdName)) :: cdTmp

/-- **Half a move.** With `PWD` read-only, `cd /tmp` fails and takes the session along: a glob is
expanded from `/tmp` and a command is started in `/`. -/
theorem not_recordsAlong_readonly : StartsIn (mountedAt .root) (os "/") tmpHost ∧
    (runDirs rootShell cdReadonly).session.cwd = ⟨[os "tmp"], by decide⟩ ∧
    (runDirs rootShell cdReadonly).workingDir = os "/" ∧
    ¬ RecordsAlong False rootShell cdReadonly := by
  refine ⟨startsIn_root, by decide +kernel, by decide +kernel, ?_⟩
  rintro ⟨-, -, -, -, hrecords⟩
  exact absurd hrecords.agrees (by decide +kernel)

end Fixture

end Seahaven.Shell
