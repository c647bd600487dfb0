import Seahaven.Vfs.Shadow
import Seahaven.Shell.Redirect

/-!
# What a list of redirections denotes

1. `FdOp`: an operation on descriptors. `FdOp.apply` says what it does to a view, which is what each
   number is open on.
2. `denote`, `denotes`: the operations an item and a list denote, with their words expanded and their
   files opened as the list is set up.
3. `folds_iff`: when a list that is accepted leaves the fold of its operations, and `noclobber` spares
   the regular files there are.

A move is set up as a duplication that is closed again, and a process substitution is left at a
number of its own besides.
-/

namespace Seahaven.Shell

open Vfs Host Op

/-! ## Operations on descriptors -/

abbrev View := ShellFd → Option (OpenFile Opened)

/-- An operation on descriptors. -/
inductive FdOp
  /-- `n` is open on a file. -/
  | «open» (n : ShellFd) (file : OpenFile Opened)
  /-- `n := m`. -/
  | dup (n m : ShellFd)
  | close (n : ShellFd)
  /-- `n := m`, and `m` is closed. -/
  | move (n m : ShellFd)
  /-- `n` is open on a process substitution, which is held at `spare` until then. -/
  | install (spare n : ShellFd) (file : OpenFile Opened)

namespace FdOp

/-- What an operation does to a view. -/
def apply (v : View) : FdOp → View
  | «open» n file => Function.update v n (some file)
  | dup n m => Function.update v n (v m)
  | close n => Function.update v n none
  | move n m => Function.update (Function.update v n (v m)) m none
  | install _ n file => Function.update v n (some file)

/-- What an operation does to the table of a command, where its source is open. -/
def run (shell : OpenFiles Opened) (params : ExecutionParameters Opened) :
    FdOp → Option (ExecutionParameters Opened)
  | «open» n file => some (params.setFd n file)
  | dup n m => (params.tryFd shell m).map (params.setFd n)
  | close n => some (params.removeFd n)
  | move n m => (params.tryFd shell m).map fun file => (params.setFd n file).removeFd n
  | install spare n file => some ((params.setFd spare file).setFd n file)

/-- An operation that does to a table what it does to the view: no move to another number, and no
substitution held at another one. -/
def Plain (v : View) : FdOp → Prop
  | move n m => n = m
  | install spare n file => spare = n ∨ v spare = some file
  | _ => True

variable {shell : OpenFiles Opened} {params params' : ExecutionParameters Opened}

theorem tryFd_setFd_eq {n : ShellFd} {file : OpenFile Opened} : (params.setFd n file).tryFd shell =
    Function.update (params.tryFd shell) n (some file) := by
  funext k
  rw [ExecutionParameters.tryFd_setFd, Function.update_apply]

theorem tryFd_removeFd_eq {n : ShellFd} : (params.removeFd n).tryFd shell =
    Function.update (params.tryFd shell) n none := by
  funext k
  rw [ExecutionParameters.tryFd_removeFd, Function.update_apply]

/-- **One operation** is done as it should be where it is plain, and only there. -/
theorem run_eq_apply_iff (op : FdOp) (h : op.run shell params = some params') :
    params'.tryFd shell = op.apply (params.tryFd shell) ↔ op.Plain (params.tryFd shell) := by
  cases op with
  | «open» n file =>
    obtain rfl := Option.some.inj h
    exact iff_of_true tryFd_setFd_eq trivial
  | dup n m =>
    obtain ⟨file, hfile, rfl⟩ := Option.map_eq_some_iff.1 h
    refine iff_of_true ?_ trivial
    rw [tryFd_setFd_eq, apply, hfile]
  | close n =>
    obtain rfl := Option.some.inj h
    exact iff_of_true tryFd_removeFd_eq trivial
  | move n m =>
    obtain ⟨file, hfile, rfl⟩ := Option.map_eq_some_iff.1 h
    rw [tryFd_removeFd_eq, tryFd_setFd_eq, apply, Plain, hfile]
    constructor
    · intro heq
      by_contra hne
      have hn := congrFun heq m
      rw [Function.update_of_ne (Ne.symm hne), Function.update_of_ne (Ne.symm hne),
        Function.update_self, hfile] at hn
      cases hn
    · rintro rfl
      rfl
  | install spare n file =>
    obtain rfl := Option.some.inj h
    rw [tryFd_setFd_eq, tryFd_setFd_eq, apply, Plain]
    constructor
    · intro heq
      by_cases hne : spare = n
      · exact Or.inl hne
      · have hs := congrFun heq spare
        rw [Function.update_of_ne hne, Function.update_of_ne hne, Function.update_self] at hs
        exact Or.inr hs.symm
    · rintro (rfl | hs)
      · rw [Function.update_idem]
      · rw [← hs, Function.update_eq_self]

end FdOp

def PlainFrom (v : View) : List FdOp → Prop
  | [] => True
  | op :: ops => op.Plain v ∧ PlainFrom (op.apply v) ops

theorem plainFrom_append {v : View} {ops ops' : List FdOp} : PlainFrom v (ops ++ ops') ↔
    PlainFrom v ops ∧ PlainFrom (ops.foldl FdOp.apply v) ops' := by
  induction ops generalizing v with
  | nil => simp [PlainFrom]
  | cons op ops ih => simp [PlainFrom, ih, and_assoc]

/-! ## What an item denotes -/

variable [Unicode]

section Denote

variable {E C : Type} (x : Around E C) (shell : RedirectShell) (params : ExecutionParameters Opened)

def namedFd (path : OsStr) : Option ShellFd :=
  if isNullDevicePath path then none else shellFdPathToFd (shell.absolutePath path)

/-- Opening a path at a number: a path that stands for a number is that number's file. -/
def placed (path : OsStr) (n : ShellFd) (file : OpenFile Opened) : FdOp :=
  match namedFd shell path with
  | some m => .dup n m
  | none => .open n file

def denoteOutput (path : OsStr) (append : Bool) : Op (World E) RedirectError (List FdOp) := do
  let file ← openForRedirect shell params (outputMode append) (shell.absolutePath path)
  pure [placed shell (shell.absolutePath path) OpenFiles.stdoutFd file,
    .dup OpenFiles.stderrFd OpenFiles.stdoutFd]

def denoteFilename (fd : Option ShellFd) (kind : IoFileRedirectKind) (word : Word) :
    Op (World E) RedirectError (List FdOp) := do
  let path ← redirectPath x shell params word
  let mode ← modeFor shell path kind
  let file ← openForRedirect shell params mode path
  pure [placed shell path (fd.getD (defaultFdForRedirectKind kind)) file]

def denoteFd (fd : Option ShellFd) (kind : IoFileRedirectKind) (source : ShellFd) :
    Op (World E) RedirectError (List FdOp) := do
  let n ← duplicateFd fd kind
  let _ ← sourceFile shell params source
  pure [.dup n source]

/-- What a word after `>&` or `<&` asks for, without its dash. -/
def denoteWord (n : ShellFd) (dash : Bool) (expanded : OsStr) :
    Op (World E) RedirectError (List FdOp) :=
  if expanded = [] then pure (if dash then [.close n] else [])
  else if allDigits expanded then
    match parseFd expanded with
    | none => .check (.error .invalidRedirection)
    | some source => do
      let _ ← sourceFile shell params source
      pure [if dash then .move n source else .dup n source]
  else if n = 1 ∧ dash = false then denoteOutput shell params expanded false
  else .check (.error .invalidRedirection)

def denoteDuplicate (fd : Option ShellFd) (kind : IoFileRedirectKind) (word : Word) :
    Op (World E) RedirectError (List FdOp) := do
  let n ← duplicateFd fd kind
  let field ← expandedField x params word
  denoteWord shell params n (stripDash field).2 (stripDash field).1

def denoteSubstitution (fd : Option ShellFd) (kind : IoFileRedirectKind)
    (substitution : ProcessSubstitutionKind) (command : C) :
    Op (World E) RedirectError (List FdOp) :=
  match kind with
  | .read | .write | .append | .readAndWrite | .clobber => do
    let (spare, file) ← setupProcessSubstitution x params substitution command
    pure [.install spare (fd.getD (defaultFdForRedirectKind kind)) file]
  | _ => .check (.error (.unimplemented (os "invalid process substitution")))

/-- What an item denotes. -/
def denote : IoRedirect C → Op (World E) RedirectError (List FdOp)
  | .outputAndError word append => do
    let path ← expandedField x params word
    denoteOutput shell params path append
  | .file fd kind (.filename word) => denoteFilename x shell params fd kind word
  | .file fd kind (.fd source) => denoteFd shell params fd kind source
  | .file fd kind (.duplicate word) => denoteDuplicate x shell params fd kind word
  | .file fd kind (.processSubstitution substitution command) =>
    denoteSubstitution x params fd kind substitution command
  | .hereDocument fd doc => do
    let contents ← hereContents x params doc
    let file ← setupOpenFileWithContents x contents
    pure [.open (fd.getD 0) file]
  | .hereString fd word => do
    let contents ← onOuter (x.basicExpandWord params word)
    let file ← setupOpenFileWithContents x (contents ++ [.chr '\n'])
    pure [.open (fd.getD 0) file]

/-- What a list denotes, each item where the earlier ones have been set up. -/
def denotes (params : ExecutionParameters Opened) :
    List (IoRedirect C) → Op (World E) RedirectError (List FdOp)
  | [] => pure []
  | r :: rs => do
    let ops ← denote x shell params r
    let rest ← denotes ((ops.foldlM (FdOp.run shell.openFiles) params).getD params) rs
    pure (ops ++ rest)

end Denote

/-! ## Setting up does what is denoted -/

section SetUp

variable {E C : Type} {x : Around E C} {shell : RedirectShell} {w w' : World E}
  {params params' : ExecutionParameters Opened}

omit [Unicode] in
theorem mapErr_eq_ok {α ε ε' : Type} {f : ε → ε'} {y : Op (World E) ε α} {a : α} :
    mapErr f y w = (.ok a, w') ↔ y w = (.ok a, w') := by
  unfold mapErr
  rcases y w with ⟨_ | _, _⟩ <;> simp [Except.mapError]

omit [Unicode] in
theorem onHost_eq_ok {α ε : Type} {y : Op Host ε α} {a : α} (h : onHost y w = (.ok a, w')) :
    ∃ host, y w.host = (.ok a, host) ∧ w' = { w with host } := by
  unfold onHost at h
  rcases hy : y w.host with ⟨r, host⟩
  rw [hy] at h
  obtain ⟨hval, hw⟩ := Prod.mk.inj h
  exact ⟨host, by rw [← hval], hw.symm⟩

omit [Unicode] in
theorem pure_eq_ok {α : Type} {a b : α} (h : (pure a : Op (World E) RedirectError α) w = (.ok b, w')) :
    a = b ∧ w = w' := ⟨Except.ok.inj (Prod.mk.inj h).1, (Prod.mk.inj h).2⟩

/-- What opening a path answers: the null device, what a number is open on, or a file of the
namespace. -/
inductive OpensTo (shell : RedirectShell) (params : ExecutionParameters Opened) (mode : OpenMode)
    (path : OsStr) (w : World E) : OpenFile Opened → World E → Prop
  | null {serial : Nat} (hnull : isNullDevicePath path = true)
      (hfile : shell.nullFile = .ok serial) :
      OpensTo shell params mode path w (.file ⟨serial, .null⟩) w
  | named {m : ShellFd} {file : OpenFile Opened} (hm : namedFd shell path = some m)
      (hfile : params.tryFd shell.openFiles m = some file) :
      OpensTo shell params mode path w file w
  | opened {p : VirtualPath} {file : File} {h : Host} (hnull : isNullDevicePath path = false)
      (hm : namedFd shell path = none)
      (hp : toVirtualPath shell.session (shell.absolutePath path) = .ok p)
      (hfile : shell.session.vfs.openWith p mode w.host = (.ok file, h)) :
      OpensTo shell params mode path w (.file ⟨w.opened, .named file⟩)
        { w with host := h, opened := w.opened + 1 }

theorem opensTo {mode : OpenMode} {path : OsStr} {file : OpenFile Opened}
    (h : openForRedirect shell params mode path w = (.ok file, w')) :
    OpensTo shell params mode path w file w' := by
  have h := mapErr_eq_ok.1 h
  unfold RedirectShell.openFile at h
  split_ifs at h with hnull
  · cases hfile : shell.nullFile with
    | error message =>
      rw [hfile] at h
      cases h
    | ok serial =>
      rw [hfile] at h
      obtain ⟨hval, rfl⟩ := Prod.mk.inj h
      obtain rfl := Except.ok.inj hval
      exact .null hnull hfile
  · dsimp only at h
    have hnamed : namedFd shell path = shellFdPathToFd (shell.absolutePath path) := if_neg hnull
    cases hm : shellFdPathToFd (shell.absolutePath path) with
    | some m =>
      rw [hm] at h
      dsimp only at h
      cases hfile : params.tryFd shell.openFiles m with
      | none =>
        rw [hfile] at h
        cases h
      | some f =>
        rw [hfile] at h
        obtain ⟨hval, rfl⟩ := Prod.mk.inj h
        obtain rfl := Except.ok.inj hval
        exact .named (hnamed.trans hm) hfile
    | none =>
      rw [hm] at h
      obtain ⟨p, w₁, hcheck, h⟩ := bind_eq_ok.1 h
      obtain ⟨hp, rfl⟩ := Prod.mk.inj hcheck
      obtain ⟨f, w₂, hopen, h⟩ := bind_eq_ok.1 h
      obtain ⟨host, hf, rfl⟩ := onHost_eq_ok hopen
      obtain ⟨opened, w₃, hnew, h⟩ := bind_eq_ok.1 h
      obtain ⟨hval, rfl⟩ := Prod.mk.inj h
      obtain rfl := Except.ok.inj hval
      obtain ⟨hserial, rfl⟩ := Prod.mk.inj hnew
      obtain rfl := Except.ok.inj hserial
      exact .opened (by simpa using hnull) (hnamed.trans hm) hp hf

theorem tryFd_of_open {mode : OpenMode} {path : OsStr} {file : OpenFile Opened} {m : ShellFd}
    (h : openForRedirect shell params mode path w = (.ok file, w'))
    (hm : namedFd shell path = some m) : params.tryFd shell.openFiles m = some file := by
  cases opensTo h with
  | null hnull _ =>
    rw [namedFd, if_pos hnull] at hm
    cases hm
  | named hm' hfile =>
    obtain rfl := Option.some.inj (hm.symm.trans hm')
    exact hfile
  | opened _ hm' _ _ =>
    rw [hm] at hm'
    cases hm'

theorem run_placed {mode : OpenMode} {path : OsStr} {n : ShellFd} {file : OpenFile Opened}
    (h : openForRedirect shell params mode path w = (.ok file, w')) :
    (placed shell path n file).run shell.openFiles params = some (params.setFd n file) := by
  unfold placed
  split
  · rename_i m hm
    rw [FdOp.run, tryFd_of_open h hm, Option.map_some]
  · rfl

theorem sourceFile_eq_ok {m : ShellFd} {file : OpenFile Opened}
    (h : sourceFile shell params m w = (.ok file, w')) :
    params.tryFd shell.openFiles m = some file ∧ w' = w := by
  unfold sourceFile at h
  cases hf : params.tryFd shell.openFiles m with
  | none =>
    rw [hf] at h
    cases h
  | some f =>
    rw [hf] at h
    obtain ⟨hval, rfl⟩ := Prod.mk.inj h
    exact ⟨congrArg some (Except.ok.inj hval), rfl⟩

theorem output_denoted {path : OsStr} {append : Bool}
    (h : setupRedirectOutputAndErrorTo shell params path append w = (.ok params', w')) :
    ∃ ops, denoteOutput shell params path append w = (.ok ops, w') ∧
      ops.foldlM (FdOp.run shell.openFiles) params = some params' := by
  obtain ⟨file, w₁, hfile, h⟩ := bind_eq_ok.1 h
  obtain ⟨hval, rfl⟩ := Prod.mk.inj h
  obtain rfl := Except.ok.inj hval
  refine ⟨_, bind_eq_ok.2 ⟨file, w₁, hfile, rfl⟩, ?_⟩
  rw [List.foldlM_cons, run_placed hfile]
  simp [FdOp.run]

theorem word_denoted {n : ShellFd} {expanded : OsStr} {dash : Bool}
    (h : (duplicateWord shell params n dash expanded >>= fun params =>
      pure (if dash then params.removeFd n else params)) w = (.ok params', w')) :
    ∃ ops, denoteWord shell params n dash expanded w = (.ok ops, w') ∧
      ops.foldlM (FdOp.run shell.openFiles) params = some params' := by
  obtain ⟨params₁, w₁, hset, hclose⟩ := bind_eq_ok.1 h
  clear h
  obtain ⟨rfl, rfl⟩ := pure_eq_ok hclose
  unfold denoteWord
  unfold duplicateWord at hset
  split_ifs at hset with hnil hdigits hboth
  · obtain ⟨rfl, rfl⟩ := pure_eq_ok hset
    rw [if_pos hnil]
    cases dash
    · exact ⟨_, rfl, rfl⟩
    · exact ⟨_, rfl, rfl⟩
  · rw [if_neg hnil, if_pos hdigits]
    cases hsource : parseFd expanded with
    | none =>
      rw [hsource] at hset
      cases hset
    | some source =>
      rw [hsource] at hset
      obtain ⟨file, w₂, hfile, hset⟩ := bind_eq_ok.1 hset
      obtain ⟨rfl, rfl⟩ := pure_eq_ok hset
      refine ⟨_, bind_eq_ok.2 ⟨file, w₂, hfile, rfl⟩, ?_⟩
      have hopen := (sourceFile_eq_ok hfile).1
      cases dash <;> simp [FdOp.run, hopen]
  · rw [if_neg hnil, if_neg hdigits, if_pos hboth, hboth.2]
    exact output_denoted hset
  · cases hset

/-- **An item** is set up by running what it denotes. -/
theorem setup_denoted {r : IoRedirect C}
    (h : setupRedirect x shell params r w = (.ok params', w')) :
    ∃ ops, denote x shell params r w = (.ok ops, w') ∧
      ops.foldlM (FdOp.run shell.openFiles) params = some params' := by
  cases r with
  | outputAndError word append =>
    obtain ⟨path, w₁, hpath, h⟩ := bind_eq_ok.1 h
    obtain ⟨ops, hops, hrun⟩ := output_denoted h
    exact ⟨ops, bind_eq_ok.2 ⟨path, w₁, hpath, hops⟩, hrun⟩
  | hereDocument fd doc =>
    obtain ⟨contents, w₁, hcontents, h⟩ := bind_eq_ok.1 h
    obtain ⟨file, w₂, hfile, h⟩ := bind_eq_ok.1 h
    obtain ⟨rfl, rfl⟩ := pure_eq_ok h
    exact ⟨_, bind_eq_ok.2 ⟨contents, w₁, hcontents, bind_eq_ok.2 ⟨file, w₂, hfile, rfl⟩⟩, rfl⟩
  | hereString fd word =>
    obtain ⟨contents, w₁, hcontents, h⟩ := bind_eq_ok.1 h
    obtain ⟨file, w₂, hfile, h⟩ := bind_eq_ok.1 h
    obtain ⟨rfl, rfl⟩ := pure_eq_ok h
    exact ⟨_, bind_eq_ok.2 ⟨contents, w₁, hcontents, bind_eq_ok.2 ⟨file, w₂, hfile, rfl⟩⟩, rfl⟩
  | file fd kind target =>
    cases target with
    | filename word =>
      obtain ⟨path, w₁, hpath, h⟩ := bind_eq_ok.1 h
      obtain ⟨mode, w₂, hmode, h⟩ := bind_eq_ok.1 h
      obtain ⟨file, w₃, hfile, h⟩ := bind_eq_ok.1 h
      obtain ⟨rfl, rfl⟩ := pure_eq_ok h
      refine ⟨_, bind_eq_ok.2 ⟨path, w₁, hpath, bind_eq_ok.2 ⟨mode, w₂, hmode,
        bind_eq_ok.2 ⟨file, w₃, hfile, rfl⟩⟩⟩, ?_⟩
      rw [List.foldlM_cons, run_placed hfile]
      rfl
    | fd source =>
      obtain ⟨n, w₁, hn, h⟩ := bind_eq_ok.1 h
      obtain ⟨file, w₂, hfile, h⟩ := bind_eq_ok.1 h
      obtain ⟨rfl, rfl⟩ := pure_eq_ok h
      refine ⟨_, bind_eq_ok.2 ⟨n, w₁, hn, bind_eq_ok.2 ⟨file, w₂, hfile, rfl⟩⟩, ?_⟩
      rw [List.foldlM_cons, FdOp.run, (sourceFile_eq_ok hfile).1]
      rfl
    | duplicate word =>
      obtain ⟨n, w₁, hn, h⟩ := bind_eq_ok.1 h
      obtain ⟨field, w₂, hfield, h⟩ := bind_eq_ok.1 h
      obtain ⟨ops, hops, hrun⟩ := word_denoted h
      exact ⟨ops, bind_eq_ok.2 ⟨n, w₁, hn, bind_eq_ok.2 ⟨field, w₂, hfield, hops⟩⟩, hrun⟩
    | processSubstitution substitution command =>
      cases kind with
      | duplicateInput | duplicateOutput => cases h
      | read | write | append | readAndWrite | clobber =>
        obtain ⟨⟨spare, file⟩, w₁, hfile, h⟩ := bind_eq_ok.1 h
        obtain ⟨rfl, rfl⟩ := pure_eq_ok h
        exact ⟨_, bind_eq_ok.2 ⟨(spare, file), w₁, hfile, rfl⟩, rfl⟩

theorem setups_denoted {rs : List (IoRedirect C)}
    (h : setupRedirects x shell params rs w = (.ok params', w')) :
    ∃ ops, denotes x shell params rs w = (.ok ops, w') ∧
      ops.foldlM (FdOp.run shell.openFiles) params = some params' := by
  induction rs generalizing params w with
  | nil =>
    obtain ⟨rfl, rfl⟩ := pure_eq_ok h
    exact ⟨[], rfl, rfl⟩
  | cons r rs ih =>
    obtain ⟨params₁, w₁, hr, hrest⟩ := bind_eq_ok.1 h
    obtain ⟨ops, hops, hrun⟩ := setup_denoted hr
    obtain ⟨rest, hrestops, hrestrun⟩ := ih hrest
    refine ⟨ops ++ rest, bind_eq_ok.2 ⟨ops, w₁, hops, bind_eq_ok.2 ⟨rest, w', ?_, rfl⟩⟩, ?_⟩
    · rw [hrun]
      exact hrestops
    · rw [List.foldlM_append, hrun]
      exact hrestrun

/-! ## The fold -/

def foldOps (v : View) (ops : List FdOp) : View := ops.foldl FdOp.apply v

omit [Unicode] in
theorem run_of_plain {sh : OpenFiles Opened} {ops : List FdOp}
    (h : ops.foldlM (FdOp.run sh) params = some params') (hplain : PlainFrom (params.tryFd sh) ops) :
    params'.tryFd sh = foldOps (params.tryFd sh) ops := by
  induction ops generalizing params with
  | nil =>
    obtain rfl := Option.some.inj h
    rfl
  | cons op ops ih =>
    rw [List.foldlM_cons] at h
    obtain ⟨params₁, hop, hops⟩ := Option.bind_eq_some_iff.1 h
    have hview := (FdOp.run_eq_apply_iff op hop).2 hplain.1
    rw [ih hops (by rw [hview]; exact hplain.2), hview]
    rfl

theorem denote_one {r : IoRedirect C} {ops : List FdOp}
    (h : denote x shell params r w = (.ok ops, w')) :
    (∃ op, ops = [op]) ∨ ∀ v, PlainFrom v ops := by
  have hout : ∀ {path append} {w₁ : World E},
      denoteOutput shell params path append w₁ = (.ok ops, w') → ∀ v, PlainFrom v ops := by
    intro path append w₁ hops v
    obtain ⟨file, w₂, -, hops⟩ := bind_eq_ok.1 hops
    obtain ⟨rfl, -⟩ := pure_eq_ok hops
    refine ⟨?_, trivial, trivial⟩
    unfold placed
    cases namedFd shell (shell.absolutePath path) <;> trivial
  cases r with
  | outputAndError word append =>
    obtain ⟨path, w₁, -, h⟩ := bind_eq_ok.1 h
    exact Or.inr (hout h)
  | hereDocument fd doc =>
    obtain ⟨contents, w₁, -, h⟩ := bind_eq_ok.1 h
    obtain ⟨file, w₂, -, h⟩ := bind_eq_ok.1 h
    exact Or.inl ⟨_, (pure_eq_ok h).1.symm⟩
  | hereString fd word =>
    obtain ⟨contents, w₁, -, h⟩ := bind_eq_ok.1 h
    obtain ⟨file, w₂, -, h⟩ := bind_eq_ok.1 h
    exact Or.inl ⟨_, (pure_eq_ok h).1.symm⟩
  | file fd kind target =>
    cases target with
    | filename word =>
      obtain ⟨path, w₁, -, h⟩ := bind_eq_ok.1 h
      obtain ⟨mode, w₂, -, h⟩ := bind_eq_ok.1 h
      obtain ⟨file, w₃, -, h⟩ := bind_eq_ok.1 h
      exact Or.inl ⟨_, (pure_eq_ok h).1.symm⟩
    | fd source =>
      obtain ⟨n, w₁, -, h⟩ := bind_eq_ok.1 h
      obtain ⟨file, w₂, -, h⟩ := bind_eq_ok.1 h
      exact Or.inl ⟨_, (pure_eq_ok h).1.symm⟩
    | duplicate word =>
      obtain ⟨n, w₁, -, h⟩ := bind_eq_ok.1 h
      obtain ⟨field, w₂, -, h⟩ := bind_eq_ok.1 h
      unfold denoteWord at h
      by_cases hnil : (stripDash field).1 = []
      · rw [if_pos hnil] at h
        obtain ⟨rfl, -⟩ := pure_eq_ok h
        cases (stripDash field).2
        · exact Or.inr fun _ => trivial
        · exact Or.inl ⟨_, rfl⟩
      · rw [if_neg hnil] at h
        by_cases hdigits : allDigits (stripDash field).1 = true
        · rw [if_pos hdigits] at h
          cases hsource : parseFd (stripDash field).1 with
          | none =>
            rw [hsource] at h
            cases h
          | some source =>
            rw [hsource] at h
            obtain ⟨file, w₃, -, h⟩ := bind_eq_ok.1 h
            exact Or.inl ⟨_, (pure_eq_ok h).1.symm⟩
        · rw [if_neg hdigits] at h
          split_ifs at h with hboth
          · exact Or.inr (hout h)
          · cases h
    | processSubstitution substitution command =>
      cases kind with
      | duplicateInput | duplicateOutput => cases h
      | read | write | append | readAndWrite | clobber =>
        obtain ⟨⟨spare, file⟩, w₁, -, h⟩ := bind_eq_ok.1 h
        exact Or.inl ⟨_, (pure_eq_ok h).1.symm⟩

theorem item_iff {r : IoRedirect C} {ops : List FdOp}
    (h : denote x shell params r w = (.ok ops, w'))
    (hrun : ops.foldlM (FdOp.run shell.openFiles) params = some params') :
    params'.tryFd shell.openFiles = foldOps (params.tryFd shell.openFiles) ops ↔
      PlainFrom (params.tryFd shell.openFiles) ops := by
  refine ⟨fun hview => ?_, run_of_plain hrun⟩
  obtain ⟨op, rfl⟩ | hplain := denote_one h
  · obtain ⟨params₁, hop, hnil⟩ := Option.bind_eq_some_iff.1 (List.foldlM_cons.symm.trans hrun)
    obtain rfl := Option.some.inj hnil
    exact ⟨(FdOp.run_eq_apply_iff op hop).1 hview, trivial⟩
  · exact hplain _

end SetUp

/-- Every part of the list set up from its front leaves the fold of what it denotes. -/
def FoldsTo {E C : Type} (x : Around E C) (shell : RedirectShell)
    (params : ExecutionParameters Opened) (w : World E) (rs : List (IoRedirect C)) : Prop :=
  ∀ front, front <+: rs → ∀ params' w', setupRedirects x shell params front w = (.ok params', w') →
    ∃ ops, denotes x shell params front w = (.ok ops, w') ∧
      params'.tryFd shell.openFiles = foldOps (params.tryFd shell.openFiles) ops

section Lists

variable {E C : Type} {x : Around E C} {shell : RedirectShell} {w w' : World E}
  {params params' : ExecutionParameters Opened}

theorem denotes_cons {r : IoRedirect C} {rs : List (IoRedirect C)} {ops rest : List FdOp}
    {params₁ : ExecutionParameters Opened} {w₁ : World E}
    (h : denote x shell params r w = (.ok ops, w₁))
    (hrun : ops.foldlM (FdOp.run shell.openFiles) params = some params₁)
    (hrest : denotes x shell params₁ rs w₁ = (.ok rest, w')) :
    denotes x shell params (r :: rs) w = (.ok (ops ++ rest), w') := by
  refine bind_eq_ok.2 ⟨ops, w₁, h, bind_eq_ok.2 ⟨rest, w', ?_, rfl⟩⟩
  rw [hrun]
  exact hrest

/-- **The fold.** A list that is accepted leaves the fold of its operations, however far it is set up,
exactly where each of them is plain. -/
theorem foldsTo_iff {rs : List (IoRedirect C)} {ops : List FdOp}
    (h : setupRedirects x shell params rs w = (.ok params', w'))
    (hops : denotes x shell params rs w = (.ok ops, w')) :
    FoldsTo x shell params w rs ↔ PlainFrom (params.tryFd shell.openFiles) ops := by
  induction rs generalizing params w ops with
  | nil =>
    obtain ⟨rfl, rfl⟩ := pure_eq_ok hops
    refine iff_of_true ?_ trivial
    intro front hfront params₁ w₁ hset
    obtain rfl := List.prefix_nil.1 hfront
    obtain ⟨rfl, rfl⟩ := pure_eq_ok hset
    exact ⟨[], rfl, rfl⟩
  | cons r rs ih =>
    obtain ⟨params₁, w₁, hr, hrest⟩ := bind_eq_ok.1 h
    obtain ⟨one, hone, hrun⟩ := setup_denoted hr
    obtain ⟨rest, hrestops, -⟩ := setups_denoted hrest
    obtain rfl : one ++ rest = ops :=
      Except.ok.inj (Prod.mk.inj ((denotes_cons hone hrun hrestops).symm.trans hops)).1
    have ih := ih hrest hrestops
    have hfront : ∀ {front p₂ w₂}, setupRedirects x shell params₁ front w₁ = (.ok p₂, w₂) →
        setupRedirects x shell params (r :: front) w = (.ok p₂, w₂) :=
      fun hset => bind_eq_ok.2 ⟨params₁, w₁, hr, hset⟩
    rw [plainFrom_append, ← item_iff hone hrun]
    constructor
    · intro hfolds
      have hview : params₁.tryFd shell.openFiles =
          foldOps (params.tryFd shell.openFiles) one := by
        obtain ⟨ops, hops, hview⟩ := hfolds [r] (by simp) params₁ w₁ (hfront rfl)
        have hsame := (denotes_cons hone hrun (rfl : denotes x shell params₁ [] w₁ = _)).symm.trans
          hops
        rw [← Except.ok.inj (Prod.mk.inj hsame).1, List.append_nil] at hview
        exact hview
      refine ⟨hview, ?_⟩
      rw [show one.foldl FdOp.apply (params.tryFd shell.openFiles) = _ from hview.symm]
      refine ih.1 fun front hpre p₂ w₂ hset => ?_
      obtain ⟨ops, hops, hview₂⟩ := hfolds (r :: front) ((List.prefix_cons_inj r).2 hpre) p₂ w₂
        (hfront hset)
      obtain ⟨rest', hrest', -⟩ := setups_denoted hset
      refine ⟨rest', hrest', ?_⟩
      have hsame := (denotes_cons hone hrun hrest').symm.trans hops
      rw [← Except.ok.inj (Prod.mk.inj hsame).1, foldOps, List.foldl_append] at hview₂
      rw [hview₂, hview]
      rfl
    · rintro ⟨hview, hplain⟩ front hpre p₂ w₂ hset
      rw [show one.foldl FdOp.apply (params.tryFd shell.openFiles) = _ from hview.symm] at hplain
      cases front with
      | nil =>
        obtain ⟨rfl, rfl⟩ := pure_eq_ok hset
        exact ⟨[], rfl, rfl⟩
      | cons r' front =>
        obtain ⟨rfl, hpre'⟩ := List.cons_prefix_cons.1 hpre
        obtain ⟨p₁, w₁', hr', hset⟩ := bind_eq_ok.1 hset
        obtain ⟨hp, rfl⟩ := Prod.mk.inj (hr'.symm.trans hr)
        obtain rfl := Except.ok.inj hp
        obtain ⟨rest', hrest', hview₂⟩ := ih.2 hplain front hpre' p₂ w₂ hset
        refine ⟨one ++ rest', denotes_cons hone hrun hrest', ?_⟩
        rw [hview₂, hview, foldOps, foldOps, foldOps, List.foldl_append]

end Lists

/-! ## Not clobbering -/

def FileObject.OnRegular (h : Host) : FileObject → Prop
  | .named file => IsRegular (h.tree file.dev) file.node
  | _ => False

/-- A file of the shell that is open on a regular file of the namespace. -/
def OnRegular (shell : RedirectShell) (h : Host) : OpenFile Opened → Prop
  | .stdin => shell.started.1.OnRegular h
  | .stdout => shell.started.2.1.OnRegular h
  | .stderr => shell.started.2.2.OnRegular h
  | .file f => f.object.OnRegular h
  | .pipeReader _ | .pipeWriter _ | .stream _ _ => False

section Clobber

variable {E C : Type}

/-- A `>` under `noclobber`, its word expanded, truncates no regular file, and its number is open on
none that was there. -/
def Spared (x : Around E C) (shell : RedirectShell) (params : ExecutionParameters Opened)
    (w : World E) (params' : ExecutionParameters Opened) (w' : World E) : IoRedirect C → Prop
  | .file fd .write (.filename word) => shell.disallowOverwritingRegularFiles = true →
    ∀ path w₁, redirectPath x shell params word w = (.ok path, w₁) →
      (∀ i n, IsRegular (w₁.host.tree i) n →
        (w'.host.tree i).attr n.ino = (w₁.host.tree i).attr n.ino) ∧
      ∀ f, params'.tryFd shell.openFiles (fd.getD 1) = some f → ¬ OnRegular shell w₁.host f
  | _ => True

/-- The path of a `>` under `noclobber` stands for no number that is open on a regular file, and the
check looks where the file is opened. -/
def Guarded (x : Around E C) (shell : RedirectShell) (params : ExecutionParameters Opened)
    (w : World E) : IoRedirect C → Prop
  | .file _ .write (.filename word) => shell.disallowOverwritingRegularFiles = true →
    ∀ path w₁, redirectPath x shell params word w = (.ok path, w₁) →
      (∀ m f, namedFd shell path = some m → params.tryFd shell.openFiles m = some f →
        ¬ OnRegular shell w₁.host f) ∧
      ∀ p, isNullDevicePath path = false → namedFd shell path = none →
        toVirtualPath shell.session path = .ok p →
        ¬ LooksElsewhere shell.session.vfs w₁.host p
  | _ => True

variable {x : Around E C} {shell : RedirectShell} {w w' : World E}
  {params params' : ExecutionParameters Opened}

theorem absolutePath_idem (path : OsStr) :
    shell.absolutePath (shell.absolutePath path) = shell.absolutePath path := by
  have hbase := shell.absolute
  have habs : shell.absolutePath path = [] ∨ (shell.absolutePath path).isAbsolute = true := by
    rw [RedirectShell.absolutePath]
    split_ifs with h
    · simpa using h
    · right
      cases hw : shell.workingDir with
      | nil =>
        rw [hw] at hbase
        cases hbase
      | cons a base =>
        rw [hw] at hbase
        rw [joinPath]
        split_ifs with hpath
        · exact hpath
        · exact hbase
        · exact hbase
  rw [RedirectShell.absolutePath, if_pos]
  simpa using habs

theorem redirectPath_eq_ok {word : Word} {path : OsStr} {w₁ : World E}
    (h : redirectPath x shell params word w = (.ok path, w₁)) :
    shell.absolutePath path = path := by
  obtain ⟨field, w₂, -, h⟩ := bind_eq_ok.1 h
  obtain ⟨rfl, -⟩ := pure_eq_ok h
  exact absolutePath_idem field

theorem modeFor_write {path : OsStr} {mode : OpenMode} {w₁ : World E}
    (hno : shell.disallowOverwritingRegularFiles = true)
    (h : modeFor shell path .write w = (.ok mode, w₁)) : w₁ = w ∧
      ∀ p, toVirtualPath shell.session path = .ok p →
        ∃ found, (shell.session.vfs.facts p true w.host).1 = .ok found ∧
          mode = guardedMode (found.any FileFacts.isFile) := by
  rw [modeFor, if_pos hno] at h
  obtain ⟨isFile, w₂, hfile, h⟩ := bind_eq_ok.1 h
  obtain ⟨rfl, rfl⟩ := pure_eq_ok h
  unfold isRegularFile at hfile
  cases hp : toVirtualPath shell.session path with
  | error e =>
    rw [hp] at hfile
    obtain ⟨-, rfl⟩ := pure_eq_ok hfile
    exact ⟨rfl, fun p hp' => by cases hp'⟩
  | ok p =>
    rw [hp] at hfile
    obtain ⟨found, w₃, hfound, hfile⟩ := bind_eq_ok.1 hfile
    obtain ⟨host, hfacts, rfl⟩ := onHost_eq_ok (mapErr_eq_ok.1 hfound)
    have hhost : host = w.host := by
      have hkeep : (shell.session.vfs.facts p true w.host).2 = w.host := reads_facts w.host
      rwa [hfacts] at hkeep
    have hfile : found.any FileFacts.isFile = isFile ∧ w₂ = { w with host } := by
      cases found with
      | none =>
        obtain ⟨rfl, rfl⟩ := pure_eq_ok hfile
        exact ⟨rfl, rfl⟩
      | some facts =>
        obtain ⟨rfl, rfl⟩ := pure_eq_ok hfile
        exact ⟨rfl, rfl⟩
    refine ⟨?_, ?_⟩
    · rw [hfile.2, hhost]
    · intro p' hp'
      obtain rfl := Except.ok.inj hp'
      exact ⟨found, by rw [hfacts], by rw [hfile.1]⟩

/-- **An item spares** the regular files there are exactly where it is guarded. -/
theorem spared_iff {r : IoRedirect C}
    (h : setupRedirect x shell params r w = (.ok params', w')) :
    Spared x shell params w params' w' r ↔ Guarded x shell params w r := by
  unfold Spared Guarded
  split
  · rename_i fd word
    refine forall_congr' fun hno => forall₂_congr fun path w₁ => forall_congr' fun hpath => ?_
    obtain ⟨path', w₁', hpath', hset⟩ := bind_eq_ok.1 h
    obtain ⟨mode, w₂, hmode, hset⟩ := bind_eq_ok.1 hset
    obtain ⟨file, w₃, hfile, hset⟩ := bind_eq_ok.1 hset
    obtain ⟨hparams, hw⟩ := pure_eq_ok hset
    obtain ⟨hsame, rfl⟩ := Prod.mk.inj (hpath'.symm.trans hpath)
    obtain rfl := Except.ok.inj hsame
    obtain ⟨rfl, hguard⟩ := modeFor_write hno hmode
    have hat : ∀ f, params'.tryFd shell.openFiles (fd.getD 1) = some f ↔ file = f := by
      intro f
      rw [← hparams, ExecutionParameters.tryFd_setFd, if_pos (by rfl), Option.some.injEq]
    simp only [hat, forall_eq', ← hw]
    have hfound := opensTo hfile
    clear h hset hfile
    cases hfound with
    | null hnull hserial =>
      have hnone : namedFd shell path' = none := if_pos hnull
      refine iff_of_true ⟨fun _ _ _ => rfl, fun hon => hon⟩ ⟨?_, ?_⟩
      · intro m f hm
        rw [hnone] at hm
        cases hm
      · intro p hnull'
        rw [hnull] at hnull'
        cases hnull'
    | named hm hopen =>
      constructor
      · rintro ⟨-, hspared⟩
        refine ⟨fun m f hm' hf => ?_, fun p _ hnone => ?_⟩
        · obtain rfl := Option.some.inj (hm.symm.trans hm')
          obtain rfl := Option.some.inj (hopen.symm.trans hf)
          exact hspared
        · rw [hm] at hnone
          cases hnone
      · rintro ⟨hspared, -⟩
        exact ⟨fun _ _ _ => rfl, hspared _ _ hm hopen⟩
    | opened hnull hm hp hopen =>
      rw [redirectPath_eq_ok hpath] at hp
      obtain ⟨found, hfacts, rfl⟩ := hguard _ hp
      have hspares := spares_iff hfacts hopen
      constructor
      · intro hspared
        refine ⟨fun m f hm' => ?_, fun p _ _ hp' => ?_⟩
        · rw [hm] at hm'
          cases hm'
        · obtain rfl := Except.ok.inj (hp.symm.trans hp')
          exact hspares.1 hspared
      · rintro ⟨-, hlooks⟩
        exact hspares.2 (hlooks _ hnull hm hp)
  · exact Iff.rfl

end Clobber

/-! ## Lists of redirections -/

section Main

variable {E C : Type}

/-- Every item of the list meets a condition where it is set up, with what it leaves. -/
def Everywhere (x : Around E C) (shell : RedirectShell) (params : ExecutionParameters Opened)
    (w : World E) (rs : List (IoRedirect C))
    (P : ExecutionParameters Opened → World E → ExecutionParameters Opened → World E →
      IoRedirect C → Prop) : Prop :=
  ∀ front r, front ++ [r] <+: rs → ∀ p₁ w₁ p₂ w₂,
    setupRedirects x shell params front w = (.ok p₁, w₁) →
    setupRedirect x shell p₁ r w₁ = (.ok p₂, w₂) → P p₁ w₁ p₂ w₂ r

/-- `noclobber` spares every regular file that is there. -/
def NeverClobbers (x : Around E C) (shell : RedirectShell) (params : ExecutionParameters Opened)
    (w : World E) (rs : List (IoRedirect C)) : Prop :=
  Everywhere x shell params w rs (Spared x shell)

variable {x : Around E C} {shell : RedirectShell} {w w' : World E}
  {params params' : ExecutionParameters Opened}

/-- **Redirections.** A list that is accepted leaves the fold of the operations it denotes, however
far it is set up, and `noclobber` spares the regular files there are, exactly where no item moves a
descriptor to another number or holds a substitution at another one, no `>` under `noclobber` names a
number open on a regular file, and its check looks where its file is opened. -/
theorem redirects_iff {rs : List (IoRedirect C)}
    (h : setupRedirects x shell params rs w = (.ok params', w')) :
    (FoldsTo x shell params w rs ∧ NeverClobbers x shell params w rs) ↔
      (∀ ops, denotes x shell params rs w = (.ok ops, w') →
        PlainFrom (params.tryFd shell.openFiles) ops) ∧
      Everywhere x shell params w rs fun p₁ w₁ _ _ => Guarded x shell p₁ w₁ := by
  obtain ⟨ops, hops, -⟩ := setups_denoted h
  refine and_congr ?_ ?_
  · rw [foldsTo_iff h hops]
    constructor
    · intro hplain ops' hops'
      obtain rfl := Except.ok.inj (Prod.mk.inj (hops.symm.trans hops')).1
      exact hplain
    · intro hplain
      exact hplain ops hops
  · constructor
    · intro hspared front r hfront p₁ w₁ p₂ w₂ hset hr
      exact (spared_iff hr).1 (hspared front r hfront p₁ w₁ p₂ w₂ hset hr)
    · intro hguard front r hfront p₁ w₁ p₂ w₂ hset hr
      exact (spared_iff hr).2 (hguard front r hfront p₁ w₁ p₂ w₂ hset hr)

end Main

end Seahaven.Shell

/-! ## A moved descriptor -/

namespace Seahaven.Shell

open Vfs Host Op

section Fixture

attribute [local instance] composed

/-- Words stand for themselves, and everything can be made. -/
def literally : Around Unit Unit where
  fullExpandAndSplitWord _ word := pure [word.value]
  basicExpandHeredocWord _ word := pure word.value
  basicExpandWord _ word := pure word.value
  tempfile _ := pure ()
  pipe := pure ()
  spawn _ _ s := s

/-- A shell in `/work` under `noclobber`. -/
def workShell : RedirectShell where
  openFiles := .new
  disallowOverwritingRegularFiles := true
  workingDir := os "/work"
  absolute := by decide
  session := ⟨vendorVfs, ⟨[os "work"], work_valid⟩⟩
  nullFile := .ok 0
  started := (.other, .other, .other)

/-- A command with `4` open on a pipe. -/
def onFour : ExecutionParameters Opened :=
  (⟨.empty⟩ : ExecutionParameters Opened).setFd 4 (.pipeReader ⟨1, .pipe⟩)

/-- `3>&4-`. -/
def moveFour : IoRedirect Unit := .file (some 3) .duplicateOutput (.duplicate ⟨os "4-"⟩)

/-- **A move** closes the number it moves to: `3>&4-` leaves `3` closed and `4` open. -/
theorem moveFour_lost : ∃ params' w', setupRedirects literally workShell onFour [moveFour]
      ⟨(), vendorHost, 2⟩ = (.ok params', w') ∧
    params'.tryFd workShell.openFiles 3 = none ∧
    params'.tryFd workShell.openFiles 4 = some (.pipeReader ⟨1, .pipe⟩) ∧
    ¬ FoldsTo literally workShell onFour ⟨(), vendorHost, 2⟩ [moveFour] := by
  refine ⟨_, _, rfl, rfl, rfl, fun hfolds => ?_⟩
  obtain ⟨ops, hops, hview⟩ := hfolds [moveFour] List.prefix_rfl _ _ rfl
  obtain rfl := Except.ok.inj (Prod.mk.inj hops).1
  exact absurd (congrFun hview 3) (by decide)

/-- `5>&4 4<&-`. -/
def copyFour : List (IoRedirect Unit) :=
  [.file (some 5) .duplicateOutput (.fd 4), .file (some 4) .duplicateInput (.duplicate ⟨os "-"⟩)]

/-- A move written as a duplication and a closing is one. -/
theorem copyFour_kept : ∃ params' w', setupRedirects literally workShell onFour copyFour
      ⟨(), vendorHost, 2⟩ = (.ok params', w') ∧
    FoldsTo literally workShell onFour ⟨(), vendorHost, 2⟩ copyFour ∧
    NeverClobbers literally workShell onFour ⟨(), vendorHost, 2⟩ copyFour := by
  have hset : ∃ params' w', setupRedirects literally workShell onFour copyFour
      ⟨(), vendorHost, 2⟩ = (.ok params', w') := ⟨_, _, rfl⟩
  obtain ⟨params', w', hset⟩ := hset
  refine ⟨params', w', hset, (redirects_iff hset).2 ⟨?_, ?_⟩⟩
  · intro ops hops
    obtain rfl := Except.ok.inj (Prod.mk.inj ((rfl : denotes literally workShell onFour copyFour
      ⟨(), vendorHost, 2⟩ = (.ok [.dup 5 4, .close 4], _)).symm.trans hops)).1
    exact ⟨trivial, trivial, trivial⟩
  · intro front r hfront p₁ w₁ p₂ w₂ _ _
    have hr : r ∈ copyFour := hfront.subset (by simp)
    rcases List.mem_pair.1 hr with rfl | rfl <;> trivial

end Fixture

end Seahaven.Shell
