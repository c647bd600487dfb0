import Seahaven.Shell.HostText

/-!
# The flags of a confined shell

A `sh` that a confined run calls is the shell itself, and `normalize_shell_flags` rewrites the
arguments of the call for a parser that knows no `-c` within a group.

1. `ShellCall`: the arguments a shell accepts, as the words they are made of. `posixRead_args`: what
   a shell reads in them.
2. `getopt`: the parser the rewritten arguments are for. `getopt_render` is what it makes of one
   group.
3. `keepsMeaning_iff`: the calls whose rewritten arguments mean the same.
-/

namespace Seahaven.ShellFlags

open OsStr

/-! ## Calls -/

abbrev dash : OsChar := .chr '-'

/-- A flag of a group. `-o` and `-O` come with a name, which stands behind the group. -/
inductive Flag
  | letter (x : Char)
  | command
  | option (name : OsStr)
  | shopt (name : OsStr)
  deriving DecidableEq

namespace Flag

def char : Flag → OsChar
  | letter x => .chr x
  | command => .chr 'c'
  | option _ => .chr 'o'
  | shopt _ => .chr 'O'

def name : Flag → Option OsStr
  | option n => some n
  | shopt n => some n
  | _ => none

def Takes : Flag → Prop
  | letter _ => False
  | _ => True

instance (f : Flag) : Decidable f.Takes := by
  cases f <;> unfold Takes <;> infer_instance

def Ok : Flag → Prop
  | letter x => x.isAlpha = true ∧ x ≠ 'c' ∧ x ≠ 'o' ∧ x ≠ 'O'
  | command => True
  | option n => n.head? ≠ some dash
  | shopt n => n.head? ≠ some dash

end Flag

abbrev Group := List Flag

namespace Group

def letters (g : Group) : OsStr := g.map Flag.char

def names (g : Group) : List OsStr := g.filterMap Flag.name

def render (g : Group) : List OsStr := (dash :: letters g) :: names g

/-- What a group sets: its letters, and its names with the letter each stands for. -/
def options (g : Group) : List (OsChar × Option OsStr) :=
  (g.filter fun f => ¬ f.Takes).map (fun f => (f.char, none)) ++
    (g.filter fun f => f.name.isSome).map fun f => (f.char, f.name)

structure Ok (g : Group) : Prop where
  nonempty : g ≠ []
  flags : ∀ f ∈ g, f.Ok

end Group

/-- The arguments of a call with a command string. -/
structure ShellCall where
  groups : List Group
  command : OsStr
  /-- `$0` and the positional parameters. -/
  operands : List OsStr
  ok : ∀ g ∈ groups, g.Ok
  called : ∃ g ∈ groups, Flag.command ∈ g
  /-- The command string starts as no flag does. -/
  plain : command.head? ≠ some dash ∧ command.head? ≠ some (.chr '+')

namespace ShellCall

def args (call : ShellCall) : List OsStr :=
  call.groups.flatMap Group.render ++ call.command :: call.operands

def options (call : ShellCall) : List (OsChar × Option OsStr) := call.groups.flatMap Group.options

end ShellCall

/-! ## The rewriting -/

/-- `char::is_ascii_alphabetic`. -/
def isAsciiAlphabetic : OsChar → Bool
  | .chr c => c.isAlpha
  | .raw _ => false

/-- The flags of a combined group: `-` and then one letter or more. -/
def groupBody : OsStr → Option OsStr
  | .chr '-' :: body =>
    if body ≠ [] ∧ body.head? ≠ some dash ∧ body.all isAsciiAlphabetic = true then some body else none
  | _ => none

/-- The state of the loop. -/
structure Normalizing where
  shortFlags : OsStr
  rest : List OsStr
  stillFlags : Bool

/-- One argument. -/
def normalizeArg (st : Normalizing) (arg : OsStr) : Normalizing :=
  let text := arg.toStringLossy
  match if st.stillFlags then groupBody text else none with
  | some body =>
    let shortFlags := st.shortFlags ++ body
    { st with
      shortFlags := shortFlags
      stillFlags := if .chr 'c' ∈ shortFlags then false else st.stillFlags }
  | none => { st with stillFlags := false, rest := st.rest ++ [text] }

/-- The arguments a state stands for, `-c` behind the other flags. -/
def Normalizing.out (st : Normalizing) : List OsStr :=
  (st.shortFlags.filter (· ≠ .chr 'c')).map (fun c => [dash, c]) ++
    (if .chr 'c' ∈ st.shortFlags then [os "-c"] else []) ++ st.rest

/-- Normalizes a `sh`-style argument list. -/
def normalizeShellFlags (shellArgs : List OsStr) : List OsStr :=
  (shellArgs.foldl normalizeArg ⟨[], [], true⟩).out

/-! ## Reading arguments -/

def takers : List OsChar := [.chr 'c', .chr 'o', .chr 'O']

/-- What a shell reads: its settings, the command string and the operands. -/
structure PosixReading where
  options : List (OsChar × Option OsStr)
  command : OsStr
  operands : List OsStr
  deriving DecidableEq

/-- How a shell reads its arguments: the names of `-o` and `-O` stand behind the group, and flags end
with the first argument that is none. -/
def posixLoop : List OsChar → List OsStr → List (OsChar × Option OsStr) × Bool × List OsStr
  | k :: wanted, v :: rest =>
    let (options, command, operands) := posixLoop wanted rest
    ((k, some v) :: options, command, operands)
  | _, [] => ([], false, [])
  | [], arg :: rest =>
    if arg.head? = some dash then
      let body := arg.drop 1
      let wanted := body.filter fun x => x = .chr 'o' || x = .chr 'O'
      let (options, command, operands) := posixLoop wanted rest
      ((body.filter fun x => x ∉ takers).map (fun x => (x, none)) ++ options,
        command || .chr 'c' ∈ body, operands)
    else ([], false, arg :: rest)

def posixRead (args : List OsStr) : Option PosixReading :=
  match posixLoop [] args with
  | (options, true, command :: operands) => some ⟨options, command, operands⟩
  | _ => none

/-- What the parser makes of arguments: what is set, in order, and the operands. -/
structure Parsed where
  settings : List (OsChar × Option OsStr)
  operands : List OsStr
  deriving DecidableEq

/-- The letters of a group up to the first that takes a text, and what stands behind it. -/
def readLetters : OsStr → OsStr × Option (OsChar × OsStr)
  | [] => ([], none)
  | x :: body =>
    if x ∈ takers then ([], some (x, body))
    else (x :: (readLetters body).1, (readLetters body).2)

/-- Whether an argument is a flag. `--` is an operand, and so is what stands behind it. -/
def isOption (arg : OsStr) : Bool := arg.head? = some dash ∧ arg ≠ [dash] ∧ arg ≠ [dash, dash]

def Parsed.add (s : List (OsChar × Option OsStr)) (p : Parsed) : Parsed :=
  ⟨s ++ p.settings, p.operands⟩

def plainOf (flags : OsStr) : List (OsChar × Option OsStr) := flags.map fun x => (x, none)

/-- A parser in which `-c`, `-o` and `-O` take the rest of their group, or the next argument where
they end it. Flags end with the first operand. -/
def getopt : List OsStr → Option Parsed
  | [] => some ⟨[], []⟩
  | arg :: rest =>
    if isOption arg then
      match readLetters (arg.drop 1) with
      | (flags, none) => (getopt rest).map (Parsed.add (plainOf flags))
      | (flags, some (k, [])) =>
        match rest with
        | [] => none
        | v :: rest => (getopt rest).map (Parsed.add (plainOf flags ++ [(k, some v)]))
      | (flags, some (k, v)) => (getopt rest).map (Parsed.add (plainOf flags ++ [(k, some v)]))
    else some ⟨[], arg :: rest⟩

namespace Parsed

def commands (p : Parsed) : List OsStr :=
  p.settings.filterMap fun s => if s.1 = .chr 'c' then s.2 else none

def options (p : Parsed) : List (OsChar × Option OsStr) :=
  p.settings.filter fun s => s.1 ≠ .chr 'c'

end Parsed

/-- The parser reads what a shell reads: the same set of options, the same command string, the same
`$0` and the same positional parameters. -/
structure Agrees (p : Parsed) (r : PosixReading) : Prop where
  options : ∀ o, o ∈ p.options ↔ o ∈ r.options
  command : p.commands = [r.command]
  operands : p.operands = r.operands

def KeepsMeaning (args : List OsStr) : Prop :=
  ∃ r p, posixRead args = some r ∧ getopt (normalizeShellFlags args) = some p ∧ Agrees p r

/-! ## Groups -/

section Groups

variable {g : Group} {f : Flag}

theorem char_mem_takers (hf : f.Ok) : f.char ∈ takers ↔ f.Takes := by
  cases f with
  | letter x =>
    obtain ⟨-, hc, ho, hO⟩ := hf
    simp [takers, Flag.char, Flag.Takes, hc, ho, hO]
  | command => simp [takers, Flag.char, Flag.Takes]
  | option n => simp [takers, Flag.char, Flag.Takes]
  | shopt n => simp [takers, Flag.char, Flag.Takes]

theorem char_alphabetic (hf : f.Ok) : isAsciiAlphabetic f.char = true := by
  cases f with
  | letter x => exact hf.1
  | command => rfl
  | option n => rfl
  | shopt n => rfl

theorem char_ne_dash (hf : f.Ok) : f.char ≠ dash := by
  intro h
  have := char_alphabetic hf
  rw [h] at this
  cases this

theorem isOption_group (hg : g.Ok) : isOption (dash :: g.letters) = true := by
  obtain ⟨f, rest, rfl⟩ := List.exists_cons_of_ne_nil hg.nonempty
  have hf := char_ne_dash (hg.flags f List.mem_cons_self)
  simp [isOption, Group.letters, hf]

theorem groupBody_group (hg : g.Ok) : groupBody (dash :: g.letters) = some g.letters := by
  obtain ⟨f, rest, rfl⟩ := List.exists_cons_of_ne_nil hg.nonempty
  have hf := char_ne_dash (hg.flags f List.mem_cons_self)
  refine if_pos ⟨by simp [Group.letters], by simpa [Group.letters] using hf, ?_⟩
  rw [List.all_eq_true]
  intro x hx
  obtain ⟨f, hf, rfl⟩ := List.mem_map.1 hx
  exact char_alphabetic (hg.flags f hf)

theorem groupBody_of_head {s : OsStr} (hs : s.head? ≠ some dash) : groupBody s = none := by
  unfold groupBody
  split
  · exact absurd rfl hs
  · rfl

theorem isOption_of_head {s : OsStr} (hs : s.head? ≠ some dash) : isOption s = false := by
  simp [isOption, hs]

theorem name_isSome_iff : f.name.isSome = true ↔ f.Takes ∧ f ≠ .command := by
  cases f <;> simp [Flag.name, Flag.Takes]

theorem names_eq_nil : g.names = [] ↔ ∀ f ∈ g, f.Takes → f = .command := by
  rw [Group.names, List.filterMap_eq_nil_iff]
  refine forall₂_congr fun f _ => ?_
  cases f <;> simp [Flag.name, Flag.Takes]

theorem head_of_mem_names (hg : g.Ok) {n : OsStr} (hn : n ∈ g.names) : n.head? ≠ some dash := by
  obtain ⟨f, hf, hname⟩ := List.mem_filterMap.1 hn
  have := hg.flags f hf
  cases f with
  | letter x => cases hname
  | command => cases hname
  | option m =>
    obtain rfl := Option.some.inj hname
    exact this
  | shopt m =>
    obtain rfl := Option.some.inj hname
    exact this

theorem command_mem_letters (hok : ∀ f ∈ g, f.Ok) : .chr 'c' ∈ g.letters ↔ .command ∈ g := by
  constructor
  · intro h
    obtain ⟨f, hf, hchar⟩ := List.mem_map.1 h
    have := hok f hf
    cases f with
    | letter x =>
      exact absurd (by simpa [Flag.char] using hchar) this.2.1
    | command => exact hf
    | option n => cases hchar
    | shopt n => cases hchar
  · exact fun h => List.mem_map.2 ⟨_, h, rfl⟩

theorem char_ne_command (h : f.name.isSome = true) : f.char ≠ .chr 'c' := by
  cases f with
  | letter x => cases h
  | command => cases h
  | option m => simp [Flag.char]
  | shopt m => simp [Flag.char]

theorem readLetters_plain (hok : ∀ f ∈ g, f.Ok) (hg : ∀ f ∈ g, ¬ f.Takes) :
    readLetters g.letters = (g.letters, none) := by
  induction g with
  | nil => rfl
  | cons f g ih =>
    rw [List.forall_mem_cons] at hok hg
    rw [Group.letters, List.map_cons, readLetters, if_neg (mt (char_mem_takers hok.1).1 hg.1)]
    rw [show List.map Flag.char g = Group.letters g from rfl, ih hok.2 hg.2]

theorem readLetters_takes {post : Group} (hok : ∀ f ∈ g, f.Ok) (hg : ∀ f ∈ g, ¬ f.Takes)
    (hf : f.Ok) (ht : f.Takes) :
    readLetters (Group.letters (g ++ f :: post)) = (g.letters, some (f.char, post.letters)) := by
  induction g with
  | nil =>
    show readLetters (f.char :: post.letters) = _
    rw [readLetters, if_pos ((char_mem_takers hf).2 ht)]
    rfl
  | cons f' g ih =>
    rw [List.forall_mem_cons] at hok hg
    rw [List.cons_append, Group.letters, List.map_cons, readLetters,
      if_neg (mt (char_mem_takers hok.1).1 hg.1)]
    rw [show List.map Flag.char (g ++ f :: post) = Group.letters (g ++ f :: post) from rfl,
      ih hok.2 hg.2]
    rfl

theorem plain_or_takes (g : Group) : (∀ f ∈ g, ¬ f.Takes) ∨
    ∃ pre f post, g = pre ++ f :: post ∧ (∀ f ∈ pre, ¬ f.Takes) ∧ f.Takes := by
  induction g with
  | nil => exact .inl nofun
  | cons f g ih =>
    by_cases hf : f.Takes
    · exact .inr ⟨[], f, g, rfl, nofun, hf⟩
    rcases ih with h | ⟨pre, f', post, rfl, hpre, hf'⟩
    · exact .inl (List.forall_mem_cons.2 ⟨hf, h⟩)
    · exact .inr ⟨f :: pre, f', post, rfl, List.forall_mem_cons.2 ⟨hf, hpre⟩, hf'⟩

end Groups

/-! ## What the parser makes of a group -/

section Getopt

variable {p : Parsed} {rest : List OsStr} {g : Group}

theorem getopt_operand {arg : OsStr} (h : isOption arg = false) :
    getopt (arg :: rest) = some ⟨[], arg :: rest⟩ := by
  rw [getopt, if_neg (by simp [h])]

theorem getopt_plain (hg : g.Ok) (h : ∀ f ∈ g, ¬ f.Takes) :
    getopt ((dash :: g.letters) :: rest) = (getopt rest).map (Parsed.add (plainOf g.letters)) := by
  rw [getopt, if_pos (isOption_group hg), List.drop_one, List.tail_cons,
    readLetters_plain hg.flags h]

theorem getopt_last {pre : Group} {f : Flag} {v : OsStr} (hg : Group.Ok (pre ++ [f]))
    (hpre : ∀ f ∈ pre, ¬ f.Takes) (hf : f.Takes) :
    getopt ((dash :: Group.letters (pre ++ [f])) :: v :: rest) =
      (getopt rest).map (Parsed.add (plainOf pre.letters ++ [(f.char, some v)])) := by
  have hread := @readLetters_takes _ _ [] (fun f' h => hg.flags f' (by simp [h])) hpre
    (hg.flags f (by simp)) hf
  rw [getopt, if_pos (isOption_group hg), List.drop_one, List.tail_cons, hread]
  rfl

theorem getopt_attached {pre post : Group} {f : Flag} (hg : Group.Ok (pre ++ f :: post))
    (hpre : ∀ f ∈ pre, ¬ f.Takes) (hf : f.Takes) (hpost : post ≠ []) :
    getopt ((dash :: Group.letters (pre ++ f :: post)) :: rest) =
      (getopt rest).map (Parsed.add (plainOf pre.letters ++ [(f.char, some post.letters)])) := by
  have hread := @readLetters_takes _ _ post (fun f' h => hg.flags f' (by simp [h])) hpre
    (hg.flags f (by simp)) hf
  obtain ⟨f', post, rfl⟩ := List.exists_cons_of_ne_nil hpost
  rw [getopt, if_pos (isOption_group hg), List.drop_one, List.tail_cons, hread]
  rfl

/-- What the parser makes of a group with its names and what stands behind them. -/
inductive Reads (g : Group) (rest : List OsStr) (p : Parsed) : Prop
  | plain {p' : Parsed} (hg : ∀ f ∈ g, ¬ f.Takes) (hrest : getopt rest = some p')
    (hp : p = p'.add (plainOf g.letters))
  | named {pre : Group} {f : Flag} {n : OsStr} {p' : Parsed} (hg : g = pre ++ [f])
    (hpre : ∀ f ∈ pre, ¬ f.Takes) (hf : f.name = some n) (hrest : getopt rest = some p')
    (hp : p = p'.add (plainOf pre.letters ++ [(f.char, some n)]))
  | called {pre : Group} {v : OsStr} {rest' : List OsStr} {p' : Parsed} (hg : g = pre ++ [.command])
    (hpre : ∀ f ∈ pre, ¬ f.Takes) (hv : rest = v :: rest') (hrest : getopt rest' = some p')
    (hp : p = p'.add (plainOf pre.letters ++ [(.chr 'c', some v)]))
  | attached {pre post : Group} {p' : Parsed} (hg : g = pre ++ .command :: post)
    (hpre : ∀ f ∈ pre, ¬ f.Takes) (hpost : post ≠ []) (hnames : g.names = [])
    (hrest : getopt rest = some p')
    (hp : p = p'.add (plainOf pre.letters ++ [(.chr 'c', some post.letters)]))
  | left {pre post : Group} {f : Flag} (hg : g = pre ++ f :: post) (hpost : post ≠ [])
    (ht : f.Takes) (hnames : g.names ≠ []) (hp : p.operands = g.names ++ rest)

theorem names_of_plain {pre : Group} (hpre : ∀ f ∈ pre, ¬ f.Takes) : Group.names pre = [] :=
  names_eq_nil.2 fun f hf ht => absurd ht (hpre f hf)

theorem names_append {pre post : Group} {f : Flag} (hpre : ∀ f ∈ pre, ¬ f.Takes) :
    Group.names (pre ++ f :: post) = f.name.toList ++ Group.names post := by
  have := names_of_plain hpre
  unfold Group.names at this ⊢
  rw [List.filterMap_append, this, List.nil_append, List.filterMap_cons]
  cases f.name <;> rfl

/-- **One group.** The parser reads a group as the shell does where only its last flag takes a
text. -/
theorem reads_of_getopt (hg : g.Ok) (h : getopt (g.render ++ rest) = some p) : Reads g rest p := by
  rw [Group.render, List.cons_append] at h
  rcases plain_or_takes g with hplain | ⟨pre, f, post, rfl, hpre, ht⟩
  · rw [getopt_plain hg hplain, names_of_plain hplain, List.nil_append] at h
    obtain ⟨p', hp', rfl⟩ := Option.map_eq_some_iff.1 h
    exact .plain hplain hp' rfl
  by_cases hpost : post = []
  · subst hpost
    rw [names_append hpre] at h
    cases hname : f.name with
    | some n =>
      rw [hname] at h
      rw [show (some n).toList ++ Group.names [] ++ rest = n :: rest from rfl,
        getopt_last hg hpre ht] at h
      obtain ⟨p', hp', rfl⟩ := Option.map_eq_some_iff.1 h
      exact .named rfl hpre hname hp' rfl
    | none =>
      obtain rfl : f = .command := by
        by_contra hne
        have := name_isSome_iff.2 ⟨ht, hne⟩
        rw [hname] at this
        cases this
      rw [show (Flag.command).name.toList ++ Group.names [] ++ rest = rest from rfl] at h
      cases rest with
      | nil =>
        have hread := @readLetters_takes _ _ [] (fun f' h => hg.flags f' (by simp [h])) hpre
          (hg.flags .command (by simp)) ht
        rw [getopt, if_pos (isOption_group hg), List.drop_one, List.tail_cons, hread] at h
        cases h
      | cons v rest =>
        rw [getopt_last hg hpre ht] at h
        obtain ⟨p', hp', rfl⟩ := Option.map_eq_some_iff.1 h
        exact .called rfl hpre rfl hp' rfl
  · rw [getopt_attached hg hpre ht hpost] at h
    obtain ⟨p', hp', rfl⟩ := Option.map_eq_some_iff.1 h
    cases hnames : Group.names (pre ++ f :: post) with
    | nil =>
      obtain rfl : f = .command := names_eq_nil.1 hnames f (by simp) ht
      rw [hnames, List.nil_append] at hp'
      exact .attached rfl hpre hpost hnames hp' rfl
    | cons n ns =>
      -- the name that the group did not take is read as the first operand
      have hn : isOption n = false := isOption_of_head (head_of_mem_names hg (by simp [hnames]))
      rw [hnames, List.cons_append, getopt_operand hn] at hp'
      refine .left rfl hpost ht (by simp [hnames]) ?_
      rw [← Option.some.inj hp', hnames]
      rfl

end Getopt

/-! ## Calls that are read as they are written -/

section Raw

variable {p : Parsed} {gs : List Group} {command : OsStr} {ops : List OsStr}

@[simp] theorem operands_add (s : List (OsChar × Option OsStr)) :
    (p.add s).operands = p.operands := rfl

theorem commands_add (s : List (OsChar × Option OsStr)) : (p.add s).commands =
    (s.filterMap fun s => if s.1 = .chr 'c' then s.2 else none) ++ p.commands :=
  List.filterMap_append

theorem commands_plainOf (flags : OsStr) :
    (plainOf flags).filterMap (fun s => if s.1 = .chr 'c' then s.2 else none) = [] := by
  rw [List.filterMap_eq_nil_iff]
  intro s hs
  obtain ⟨x, -, rfl⟩ := List.mem_map.1 hs
  exact ite_self _

theorem commands_add_plain (flags : OsStr) : (p.add (plainOf flags)).commands = p.commands := by
  rw [commands_add, commands_plainOf, List.nil_append]

theorem commands_add_setting (flags : OsStr) (x : OsChar) (v : OsStr) :
    (p.add (plainOf flags ++ [(x, some v)])).commands =
      if x = .chr 'c' then v :: p.commands else p.commands := by
  rw [commands_add, List.filterMap_append, commands_plainOf, List.nil_append]
  split_ifs with h <;> simp [h]

theorem getopt_cons {arg : OsStr} {rest : List OsStr} (h : getopt (arg :: rest) = some p) :
    (isOption arg = false ∧ p = ⟨[], arg :: rest⟩) ∨ isOption arg = true ∧ ∃ settings rest' p',
      p = p'.add settings ∧ getopt rest' = some p' ∧ rest' <:+ rest ∧
        ∀ s ∈ settings, ∀ v ∈ s.2, v <:+ arg ∨ v ∈ rest := by
  have hplain : ∀ flags : OsStr, ∀ s ∈ plainOf flags, ∀ v ∈ s.2, v <:+ arg ∨ v ∈ rest := by
    intro flags s hs v hv
    obtain ⟨x, -, rfl⟩ := List.mem_map.1 hs
    cases hv
  have hletters : ∀ {body : OsStr} {k : OsChar} {v : OsStr}, (readLetters body).2 = some (k, v) →
      v <:+ body := by
    intro body k v h
    induction body with
    | nil => cases h
    | cons x body ih =>
      rw [readLetters] at h
      split_ifs at h
      · obtain ⟨-, rfl⟩ := Prod.mk.inj (Option.some.inj h)
        exact List.suffix_cons _ _
      · exact (ih h).trans (List.suffix_cons _ _)
  cases harg : isOption arg with
  | false =>
    rw [getopt_operand harg] at h
    exact .inl ⟨rfl, (Option.some.inj h).symm⟩
  | true =>
    refine .inr ⟨rfl, ?_⟩
    rw [getopt, if_pos harg] at h
    split at h
    · obtain ⟨p', hp', rfl⟩ := Option.map_eq_some_iff.1 h
      exact ⟨_, rest, p', rfl, hp', List.suffix_refl _, hplain _⟩
    · split at h
      · cases h
      · obtain ⟨p', hp', rfl⟩ := Option.map_eq_some_iff.1 h
        refine ⟨_, _, p', rfl, hp', List.suffix_cons _ _, fun s hs v hv => ?_⟩
        rcases List.mem_append.1 hs with hs | hs
        · exact hplain _ s hs v hv
        · obtain rfl := List.mem_singleton.1 hs
          exact .inr (by simpa using .inl (Option.some.inj hv).symm)
    · rename_i hread
      obtain ⟨p', hp', rfl⟩ := Option.map_eq_some_iff.1 h
      refine ⟨_, rest, p', rfl, hp', List.suffix_refl _, fun s hs v hv => ?_⟩
      rcases List.mem_append.1 hs with hs | hs
      · exact hplain _ s hs v hv
      · obtain rfl := List.mem_singleton.1 hs
        obtain rfl := Option.some.inj hv
        exact .inl ((hletters (congrArg Prod.snd hread)).trans (List.drop_suffix _ _))

theorem operands_of_getopt {args : List OsStr} (h : getopt args = some p) :
    p.operands <:+ args ∧ ∀ a ∈ args.head?, isOption a = true → p.operands.length < args.length := by
  induction hlen : args.length using Nat.strong_induction_on generalizing args p with
  | _ n ih =>
    cases args with
    | nil =>
      obtain rfl := Option.some.inj h
      exact ⟨List.suffix_refl _, nofun⟩
    | cons arg rest =>
      rcases getopt_cons h with ⟨harg, rfl⟩ | ⟨-, settings, rest', p', rfl, hp', hsuf, -⟩
      · refine ⟨List.suffix_refl _, fun a ha hopt => ?_⟩
        obtain rfl := Option.some.inj ha
        rw [harg] at hopt
        cases hopt
      · have hle := hsuf.length_le
        rw [List.length_cons] at hlen
        have hrest := (ih _ (by omega) hp' rfl).1
        rw [operands_add]
        refine ⟨(hrest.trans hsuf).trans (List.suffix_cons _ _), fun _ _ _ => ?_⟩
        have := hrest.length_le
        omega

theorem text_of_getopt {args : List OsStr} (h : getopt args = some p)
    (hargs : ∀ a ∈ args, a.isUtf8 = true) : (∀ s ∈ p.settings, ∀ v ∈ s.2, v.isUtf8 = true) ∧
      ∀ a ∈ p.operands, a.isUtf8 = true := by
  refine ⟨?_, fun a ha => hargs a ((operands_of_getopt h).1.subset ha)⟩
  induction hlen : args.length using Nat.strong_induction_on generalizing args p with
  | _ n ih =>
    cases args with
    | nil =>
      obtain rfl := Option.some.inj h
      nofun
    | cons arg rest =>
      rcases getopt_cons h with ⟨-, rfl⟩ | ⟨-, settings, rest', p', rfl, hp', hsuf, hvalues⟩
      · nofun
      · rw [List.forall_mem_cons] at hargs
        have hle := hsuf.length_le
        rw [List.length_cons] at hlen
        intro s hs v hv
        rcases List.mem_append.1 hs with hs | hs
        · rcases hvalues s hs v hv with h | h
          · exact isUtf8_iff.2 fun x hx => isUtf8_iff.1 hargs.1 x (h.subset hx)
          · exact hargs.2 v h
        · exact ih _ (by omega) hp' (fun a ha => hargs.2 a (hsuf.subset ha)) rfl s hs v hv

/-- Groups the parser reads as the shell does: only the last flag of each takes a text, and behind
`-c` comes the command string. -/
def Raw : List Group → Prop
  | [] => False
  | g :: gs => (∀ f ∈ g.dropLast, ¬ f.Takes) ∧ if Flag.command ∈ g then gs = [] else Raw gs

def First (ops : List OsStr) : Prop := ∀ a ∈ ops.head?, isOption a = false

theorem commands_or_operands (hgs : ∀ g ∈ gs, g.Ok) (hcmd : command.head? ≠ some dash)
    (h : getopt (gs.flatMap Group.render ++ command :: ops) = some p) :
    p.commands ≠ [] ∨ ops.length < p.operands.length := by
  induction gs generalizing p with
  | nil =>
    rw [List.flatMap_nil, List.nil_append, getopt_operand (isOption_of_head hcmd)] at h
    obtain rfl := Option.some.inj h
    exact .inr (Nat.lt_succ_self _)
  | cons g gs ih =>
    rw [List.forall_mem_cons] at hgs
    rw [List.flatMap_cons, List.append_assoc] at h
    cases reads_of_getopt hgs.1 h with
    | plain _ hrest hp =>
      rw [hp, commands_add_plain]
      exact ih hgs.2 hrest
    | named _ _ _ hrest hp =>
      rw [hp, commands_add_setting, operands_add]
      refine (ih hgs.2 hrest).imp_left fun hne => ?_
      split_ifs
      · exact List.cons_ne_nil _ _
      · exact hne
    | called _ _ _ _ hp =>
      rw [hp, commands_add_setting, if_pos rfl]
      exact .inl (List.cons_ne_nil _ _)
    | attached _ _ _ _ _ hp =>
      rw [hp, commands_add_setting, if_pos rfl]
      exact .inl (List.cons_ne_nil _ _)
    | left _ _ _ _ hp =>
      refine .inr ?_
      rw [hp]
      simp only [List.length_append, List.length_cons]
      omega

/-- **Groups as they are written.** Where the parser finds the command string and the operands, each
group was read as the shell reads it. -/
theorem raw_of_getopt (hgs : ∀ g ∈ gs, g.Ok) (hcmd : command.head? ≠ some dash)
    (h : getopt (gs.flatMap Group.render ++ command :: ops) = some p)
    (hcommands : p.commands = [command]) (hops : p.operands = ops) : Raw gs ∧ First ops := by
  induction gs generalizing p with
  | nil =>
    rw [List.flatMap_nil, List.nil_append, getopt_operand (isOption_of_head hcmd)] at h
    obtain rfl := Option.some.inj h
    cases hcommands
  | cons g gs ih =>
    have hall := hgs
    rw [List.forall_mem_cons] at hgs
    rw [List.flatMap_cons, List.append_assoc] at h
    cases reads_of_getopt hgs.1 h with
    | plain hg hrest hp =>
      rw [hp, commands_add_plain] at hcommands
      rw [hp, operands_add] at hops
      obtain ⟨hraw, hfirst⟩ := ih hgs.2 hrest hcommands hops
      refine ⟨⟨fun f hf => hg f (List.dropLast_subset _ hf), ?_⟩, hfirst⟩
      exact (if_neg fun hmem => hg .command hmem trivial).symm ▸ hraw
    | @named pre f n p' hg hpre hf hrest hp =>
      have hne : f ≠ .command := by
        rintro rfl
        cases hf
      have hchar := char_ne_command (f := f) (by rw [hf]; rfl)
      rw [hp, commands_add_setting, if_neg hchar] at hcommands
      rw [hp, operands_add] at hops
      obtain ⟨hraw, hfirst⟩ := ih hgs.2 hrest hcommands hops
      refine ⟨⟨?_, ?_⟩, hfirst⟩
      · rw [hg, List.dropLast_concat]
        exact hpre
      · rwa [if_neg]
        rw [hg, List.mem_append, List.mem_singleton, not_or]
        exact ⟨fun hmem => hpre _ hmem trivial, Ne.symm hne⟩
    | @called pre v rest' p' hg hpre hv hrest hp =>
      rw [hp, commands_add_setting, if_pos rfl] at hcommands
      obtain ⟨rfl, hnone⟩ := List.cons.inj hcommands
      rw [hp, operands_add] at hops
      cases gs with
      | nil =>
        obtain ⟨-, rfl⟩ := List.cons.inj hv
        refine ⟨⟨?_, ?_⟩, fun a ha => ?_⟩
        · rw [hg, List.dropLast_concat]
          exact hpre
        · rw [if_pos (by simp [hg])]
        · by_contra hopt
          have := (operands_of_getopt hrest).2 a ha (by simpa using hopt)
          rw [hops] at this
          exact Nat.lt_irrefl _ this
      | cons g' gs =>
        -- the group behind `-c` starts as no command string does
        rw [List.flatMap_cons, Group.render] at hv
        have hhead : dash :: Group.letters g' = v := (List.cons.inj hv).1
        rw [← hhead] at hcmd
        exact absurd rfl hcmd
    | attached _ _ _ _ hrest hp =>
      rw [hp, commands_add_setting, if_pos rfl] at hcommands
      rw [hp, operands_add] at hops
      rcases commands_or_operands hgs.2 hcmd hrest with hne | hlt
      · exact absurd (List.cons.inj hcommands).2 hne
      · rw [hops] at hlt
        exact absurd hlt (Nat.lt_irrefl _)
    | left _ _ _ _ hp =>
      rw [hp] at hops
      have := congrArg List.length hops
      simp only [List.length_append, List.length_cons] at this
      omega

end Raw

/-! ## The rewritten arguments -/

section Rewritten

variable {fl g : Group} {gs : List Group} {command : OsStr} {ops : List OsStr} {p : Parsed}

theorem isUtf8_group (g : Group) : isUtf8 (dash :: g.letters) = true := by
  refine isUtf8_iff.2 fun x hx => ?_
  rcases List.mem_cons.1 hx with rfl | hx
  · exact ⟨_, rfl⟩
  · obtain ⟨f, -, rfl⟩ := List.mem_map.1 hx
    cases f <;> exact ⟨_, rfl⟩

theorem lossy_of_text {s : OsStr} (hs : s.isUtf8 = true) : s.toStringLossy = s :=
  fromUtf8Lossy_bytes hs

theorem normalizeArg_group (hg : g.Ok) (short : OsStr) :
    normalizeArg ⟨short, [], true⟩ (dash :: g.letters) =
      ⟨short ++ g.letters, [], if .chr 'c' ∈ short ++ g.letters then false else true⟩ := by
  unfold normalizeArg
  rw [lossy_of_text (isUtf8_group g)]
  dsimp only
  rw [if_pos rfl, groupBody_group hg]

theorem normalizeArg_operand {a : OsStr} (ha : a.isUtf8 = true) (hhead : a.head? ≠ some dash)
    (st : Normalizing) : normalizeArg st a = ⟨st.shortFlags, st.rest ++ [a], false⟩ := by
  unfold normalizeArg
  rw [lossy_of_text ha]
  dsimp only
  rw [groupBody_of_head hhead, ite_self]

theorem foldl_normalizeArg_rest {args : List OsStr} (hargs : ∀ a ∈ args, a.isUtf8 = true)
    (short : OsStr) (rest : List OsStr) :
    args.foldl normalizeArg ⟨short, rest, false⟩ = ⟨short, rest ++ args, false⟩ := by
  induction args generalizing rest with
  | nil => simp
  | cons a args ih =>
    rw [List.forall_mem_cons] at hargs
    have hone : normalizeArg ⟨short, rest, false⟩ a = ⟨short, rest ++ [a], false⟩ := by
      unfold normalizeArg
      rw [lossy_of_text hargs.1]
      rfl
    rw [List.foldl_cons, hone, ih hargs.2, List.append_assoc, List.singleton_append]

theorem foldl_normalizeArg_render (hg : g.Ok) {tail : List OsStr}
    (htail : ∀ a ∈ g.names ++ tail, a.isUtf8 = true) (h : .command ∈ g ∨ g.names ≠ []) :
    ∃ still, (g.render ++ tail).foldl normalizeArg ⟨fl.letters, [], true⟩ =
      ⟨Group.letters (fl ++ g), g.names ++ tail, still⟩ := by
  have hletters : fl.letters ++ g.letters = Group.letters (fl ++ g) := List.map_append.symm
  rw [Group.render, List.cons_append, List.foldl_cons, normalizeArg_group hg, hletters]
  split_ifs with hc
  · exact ⟨false, by rw [foldl_normalizeArg_rest htail, List.nil_append]⟩
  · have hnames : g.names ≠ [] := by
      refine h.resolve_left fun hmem => hc ?_
      exact List.mem_map.2 ⟨.command, List.mem_append_right _ hmem, rfl⟩
    obtain ⟨n, ns, hns⟩ := List.exists_cons_of_ne_nil hnames
    rw [hns] at htail ⊢
    rw [List.cons_append, List.forall_mem_cons] at htail
    rw [List.cons_append, List.foldl_cons, normalizeArg_operand htail.1
      (head_of_mem_names hg (by simp [hns])), foldl_normalizeArg_rest htail.2]
    exact ⟨false, rfl⟩

def singles (g : Group) : List OsStr := g.map fun f => [dash, f.char]

theorem out_eq (hok : ∀ f ∈ fl, f.Ok) (rest : List OsStr) (still : Bool) :
    Normalizing.out ⟨fl.letters, rest, still⟩ = singles (fl.filter fun f => f ≠ .command) ++
      (if .command ∈ fl then [os "-c"] else []) ++ rest := by
  have hfilter : (fl.letters.filter (· ≠ .chr 'c')).map (fun c => [dash, c]) =
      singles (fl.filter fun f => f ≠ .command) := by
    rw [Group.letters, List.filter_map, List.map_map]
    refine congrArg _ (List.filter_congr fun f hf => ?_)
    have := hok f hf
    cases f with
    | letter x => simp [Flag.char, this.2.1]
    | command => simp [Flag.char]
    | option n => simp [Flag.char]
    | shopt n => simp [Flag.char]
  unfold Normalizing.out
  simp only [hfilter, command_mem_letters hok]

theorem getopt_singles {rest : List OsStr} (hok : ∀ f ∈ fl, f.Ok) (hfl : ∀ f ∈ fl, ¬ f.Takes) :
    getopt (singles fl ++ rest) = (getopt rest).map (Parsed.add (plainOf fl.letters)) := by
  induction fl with
  | nil =>
    show getopt rest = _
    cases getopt rest <;> rfl
  | cons f fl ih =>
    rw [List.forall_mem_cons] at hok hfl
    have hone : Group.Ok [f] := ⟨List.cons_ne_nil _ _, by simpa using hok.1⟩
    have hplain := @getopt_plain (singles fl ++ rest) _ hone (by simpa using hfl.1)
    show getopt ((dash :: Group.letters [f]) :: (singles fl ++ rest)) = _
    rw [hplain, ih hok.2 hfl.2, Option.map_map]
    cases getopt rest <;> rfl

/-- Groups whose rewriting the parser reads as the shell does. -/
def Early : List Group → Prop
  | [] => False
  | g :: gs =>
    if .command ∈ g then gs = [] ∧ g.names = []
    else if g.names = [] then Early gs
    else (∀ f ∈ g.dropLast, ¬ f.Takes) ∧ Raw gs

theorem not_takes_of_names (hnames : g.names = []) (hc : .command ∉ g) : ∀ f ∈ g, ¬ f.Takes :=
  fun f hf ht => hc (names_eq_nil.1 hnames f hf ht ▸ hf)

theorem getopt_singles_takes {pre : Group} {f : Flag} {v : OsStr} {rest : List OsStr}
    (hok : ∀ f ∈ pre, f.Ok) (hpre : ∀ f ∈ pre, ¬ f.Takes) (hf : f.Ok) (ht : f.Takes) :
    getopt (singles pre ++ [dash, f.char] :: v :: rest) =
      (getopt rest).map (Parsed.add (plainOf pre.letters ++ [(f.char, some v)])) := by
  have hone : Group.Ok ([] ++ [f]) := ⟨by simp, by simpa using hf⟩
  have hlast := @getopt_last rest _ _ v hone nofun ht
  rw [getopt_singles hok hpre]
  show (getopt ((dash :: Group.letters ([] ++ [f])) :: v :: rest)).map _ = _
  rw [hlast, Option.map_map]
  cases getopt rest with
  | none => rfl
  | some p =>
    show some _ = some _
    simp [Parsed.add, plainOf, Group.letters]

/-- **The rewritten arguments.** Where the parser finds the command string and the operands in them,
and no flag for a name, each group was read as the shell reads it. -/
theorem early_of_getopt (hfl : ∀ f ∈ fl, f.Ok ∧ ¬ f.Takes) (hgs : ∀ g ∈ gs, g.Ok)
    (hcmd : command.head? ≠ some dash)
    (htext : ∀ a ∈ gs.flatMap Group.render ++ command :: ops, a.isUtf8 = true)
    (h : getopt ((gs.flatMap Group.render ++ command :: ops).foldl normalizeArg
      ⟨fl.letters, [], true⟩).out = some p)
    (hcommands : p.commands = [command]) (hops : p.operands = ops)
    (hnames : ∀ s ∈ p.options, ∀ v ∈ s.2, v.head? ≠ some dash) : Early gs ∧ First ops := by
  have hall : ∀ fl' : Group, (∀ f ∈ fl', f.Ok ∧ ¬ f.Takes) →
      fl'.filter (fun f => f ≠ .command) = fl' := fun fl' hfl' => List.filter_eq_self.2 fun f hf => by
    have := (hfl' f hf).2
    simpa using fun h : f = .command => this (h ▸ trivial)
  have hnone : ∀ fl' : Group, (∀ f ∈ fl', f.Ok ∧ ¬ f.Takes) → Flag.command ∉ fl' :=
    fun fl' hfl' hmem => (hfl' _ hmem).2 trivial
  induction gs generalizing fl with
  | nil =>
    rw [List.flatMap_nil, List.nil_append, List.forall_mem_cons] at htext
    rw [List.flatMap_nil, List.nil_append, List.foldl_cons, normalizeArg_operand htext.1 hcmd,
      foldl_normalizeArg_rest htext.2, out_eq fun f hf => (hfl f hf).1, hall fl hfl,
      if_neg (hnone fl hfl), List.append_nil, List.nil_append,
      getopt_singles (fun f hf => (hfl f hf).1) fun f hf => (hfl f hf).2, List.singleton_append,
      getopt_operand (isOption_of_head hcmd)] at h
    obtain rfl := Option.some.inj h
    rw [commands_add_plain] at hcommands
    cases hcommands
  | cons g gs ih =>
    rw [List.forall_mem_cons] at hgs
    rw [List.flatMap_cons, List.append_assoc] at h htext
    have hok : ∀ f ∈ fl ++ g, f.Ok := fun f hf =>
      (List.mem_append.1 hf).elim (fun hf => (hfl f hf).1) (hgs.1.flags f)
    by_cases hplain : .command ∉ g ∧ g.names = []
    · have hg := not_takes_of_names hplain.2 hplain.1
      have hfl' : ∀ f ∈ fl ++ g, f.Ok ∧ ¬ f.Takes := fun f hf =>
        ⟨hok f hf, (List.mem_append.1 hf).elim (fun hf => (hfl f hf).2) (hg f)⟩
      have hstep : (g.render ++ (gs.flatMap Group.render ++ command :: ops)).foldl normalizeArg
          ⟨fl.letters, [], true⟩ = (gs.flatMap Group.render ++ command :: ops).foldl normalizeArg
            ⟨Group.letters (fl ++ g), [], true⟩ := by
        rw [Group.render, hplain.2, List.singleton_append, List.foldl_cons,
          normalizeArg_group hgs.1, ← show Group.letters (fl ++ g) = fl.letters ++ g.letters from
            List.map_append,
          if_neg (mt (command_mem_letters hok).1 (hnone _ hfl'))]
      rw [hstep] at h
      rw [Early, if_neg hplain.1, if_pos hplain.2]
      exact ih hfl' hgs.2 (fun a ha => htext a (List.mem_append_right _ ha)) h
    · have hrest : .command ∈ g ∨ g.names ≠ [] := by
        by_contra hno
        push Not at hno
        exact hplain hno
      obtain ⟨still, hst⟩ := @foldl_normalizeArg_render fl _ hgs.1 _
        (fun a ha => htext a (by
          rw [Group.render, List.cons_append]
          exact List.mem_cons_of_mem _ ha)) hrest
      rw [hst, out_eq hok] at h
      have hmem : .command ∈ fl ++ g ↔ .command ∈ g := by
        rw [List.mem_append, or_iff_right (hnone fl hfl)]
      rcases plain_or_takes ((fl ++ g).filter fun f => f ≠ .command) with
        hflags | ⟨pre, f, post, hsplit, hpre, ht⟩
      -- no flag but `-c` takes a text: what is left is `-c` and the groups behind it
      · have hnames' : g.names = [] := by
          refine names_eq_nil.2 fun f hf ht => ?_
          by_contra hne
          exact hflags f (List.mem_filter.2 ⟨List.mem_append_right _ hf, by simpa using hne⟩) ht
        have hc : .command ∈ g := hrest.resolve_right (not_not.2 hnames')
        rw [if_pos (hmem.2 hc), hnames', List.nil_append, List.append_assoc,
          getopt_singles (fun f hf => hok f (List.mem_of_mem_filter hf)) hflags] at h
        obtain ⟨p', hp', rfl⟩ := Option.map_eq_some_iff.1 h
        rw [commands_add_plain] at hcommands
        have hone : Group.Ok [.command] := ⟨by simp, by simp [Flag.Ok]⟩
        have hraw := @raw_of_getopt _ ([.command] :: gs) _ _ (List.forall_mem_cons.2 ⟨hone, hgs.2⟩)
          hcmd hp' hcommands hops
        refine ⟨?_, hraw.2⟩
        have hnil := hraw.1.2
        rw [if_pos (List.mem_singleton.2 rfl)] at hnil
        rw [Early, if_pos hc]
        exact ⟨hnil, hnames'⟩
      · have hmemf : f ∈ (fl ++ g).filter fun f => f ≠ .command := by rw [hsplit]; simp
        obtain ⟨hf, hne⟩ := List.mem_filter.1 hmemf
        have hne : f ≠ .command := by simpa using hne
        have hchar := char_ne_command (name_isSome_iff.2 ⟨ht, hne⟩)
        have hpreok : ∀ f ∈ pre, f.Ok := fun f hf => hok f (List.mem_of_mem_filter
          (by rw [hsplit]; exact List.mem_append_left _ hf))
        have hsingles : singles (pre ++ f :: post) =
            singles pre ++ [dash, f.char] :: singles post := by simp [singles]
        rw [hsplit, hsingles] at h
        simp only [List.append_assoc, List.cons_append] at h
        -- a flag that takes a text must not stand before another flag
        have hflag : ∀ v rest, singles post ++ ((if .command ∈ fl ++ g then [os "-c"] else []) ++
            (g.names ++ (gs.flatMap Group.render ++ command :: ops))) = v :: rest →
            v.head? ≠ some dash := by
          intro v rest hv
          rw [hv, getopt_singles_takes hpreok hpre (hok f hf) ht] at h
          obtain ⟨p', hp', rfl⟩ := Option.map_eq_some_iff.1 h
          refine hnames (f.char, some v) (List.mem_filter.2 ⟨?_, by simpa using hchar⟩) v rfl
          exact List.mem_append_left _ (List.mem_append_right _ (List.mem_singleton.2 rfl))
        have hpost : post = [] := by
          cases post with
          | nil => rfl
          | cons f' post => exact absurd rfl (hflag _ _ rfl)
        subst hpost
        have hc : .command ∉ g := by
          intro hc
          rw [if_pos (hmem.2 hc)] at hflag
          exact absurd rfl (hflag _ _ rfl)
        have hfilter : (fl ++ g).filter (fun f => f ≠ .command) = fl ++ g :=
          List.filter_eq_self.2 fun f hf => by
            simpa using fun h : f = .command => mt hmem.1 hc (h ▸ hf)
        rw [hfilter] at hsplit
        obtain ⟨init, last, rfl⟩ : ∃ init last, g = init ++ [last] :=
          ⟨_, _, (List.dropLast_append_getLast hgs.1.nonempty).symm⟩
        rw [← List.append_assoc] at hsplit
        obtain ⟨rfl, hlast⟩ := List.append_inj' hsplit rfl
        obtain rfl : last = f := by simpa using hlast
        have hinit : ∀ f ∈ init, ¬ f.Takes := fun f hf => hpre f (List.mem_append_right _ hf)
        obtain ⟨n, hn⟩ := Option.isSome_iff_exists.1 (name_isSome_iff.2 ⟨ht, hne⟩)
        have hgnames : Group.names (init ++ [last]) = [n] := by
          rw [names_append hinit, hn]
          rfl
        rw [if_neg (mt hmem.1 hc), hgnames] at h
        rw [show singles [] ++ ([] ++ ([n] ++ (gs.flatMap Group.render ++ command :: ops))) =
          n :: (gs.flatMap Group.render ++ command :: ops) from rfl,
          getopt_singles_takes hpreok hpre (hok last hf) ht] at h
        obtain ⟨p', hp', rfl⟩ := Option.map_eq_some_iff.1 h
        rw [commands_add_setting, if_neg hchar] at hcommands
        have hraw := raw_of_getopt hgs.2 hcmd hp' hcommands hops
        refine ⟨?_, hraw.2⟩
        rw [Early, if_neg hc, if_neg (by rw [hgnames]; exact List.cons_ne_nil _ _),
          List.dropLast_concat]
        exact ⟨hinit, hraw.1⟩

/-! ### Read as they are written -/

theorem options_add (s : List (OsChar × Option OsStr)) :
    (p.add s).options = s.filter (fun s => s.1 ≠ .chr 'c') ++ p.options := List.filter_append _ _

theorem options_of_last {pre : Group} {f : Flag} (hpre : ∀ f ∈ pre, ¬ f.Takes) :
    Group.options (pre ++ [f]) = plainOf pre.letters ++ Group.options [f] := by
  have h₁ : pre.filter (fun f => ¬ f.Takes) = pre :=
    List.filter_eq_self.2 fun f hf => by simpa using hpre f hf
  have h₂ : pre.filter (fun f => f.name.isSome) = [] := by
    refine List.filter_eq_nil_iff.2 fun f hf hname => hpre f hf (name_isSome_iff.1 hname).1
  unfold Group.options
  rw [List.filter_append, List.filter_append, h₁, h₂, List.nil_append, List.map_append,
    List.append_assoc]
  simp [plainOf, Group.letters]

theorem filter_plainOf {pre : Group} (hok : ∀ f ∈ pre, f.Ok) (hpre : ∀ f ∈ pre, ¬ f.Takes) :
    (plainOf pre.letters).filter (fun s => s.1 ≠ .chr 'c') = plainOf pre.letters := by
  refine List.filter_eq_self.2 fun s hs => ?_
  obtain ⟨x, hx, rfl⟩ := List.mem_map.1 hs
  have hc : .chr 'c' ∉ pre.letters := fun h => hpre _ ((command_mem_letters hok).1 h) trivial
  simpa using ne_of_mem_of_not_mem hx hc

/-- **Groups read as they are written.** -/
theorem getopt_of_raw (hgs : ∀ g ∈ gs, g.Ok) (hraw : Raw gs) (hfirst : First ops) :
    ∃ p, getopt (gs.flatMap Group.render ++ command :: ops) = some p ∧ p.commands = [command] ∧
      p.operands = ops ∧ p.options = gs.flatMap Group.options := by
  induction gs with
  | nil => exact hraw.elim
  | cons g gs ih =>
    rw [List.forall_mem_cons] at hgs
    obtain ⟨hlast, hrest⟩ := hraw
    obtain ⟨pre, f, rfl⟩ : ∃ pre f, g = pre ++ [f] :=
      ⟨_, _, (List.dropLast_append_getLast hgs.1.nonempty).symm⟩
    rw [List.dropLast_concat] at hlast
    have hpreok : ∀ f ∈ pre, f.Ok := fun f hf => hgs.1.flags f (List.mem_append_left _ hf)
    have hf : f.Ok := hgs.1.flags f (by simp)
    have hnames : Group.names (pre ++ [f]) = f.name.toList :=
      (names_append hlast).trans (List.append_nil _)
    rw [List.flatMap_cons, List.append_assoc, Group.render, hnames, List.flatMap_cons,
      options_of_last hlast, List.cons_append]
    by_cases hc : f = .command
    · subst hc
      rw [if_pos (by simp)] at hrest
      subst hrest
      have hops : getopt ops = some ⟨[], ops⟩ := by
        cases ops with
        | nil => rfl
        | cons a ops => exact getopt_operand (hfirst a rfl)
      have hget : getopt ((dash :: Group.letters (pre ++ [.command])) :: command :: ops) =
          some (Parsed.add (plainOf (Group.letters pre) ++ [(.chr 'c', some command)])
            ⟨[], ops⟩) := by
        rw [getopt_last hgs.1 hlast trivial, hops]
        rfl
      refine ⟨_, hget, ?_, rfl, ?_⟩
      · rw [commands_add_setting, if_pos rfl]
        rfl
      · rw [options_add, List.filter_append, filter_plainOf hpreok hlast]
        rfl
    · have hmem : .command ∉ pre ++ [f] := by
        rw [List.mem_append, List.mem_singleton, not_or]
        exact ⟨fun h => hlast _ h trivial, Ne.symm hc⟩
      rw [if_neg hmem] at hrest
      obtain ⟨p', hp', hcommands, hops, hoptions⟩ := ih hgs.2 hrest
      by_cases ht : f.Takes
      · obtain ⟨n, hn⟩ := Option.isSome_iff_exists.1 (name_isSome_iff.2 ⟨ht, hc⟩)
        have hchar := char_ne_command (name_isSome_iff.2 ⟨ht, hc⟩)
        have hone : Group.options [f] = [(f.char, some n)] := by simp [Group.options, ht, hn]
        rw [hn]
        have hget : getopt ((dash :: Group.letters (pre ++ [f])) :: n ::
            (gs.flatMap Group.render ++ command :: ops)) =
              some (p'.add (plainOf (Group.letters pre) ++ [(f.char, some n)])) := by
          rw [getopt_last hgs.1 hlast ht, hp']
          rfl
        refine ⟨_, hget, ?_, hops, ?_⟩
        · rw [commands_add_setting, if_neg hchar, hcommands]
        · rw [options_add, List.filter_append, filter_plainOf hpreok hlast, hoptions, hone,
            List.filter_singleton]
          simp [hchar]
      · have hplain : ∀ f' ∈ pre ++ [f], ¬ f'.Takes := by
          intro f' hf'
          rcases List.mem_append.1 hf' with hf' | hf'
          · exact hlast f' hf'
          · rwa [List.mem_singleton.1 hf']
        have hname : f.name = none := by
          cases hname : f.name with
          | none => rfl
          | some n => exact absurd (name_isSome_iff.1 (by rw [hname]; rfl)).1 ht
        have hone : plainOf (Group.letters pre) ++ Group.options [f] =
            plainOf (Group.letters (pre ++ [f])) := by
          simp [Group.options, ht, hname, plainOf, Group.letters]
        have hget : getopt ((dash :: Group.letters (pre ++ [f])) ::
            (gs.flatMap Group.render ++ command :: ops)) =
              some (p'.add (plainOf (Group.letters (pre ++ [f])))) := by
          rw [getopt_plain hgs.1 hplain, hp']
          rfl
        rw [hname, hone]
        refine ⟨_, hget, ?_, hops, ?_⟩
        · rw [commands_add_plain, hcommands]
        · rw [options_add, filter_plainOf hgs.1.flags hplain, hoptions]

theorem plainOf_append (g g' : Group) :
    plainOf (Group.letters (g ++ g')) = plainOf g.letters ++ plainOf (Group.letters g') := by
  simp [plainOf, Group.letters]

theorem options_of_names (hnames : g.names = []) :
    g.options = plainOf (Group.letters (g.filter fun f => f ≠ .command)) := by
  have hplain : g.filter (fun f => ¬ f.Takes) = g.filter fun f => f ≠ .command := by
    refine List.filter_congr fun f hf => ?_
    have := names_eq_nil.1 hnames f hf
    by_cases hc : f = .command
    · simp [hc, Flag.Takes]
    · simp [hc, mt this hc]
  have hnone : g.filter (fun f => f.name.isSome) = [] := by
    refine List.filter_eq_nil_iff.2 fun f hf hname => ?_
    obtain ⟨ht, hc⟩ := name_isSome_iff.1 hname
    exact hc (names_eq_nil.1 hnames f hf ht)
  rw [Group.options, hplain, hnone]
  simp [plainOf, Group.letters]

/-- **Rewritten arguments read as they were written.** -/
theorem getopt_of_early (hfl : ∀ f ∈ fl, f.Ok ∧ ¬ f.Takes) (hgs : ∀ g ∈ gs, g.Ok)
    (htext : ∀ a ∈ gs.flatMap Group.render ++ command :: ops, a.isUtf8 = true)
    (hearly : Early gs) (hfirst : First ops) :
    ∃ p, getopt ((gs.flatMap Group.render ++ command :: ops).foldl normalizeArg
        ⟨fl.letters, [], true⟩).out = some p ∧ p.commands = [command] ∧ p.operands = ops ∧
      p.options = plainOf fl.letters ++ gs.flatMap Group.options := by
  induction gs generalizing fl with
  | nil => exact hearly.elim
  | cons g gs ih =>
    rw [List.forall_mem_cons] at hgs
    rw [List.flatMap_cons, List.append_assoc] at htext ⊢
    rw [List.flatMap_cons]
    have hok : ∀ f ∈ fl ++ g, f.Ok := fun f hf =>
      (List.mem_append.1 hf).elim (fun hf => (hfl f hf).1) (hgs.1.flags f)
    have hflok : ∀ f ∈ fl, f.Ok := fun f hf => (hfl f hf).1
    have hflplain : ∀ f ∈ fl, ¬ f.Takes := fun f hf => (hfl f hf).2
    have hflc : .command ∉ fl := fun h => hflplain _ h trivial
    have hflfilter : fl.filter (fun f => f ≠ .command) = fl := List.filter_eq_self.2 fun f hf => by
      simpa using fun h : f = .command => hflc (h ▸ hf)
    have htail : ∀ a ∈ g.names ++ (gs.flatMap Group.render ++ command :: ops),
        a.isUtf8 = true := fun a ha => htext a (by
      rw [Group.render, List.cons_append]
      exact List.mem_cons_of_mem _ ha)
    rw [Early] at hearly
    by_cases hc : .command ∈ g
    · rw [if_pos hc] at hearly
      obtain ⟨rfl, hnames⟩ := hearly
      obtain ⟨still, hst⟩ := @foldl_normalizeArg_render fl _ hgs.1 _ htail (.inl hc)
      have hflags : ∀ f ∈ (fl ++ g).filter (fun f => f ≠ .command), ¬ f.Takes := by
        intro f hf ht
        obtain ⟨hf, hne⟩ := List.mem_filter.1 hf
        rcases List.mem_append.1 hf with hf | hf
        · exact hflplain f hf ht
        · exact (by simpa using hne : f ≠ .command) (names_eq_nil.1 hnames f hf ht)
      have hflagsok : ∀ f ∈ (fl ++ g).filter (fun f => f ≠ .command), f.Ok := fun f hf =>
        hok f (List.mem_of_mem_filter hf)
      have hone : ∀ g' ∈ [[Flag.command]], Group.Ok g' := by
        simpa using (⟨by simp, by simp [Flag.Ok]⟩ : Group.Ok [.command])
      obtain ⟨p, hp, hcommands, hops, hoptions⟩ := @getopt_of_raw _ command _ hone
        ⟨nofun, by rw [if_pos (List.mem_singleton.2 rfl)]⟩ hfirst
      have hget : getopt (singles ((fl ++ g).filter fun f => f ≠ .command) ++
          ([[Flag.command]].flatMap Group.render ++ command :: ops)) = some (p.add (plainOf
            (Group.letters ((fl ++ g).filter fun f => f ≠ .command)))) := by
        rw [getopt_singles hflagsok hflags, hp]
        rfl
      rw [hst, out_eq hok, if_pos (List.mem_append_right _ hc), hnames, List.append_assoc]
      refine ⟨_, hget, ?_, hops, ?_⟩
      · rw [commands_add_plain, hcommands]
      · rw [options_add, filter_plainOf hflagsok hflags, hoptions, List.filter_append, hflfilter,
          plainOf_append, ← options_of_names hnames, List.append_assoc]
        rfl
    rw [if_neg hc] at hearly
    by_cases hnames : g.names = []
    · rw [if_pos hnames] at hearly
      have hg := not_takes_of_names hnames hc
      have hfl' : ∀ f ∈ fl ++ g, f.Ok ∧ ¬ f.Takes := fun f hf =>
        ⟨hok f hf, (List.mem_append.1 hf).elim (hflplain f) (hg f)⟩
      have hgfilter : g.filter (fun f => f ≠ .command) = g := List.filter_eq_self.2 fun f hf => by
        simpa using fun h : f = .command => hc (h ▸ hf)
      have hnone : .command ∉ fl ++ g := fun h => (hfl' _ h).2 trivial
      obtain ⟨p, hp, hcommands, hops, hoptions⟩ := ih hfl' hgs.2
        (fun a ha => htext a (List.mem_append_right _ ha)) hearly
      refine ⟨p, ?_, hcommands, hops, ?_⟩
      · rw [Group.render, hnames, List.singleton_append, List.foldl_cons,
          normalizeArg_group hgs.1, ← show Group.letters (fl ++ g) = fl.letters ++ g.letters from
            List.map_append, if_neg (mt (command_mem_letters hok).1 hnone)]
        exact hp
      · rw [hoptions, plainOf_append, options_of_names hnames, hgfilter, List.append_assoc]
    · rw [if_neg hnames] at hearly
      obtain ⟨hlast, hraw⟩ := hearly
      obtain ⟨still, hst⟩ := @foldl_normalizeArg_render fl _ hgs.1 _ htail (.inr hnames)
      obtain ⟨init, f, rfl⟩ : ∃ init f, g = init ++ [f] :=
        ⟨_, _, (List.dropLast_append_getLast hgs.1.nonempty).symm⟩
      rw [List.dropLast_concat] at hlast
      have hinit : ∀ f ∈ fl ++ init, ¬ f.Takes := fun f hf =>
        (List.mem_append.1 hf).elim (hflplain f) (hlast f)
      have hinitok : ∀ f ∈ fl ++ init, f.Ok := fun f hf => hok f (by
        rw [← List.append_assoc]
        exact List.mem_append_left _ hf)
      have ht : f.Takes := by
        by_contra ht
        refine hnames (names_of_plain fun f' hf' => ?_)
        rcases List.mem_append.1 hf' with hf' | hf'
        · exact hlast f' hf'
        · rwa [List.mem_singleton.1 hf']
      have hne : f ≠ .command := fun h => hc (by simp [h])
      obtain ⟨n, hn⟩ := Option.isSome_iff_exists.1 (name_isSome_iff.2 ⟨ht, hne⟩)
      have hgnames : Group.names (init ++ [f]) = [n] := by
        rw [names_append hlast, hn]
        rfl
      have hnone : .command ∉ fl ++ (init ++ [f]) := fun h => (List.mem_append.1 h).elim hflc hc
      have hfilter : (fl ++ (init ++ [f])).filter (fun f => f ≠ .command) =
          (fl ++ init) ++ [f] := by
        rw [← List.append_assoc] at hnone ⊢
        exact List.filter_eq_self.2 fun f hf => by
          simpa using fun h : f = .command => hnone (h ▸ hf)
      obtain ⟨p, hp, hcommands, hops, hoptions⟩ := @getopt_of_raw _ command _ hgs.2 hraw
        hfirst
      have hf : f.Ok := hok f (by simp)
      have hget : getopt (singles ((fl ++ init) ++ [f]) ++ n ::
          (gs.flatMap Group.render ++ command :: ops)) = some (p.add
            (plainOf (Group.letters (fl ++ init)) ++ [(f.char, some n)])) := by
        have hsingles : singles ((fl ++ init) ++ [f]) = singles (fl ++ init) ++ [[dash, f.char]] :=
          List.map_append
        rw [hsingles, List.append_assoc, List.singleton_append,
          getopt_singles_takes hinitok hinit hf ht, hp]
        rfl
      have hchar := char_ne_command (name_isSome_iff.2 ⟨ht, hne⟩)
      have hone : Group.options [f] = [(f.char, some n)] := by simp [Group.options, ht, hn]
      rw [hst, out_eq hok, if_neg hnone, hgnames, hfilter, List.append_nil, List.singleton_append]
      refine ⟨_, hget, ?_, hops, ?_⟩
      · rw [commands_add_setting, if_neg hchar, hcommands]
      · rw [options_add, List.filter_append, filter_plainOf hinitok hinit, hoptions,
          options_of_last hlast, hone, List.filter_singleton, plainOf_append]
        simp [hchar]

theorem posixLoop_wanted {fs : Group} (hfs : ∀ f ∈ fs, f.name.isSome = true) (rest : List OsStr) :
    posixLoop (fs.map Flag.char) (fs.filterMap Flag.name ++ rest) =
      (fs.map (fun f => (f.char, f.name)) ++ (posixLoop [] rest).1, (posixLoop [] rest).2) := by
  induction fs with
  | nil => rfl
  | cons f fs ih =>
    rw [List.forall_mem_cons] at hfs
    obtain ⟨n, hn⟩ := Option.isSome_iff_exists.1 hfs.1
    rw [List.map_cons, List.filterMap_cons, hn]
    dsimp only
    rw [List.cons_append, posixLoop, ih hfs.2, List.map_cons, hn]
    rfl

theorem posixLoop_render (hg : g.Ok) (rest : List OsStr) : posixLoop [] (g.render ++ rest) =
    (g.options ++ (posixLoop [] rest).1, (posixLoop [] rest).2.1 || decide (.command ∈ g),
      (posixLoop [] rest).2.2) := by
  have hwanted : g.letters.filter (fun x => x = .chr 'o' || x = .chr 'O') =
      (g.filter fun f => f.name.isSome).map Flag.char := by
    rw [Group.letters, List.filter_map]
    refine congrArg _ (List.filter_congr fun f hf => ?_)
    have := hg.flags f hf
    cases f with
    | letter x => simp [Flag.char, Flag.name, this.2.2.1, this.2.2.2]
    | command => simp [Flag.char, Flag.name]
    | option n => simp [Flag.char, Flag.name]
    | shopt n => simp [Flag.char, Flag.name]
  have hplain : (g.letters.filter fun x => x ∉ takers).map (fun x => (x, (none : Option OsStr))) =
      (g.filter fun f => ¬ f.Takes).map fun f => (f.char, none) := by
    rw [Group.letters, List.filter_map, List.map_map]
    refine congrArg _ (List.filter_congr fun f hf => ?_)
    simp [char_mem_takers (hg.flags f hf)]
  have hnames : g.names = (g.filter fun f => f.name.isSome).filterMap Flag.name := by
    rw [List.filterMap_filter]
    refine List.filterMap_congr fun f _ => ?_
    cases f.name <;> rfl
  rw [Group.render, List.cons_append, posixLoop, if_pos (by rfl), List.drop_one, List.tail_cons]
  dsimp only
  rw [hwanted, hnames, posixLoop_wanted (fun f hf => (List.mem_filter.1 hf).2), hplain]
  simp only [command_mem_letters hg.flags, Group.options, List.append_assoc]

theorem posixRead_args (call : ShellCall) :
    posixRead call.args = some ⟨call.options, call.command, call.operands⟩ := by
  have hloop : ∀ gs : List Group, (∀ g ∈ gs, g.Ok) →
      posixLoop [] (gs.flatMap Group.render ++ call.command :: call.operands) =
        (gs.flatMap Group.options, decide (∃ g ∈ gs, .command ∈ g),
          call.command :: call.operands) := by
    intro gs hgs
    induction gs with
    | nil => simp [posixLoop, call.plain.1]
    | cons g gs ih =>
      rw [List.forall_mem_cons] at hgs
      rw [List.flatMap_cons, List.append_assoc, posixLoop_render hgs.1, ih hgs.2]
      by_cases hc : .command ∈ g <;> simp [hc]
  unfold posixRead ShellCall.args
  rw [hloop _ call.ok, decide_eq_true call.called]
  rfl

theorem isUtf8_normalize (args : List OsStr) :
    ∀ a ∈ normalizeShellFlags args, a.isUtf8 = true := by
  have hbody : ∀ {s body : OsStr}, groupBody s = some body → s.isUtf8 = true →
      body.isUtf8 = true := by
    intro s body h hs
    unfold groupBody at h
    split at h
    · split_ifs at h
      obtain rfl := Option.some.inj h
      exact isUtf8_iff.2 fun x hx => isUtf8_iff.1 hs x (List.mem_cons_of_mem _ hx)
    · cases h
  have hloop : ∀ (args : List OsStr) (st : Normalizing), st.shortFlags.isUtf8 = true →
      (∀ a ∈ st.rest, a.isUtf8 = true) → (args.foldl normalizeArg st).shortFlags.isUtf8 = true ∧
        ∀ a ∈ (args.foldl normalizeArg st).rest, a.isUtf8 = true := by
    intro args
    induction args with
    | nil => exact fun st hs hr => ⟨hs, hr⟩
    | cons a args ih =>
      intro st hs hr
      have hlossy := Shell.isUtf8_toStringLossy a
      refine ih _ ?_ ?_
      · unfold normalizeArg
        dsimp only
        split
        · rename_i body hb
          have hb : groupBody a.toStringLossy = some body := by
            split_ifs at hb
            exact hb
          have := isUtf8_iff.1 (hbody hb hlossy)
          refine isUtf8_iff.2 fun x hx => ?_
          exact (List.mem_append.1 hx).elim (isUtf8_iff.1 hs x) (this x)
        · exact hs
      · unfold normalizeArg
        dsimp only
        split
        · exact hr
        · intro b hb
          rcases List.mem_append.1 hb with hb | hb
          · exact hr b hb
          · rwa [List.mem_singleton.1 hb]
  obtain ⟨hs, hr⟩ := hloop args ⟨[], [], true⟩ rfl nofun
  intro a ha
  rcases List.mem_append.1 ha with ha | ha
  · rcases List.mem_append.1 ha with ha | ha
    · obtain ⟨c, hc, rfl⟩ := List.mem_map.1 ha
      obtain ⟨c', rfl⟩ := isUtf8_iff.1 hs c (List.mem_of_mem_filter hc)
      rfl
    · split_ifs at ha
      · rw [List.mem_singleton.1 ha]
        exact isUtf8_os _
      · cases ha
  · exact hr a ha

/-! ## When the meaning is kept -/

/-- Every flag that takes a text gets it: `-c` is in the last group only, and no group has a name, or
in each group only the last flag takes a text. -/
structure Paired (gs : List Group) : Prop where
  once : ∀ g ∈ gs.dropLast, .command ∉ g
  last : (∀ g ∈ gs, g.names = []) ∨ ∀ g ∈ gs, ∀ f ∈ g.dropLast, ¬ f.Takes

theorem once_cons : (∀ g' ∈ (g :: gs).dropLast, .command ∉ g') ↔
    (.command ∈ g → gs = []) ∧ ∀ g' ∈ gs.dropLast, .command ∉ g' := by
  cases gs with
  | nil => simp
  | cons g' gs => simp

theorem raw_iff (hc : ∃ g ∈ gs, .command ∈ g) : Raw gs ↔
    (∀ g ∈ gs.dropLast, .command ∉ g) ∧ ∀ g ∈ gs, ∀ f ∈ g.dropLast, ¬ f.Takes := by
  induction gs with
  | nil =>
    obtain ⟨g, hg, -⟩ := hc
    cases hg
  | cons g gs ih =>
    rw [Raw, List.forall_mem_cons, once_cons]
    by_cases hg : .command ∈ g
    · rw [if_pos hg]
      constructor
      · rintro ⟨hlast, rfl⟩
        exact ⟨⟨fun _ => rfl, nofun⟩, hlast, nofun⟩
      · rintro ⟨⟨hnil, -⟩, hlast, -⟩
        exact ⟨hlast, hnil hg⟩
    · have hrest : ∃ g ∈ gs, .command ∈ g := by
        obtain ⟨g', hg', hmem⟩ := hc
        exact ⟨g', (List.mem_cons.1 hg').resolve_left fun h => hg (h ▸ hmem), hmem⟩
      rw [if_neg hg, ih hrest]
      constructor
      · rintro ⟨hlast, honce, hall⟩
        exact ⟨⟨fun h => absurd h hg, honce⟩, hlast, hall⟩
      · rintro ⟨⟨-, honce⟩, hlast, hall⟩
        exact ⟨hlast, honce, hall⟩

theorem early_iff (hgs : ∀ g ∈ gs, g.Ok) (hc : ∃ g ∈ gs, .command ∈ g) :
    Early gs ↔ Paired gs := by
  have hpaired : Paired gs ↔ (∀ g ∈ gs.dropLast, .command ∉ g) ∧
      ((∀ g ∈ gs, g.names = []) ∨ ∀ g ∈ gs, ∀ f ∈ g.dropLast, ¬ f.Takes) :=
    ⟨fun h => ⟨h.once, h.last⟩, fun h => ⟨h.1, h.2⟩⟩
  rw [hpaired]
  clear hpaired
  induction gs with
  | nil =>
    obtain ⟨g, hg, -⟩ := hc
    cases hg
  | cons g gs ih =>
    rw [List.forall_mem_cons] at hgs
    rw [Early, List.forall_mem_cons, List.forall_mem_cons, once_cons]
    by_cases hg : .command ∈ g
    · rw [if_pos hg]
      constructor
      · rintro ⟨rfl, hnames⟩
        exact ⟨⟨fun _ => rfl, nofun⟩, .inl ⟨hnames, nofun⟩⟩
      · rintro ⟨⟨hnil, -⟩, hnames | hlast⟩
        · exact ⟨hnil hg, hnames.1⟩
        -- the last flag is `-c`, and no other takes a text
        · refine ⟨hnil hg, names_eq_nil.2 fun f hf ht => ?_⟩
          obtain ⟨init, f', rfl⟩ : ∃ init f', g = init ++ [f'] :=
            ⟨_, _, (List.dropLast_append_getLast hgs.1.nonempty).symm⟩
          rw [List.dropLast_concat] at hlast
          have hone : ∀ f ∈ init ++ [f'], f.Takes → f = f' := fun f hf ht =>
            (List.mem_append.1 hf).elim (fun hf => absurd ht (hlast.1 f hf)) List.mem_singleton.1
          rw [hone f hf ht, ← hone _ hg trivial]
    · have hrest : ∃ g ∈ gs, .command ∈ g := by
        obtain ⟨g', hg', hmem⟩ := hc
        exact ⟨g', (List.mem_cons.1 hg').resolve_left fun h => hg (h ▸ hmem), hmem⟩
      rw [if_neg hg]
      by_cases hnames : g.names = []
      · have hplain := not_takes_of_names hnames hg
        rw [if_pos hnames]
        refine (ih hgs.2 hrest).trans ?_
        constructor
        · rintro ⟨honce, hall⟩
          exact ⟨⟨fun h => absurd h hg, honce⟩, hall.imp (⟨hnames, ·⟩)
            (⟨fun f hf => hplain f (List.dropLast_subset _ hf), ·⟩)⟩
        · rintro ⟨⟨-, honce⟩, hall⟩
          exact ⟨honce, hall.imp And.right And.right⟩
      · rw [if_neg hnames, raw_iff hrest]
        constructor
        · rintro ⟨hlast, honce, hall⟩
          exact ⟨⟨fun h => absurd h hg, honce⟩, .inr ⟨hlast, hall⟩⟩
        · rintro ⟨⟨-, honce⟩, hall⟩
          obtain ⟨hlast, hall⟩ := hall.resolve_left fun h => hnames h.1
          exact ⟨hlast, honce, hall⟩

end Rewritten

/-- When the parser reads the rewritten arguments of a call as a shell reads the call: all of it is
text, its flags are paired with their texts in the order they are rewritten to, and the first operand
is no flag. -/
structure Kept (call : ShellCall) : Prop where
  text : ∀ a ∈ call.args, a.isUtf8 = true
  paired : Paired call.groups
  first : First call.operands

/-- **The flags of a confined shell.** The rewritten arguments of a call keep their meaning exactly
when the call is all text, its first operand is no flag, `-c` is in its last group only, and either
no group has `-o` or `-O` or only the last flag of each group takes a text. -/
theorem keepsMeaning_iff (call : ShellCall) : KeepsMeaning call.args ↔ Kept call := by
  have hnil : ∀ f ∈ ([] : Group), f.Ok ∧ ¬ f.Takes := nofun
  constructor
  · rintro ⟨r, p, hr, hp, hagrees⟩
    obtain rfl := Option.some.inj ((posixRead_args call).symm.trans hr)
    obtain ⟨hoptions, hcommand, hops⟩ := hagrees
    dsimp only at hoptions hcommand hops
    obtain ⟨hvalues, htexts⟩ := text_of_getopt hp (isUtf8_normalize _)
    have hnames : ∀ g ∈ call.groups, ∀ n ∈ g.names, ∃ x, (x, some n) ∈ p.options := by
      intro g hg n hn
      obtain ⟨f, hf, hname⟩ := List.mem_filterMap.1 hn
      refine ⟨f.char, (hoptions _).2 (List.mem_flatMap.2 ⟨g, hg, List.mem_append_right _ ?_⟩)⟩
      exact List.mem_map.2 ⟨f, List.mem_filter.2 ⟨hf, by rw [hname]; rfl⟩, by rw [hname]⟩
    have htext : ∀ a ∈ call.args, a.isUtf8 = true := by
      intro a ha
      rcases List.mem_append.1 ha with ha | ha
      · obtain ⟨g, hg, ha⟩ := List.mem_flatMap.1 ha
        rcases List.mem_cons.1 ha with rfl | ha
        · exact isUtf8_group g
        · obtain ⟨x, hx⟩ := hnames g hg a ha
          exact hvalues _ (List.mem_of_mem_filter hx) a rfl
      · rcases List.mem_cons.1 ha with rfl | ha
        · have hmem : call.command ∈ p.commands := hcommand ▸ List.mem_singleton.2 rfl
          obtain ⟨s, hs, hv⟩ := List.mem_filterMap.1 hmem
          split_ifs at hv
          exact hvalues s hs _ hv
        · exact htexts a (hops ▸ ha)
    have hnodash : ∀ s ∈ p.options, ∀ v ∈ s.2, v.head? ≠ some dash := by
      intro s hs v hv
      obtain ⟨g, hg, hs⟩ := List.mem_flatMap.1 ((hoptions s).1 hs)
      rcases List.mem_append.1 hs with hs | hs
      · obtain ⟨f, -, rfl⟩ := List.mem_map.1 hs
        cases hv
      · obtain ⟨f, hf, rfl⟩ := List.mem_map.1 hs
        exact head_of_mem_names (call.ok g hg)
          (List.mem_filterMap.2 ⟨f, List.mem_of_mem_filter hf, hv⟩)
    obtain ⟨hearly, hfirst⟩ := early_of_getopt hnil call.ok call.plain.1 htext hp hcommand hops
      hnodash
    exact ⟨htext, (early_iff call.ok call.called).1 hearly, hfirst⟩
  · rintro ⟨htext, hpaired, hfirst⟩
    obtain ⟨p, hp, hcommand, hops, hoptions⟩ := getopt_of_early hnil call.ok htext
      ((early_iff call.ok call.called).2 hpaired) hfirst
    exact ⟨_, p, posixRead_args call, hp, fun o => by rw [hoptions]; rfl, hcommand, hops⟩

/-- **Three calls that are misread.** `-ceuo pipefail cmd` makes `-c` the name of an option, `-c -e
cmd` runs `-e`, and the `$0` of `-c cmd -x` is a flag. -/
theorem not_keepsMeaning_calls : ¬ KeepsMeaning [os "-ceuo", os "pipefail", os "cmd"] ∧
      ¬ KeepsMeaning [os "-c", os "-e", os "cmd"] ∧ ¬ KeepsMeaning [os "-c", os "cmd", os "-x"] := by
  have hread : ∀ {args : List OsStr} {r : PosixReading} {p : Parsed}, posixRead args = some r →
      getopt (normalizeShellFlags args) = some p →
        (p.commands ≠ [r.command] ∨ p.operands ≠ r.operands) → ¬ KeepsMeaning args := by
    rintro args r p hr hp hne ⟨r', p', hr', hp', hagrees⟩
    obtain rfl := Option.some.inj (hr.symm.trans hr')
    obtain rfl := Option.some.inj (hp.symm.trans hp')
    exact hne.elim (absurd hagrees.command) (absurd hagrees.operands)
  refine ⟨?_, ?_, ?_⟩
  · exact hread
      (r := ⟨[(.chr 'e', none), (.chr 'u', none), (.chr 'o', some (os "pipefail"))], os "cmd", []⟩)
      (p := ⟨[(.chr 'e', none), (.chr 'u', none), (.chr 'o', some (os "-c"))],
        [os "pipefail", os "cmd"]⟩) (by decide) (by decide) (.inl (by decide))
  · exact hread (r := ⟨[(.chr 'e', none)], os "cmd", []⟩)
      (p := ⟨[(.chr 'c', some (os "-e"))], [os "cmd"]⟩) (by decide) (by decide)
      (.inl (by decide))
  · exact hread (r := ⟨[], os "cmd", [os "-x"]⟩)
      (p := ⟨[(.chr 'c', some (os "cmd")), (.chr 'x', none)], []⟩) (by decide) (by decide)
      (.inr (by decide))

end Seahaven.ShellFlags
