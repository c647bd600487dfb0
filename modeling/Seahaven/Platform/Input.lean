import Seahaven.Platform.Cmd

/-!
# Nobody loses the session's input

1. `Step.Hands`: what stretch of the input an effect took, judged by what it answered and by the
   child it ran.
2. `step_hands` and `step_refused`: what one effect takes, and what an effect that fails leaves.
3. `input_partitioned`: over a whole run the stretches are the input, in order.
-/

namespace Seahaven

namespace Platform

variable {σ : Type}

namespace Step

variable (x : Executor σ) (s : Step σ)

def DropsInput : Prop :=
  ∃ cmd io e, s.request.child = some (cmd, io) ∧ io.stdin = .inherit ∧
    s.before.runs x cmd io = .error e ∧ s.before.input.rest ≠ []

/-- The effect reports, as an error, on a child that did run and that a signal ended. -/
def KilledChild : Prop :=
  ∃ cmd result signal, s.request = .cmdExecExitCode cmd ∧
    s.before.runs x cmd .inherit = .ok result ∧ result.exit = .signal signal

/-- What an effect takes from the input, as its answer or as what its child was handed. -/
def Hands (piece : List UInt8) : Prop :=
  match s.request with
  | .stdinLine =>
    (piece = [] ∧ s.before.input.rest = [] ∧ s.reply x = .ok (.line none)) ∨
      ∃ line, s.reply x = .ok (.line (some line)) ∧
        StdinSource.IsLine piece (s.after x).input.rest line
  | .stdinReadToEnd => s.reply x = .ok (.bytes piece)
  | .stdinBytes => s.reply x = .ok (.chunk (if piece = [] then none else some piece))
  | r =>
    match r.child with
    | some (cmd, io) =>
      ((∃ result, s.before.runs x cmd io = .ok result) ∧ piece = s.before.childInput io) ∨
        ((∃ e, s.before.runs x cmd io = .error e ∧ s.reply x = .error e) ∧
          (s.DropsInput x ∨ piece = []))
    | none => piece = []

/-- The output log, the job table and the next handle are as they were. -/
structure KeepsBooks : Prop where
  output : (s.after x).output = s.before.output
  jobs : (s.after x).jobs = s.before.jobs
  nextHandle : (s.after x).nextHandle = s.before.nextHandle

/-- The effect leaves what `cmd_exec_status` leaves, which would have reported its child. -/
def LeavesStatus : Prop :=
  ∃ cmd, s.request = .cmdExecExitCode cmd ∧
    s.after x = (perform x (.cmdExecStatus cmd) s.before).2

end Step

/-! ## One effect -/

section One

variable {x : Executor σ} {s : Step σ} {cmd : Cmd} {io : IoPlan} {p : VfsPlatform σ}

theorem input_drained (io : IoPlan) (p : VfsPlatform σ) :
    p.input.rest = p.childInput io ++ (p.drained io).input.rest := by
  obtain ⟨output, stdin⟩ := io
  cases stdin with
  | inherit =>
    show p.input.rest = p.input.rest ++ p.input.readToEnd.2.rest
    rw [StdinSource.rest_readToEnd, List.append_nil]
  | null => rfl

theorem drained_of_rest_nil (h : io.stdin = .inherit → p.input.rest = []) : p.drained io = p := by
  obtain ⟨output, stdin⟩ := io
  cases stdin with
  | inherit =>
    show { p with input := p.input.readToEnd.2 } = p
    rw [StdinSource.readToEnd_of_rest_nil (h rfl)]
  | null => rfl

theorem childInput_of_rest_nil (h : io.stdin = .inherit → p.input.rest = []) :
    p.childInput io = [] := by
  obtain ⟨output, stdin⟩ := io
  cases stdin with
  | inherit => exact h rfl
  | null => rfl

theorem child_hands (hc : s.request.child = some (cmd, io)) :
    s.before.input.rest = s.before.childInput io ++ (s.after x).input.rest := by
  rw [Step.after]
  cases hr : s.before.runs x cmd io with
  | error e =>
    rw [perform_of_error hc hr]
    exact input_drained io s.before
  | ok result =>
    rcases exec_of_child hc with hspawn | ⟨report, hexec⟩
    · rw [hspawn, perform_spawn hr]
      exact input_drained io s.before
    · rw [perform_exec hexec hr]
      exact input_drained io s.before

theorem dropsInput_of_error {e : PlatformError} (hc : s.request.child = some (cmd, io))
    (hr : s.before.runs x cmd io = .error e) (hd : ¬ s.DropsInput x) :
    io.stdin = .inherit → s.before.input.rest = [] := by
  intro hin
  by_contra hne
  exact hd ⟨cmd, io, e, hc, hin, hr, hne⟩

theorem child_outcome (hc : s.request.child = some (cmd, io)) :
    ((∃ result, s.before.runs x cmd io = .ok result)) ∨
      ((∃ e, s.before.runs x cmd io = .error e ∧ s.reply x = .error e) ∧
        (s.DropsInput x ∨ s.before.childInput io = [])) := by
  cases hr : s.before.runs x cmd io with
  | ok result => exact .inl ⟨result, rfl⟩
  | error e =>
    refine .inr ⟨⟨e, rfl, ?_⟩, ?_⟩
    · rw [Step.reply, perform_of_error hc hr]
    · by_cases hd : s.DropsInput x
      · exact .inl hd
      · exact .inr (childInput_of_rest_nil (dropsInput_of_error hc hr hd))

/-- **Every effect takes a stretch from the front of the input.** -/
theorem step_hands (x : Executor σ) (s : Step σ) :
    ∃ piece, s.Hands x piece ∧ s.before.input.rest = piece ++ (s.after x).input.rest := by
  have hchild : ∀ cmd io, s.request.child = some (cmd, io) →
      ∃ piece, (((∃ result, s.before.runs x cmd io = .ok result) ∧
          piece = s.before.childInput io) ∨
        ((∃ e, s.before.runs x cmd io = .error e ∧ s.reply x = .error e) ∧
          (s.DropsInput x ∨ piece = []))) ∧
        s.before.input.rest = piece ++ (s.after x).input.rest := by
    intro cmd io hc
    refine ⟨s.before.childInput io, ?_, child_hands hc⟩
    rcases child_outcome (x := x) hc with hok | herr
    · exact .inl ⟨hok, rfl⟩
    · exact .inr herr
  obtain ⟨p, r⟩ := s
  cases r with
  | stdinLine =>
    rcases p.input.readLine_spec with ⟨hnil, hread⟩ | ⟨piece, line, hline, hsplit, hpiece⟩
    · refine ⟨[], .inl ⟨rfl, hnil, ?_⟩, ?_⟩
      · show Except.ok (Reply.line p.input.readLine.1) = _
        rw [hread]
      · show p.input.rest = [] ++ p.input.readLine.2.rest
        rw [hread, List.nil_append]
    · refine ⟨piece, .inr ⟨line, ?_, hpiece⟩, hsplit⟩
      show Except.ok (Reply.line p.input.readLine.1) = _
      rw [hline]
  | stdinReadToEnd =>
    refine ⟨p.input.rest, rfl, ?_⟩
    show p.input.rest = p.input.rest ++ p.input.readToEnd.2.rest
    rw [StdinSource.rest_readToEnd, List.append_nil]
  | stdinBytes =>
    by_cases hnil : p.input.rest = []
    · refine ⟨[], ?_, ?_⟩
      · show Except.ok (Reply.chunk p.input.readChunk.1) = _
        rw [StdinSource.readChunk_of_nil hnil, if_pos rfl]
      · show p.input.rest = [] ++ p.input.readChunk.2.rest
        rw [StdinSource.readChunk_of_nil hnil, List.nil_append]
    · refine ⟨p.input.rest, ?_, ?_⟩
      · show Except.ok (Reply.chunk p.input.readChunk.1) = _
        rw [StdinSource.readChunk_of_ne_nil hnil, if_neg hnil]
      · show p.input.rest = p.input.rest ++ p.input.readChunk.2.rest
        rw [StdinSource.readChunk_of_ne_nil hnil, StdinSource.rest_readToEnd, List.append_nil]
  | waitAny handles =>
    refine ⟨[], rfl, ?_⟩
    show p.input.rest = (perform x (.waitAny handles) p).2.input.rest
    rw [perform, Op.map_apply]
    rcases waitAny_spec handles p with ⟨-, hw⟩ | ⟨h, -, f, -, hw⟩
    · rw [hw]
    · rw [hw]
  | spawn cmd io => exact hchild cmd io rfl
  | cmdExecExitCode cmd => exact hchild cmd .inherit rfl
  | cmdExecStatus cmd => exact hchild cmd .inherit rfl
  | cmdExecOutput cmd => exact hchild cmd (.capture .null) rfl
  | cmdExecOutputInheritStdin cmd => exact hchild cmd (.capture .inherit) rfl
  | stdoutWrite bytes => exact ⟨[], rfl, rfl⟩
  | stderrWrite bytes => exact ⟨[], rfl, rfl⟩
  | stdoutLine bytes => exact ⟨[], rfl, rfl⟩
  | stderrLine bytes => exact ⟨[], rfl, rfl⟩

theorem reply_of_report {report : Finished → Except PlatformError Reply} {result : RunResult}
    (hx : s.request.exec = some (cmd, io, report)) (hr : s.before.runs x cmd io = .ok result) :
    s.reply x = report (finishedOf io result) := by
  rw [Step.reply, perform_exec hx hr]

theorem killed_of_report {report : Finished → Except PlatformError Reply} {result : RunResult}
    {e : PlatformError} (hx : s.request.exec = some (cmd, io, report))
    (hr : s.before.runs x cmd io = .ok result) (he : report (finishedOf io result) = .error e) :
    s.KilledChild x ∧ e = killedBySignal ∧ s.LeavesStatus x := by
  obtain ⟨p, r⟩ := s
  cases r with
  | cmdExecExitCode c =>
    obtain ⟨rfl, rfl, rfl⟩ : c = cmd ∧ IoPlan.inherit = io ∧ exitCodeOf = report := by
      simpa [Request.exec] using hx
    cases hexit : result.exit with
    | code code => simp [exitCodeOf, finishedOf, hexit] at he
    | signal signal =>
      have hkill : killedBySignal = e := by simpa [exitCodeOf, finishedOf, hexit] using he
      refine ⟨⟨c, result, signal, rfl, hr, hexit⟩, hkill.symm, c, rfl, ?_⟩
      show (perform x (.cmdExecExitCode c) p).2 = _
      rw [perform_exec hx hr, perform_exec (r := .cmdExecStatus c) rfl hr]
  | cmdExecStatus c =>
    obtain ⟨rfl, rfl, rfl⟩ : c = cmd ∧ IoPlan.inherit = io ∧ statusOf = report := by
      simpa [Request.exec] using hx
    cases hexit : result.exit <;> simp [statusOf, finishedOf, hexit] at he
  | cmdExecOutput c =>
    obtain ⟨rfl, rfl, rfl⟩ : c = cmd ∧ IoPlan.capture .null = io ∧ outputOf = report := by
      simpa [Request.exec] using hx
    simp [outputOf] at he
  | cmdExecOutputInheritStdin c =>
    obtain ⟨rfl, rfl, rfl⟩ : c = cmd ∧ IoPlan.capture .inherit = io ∧ outputOf = report := by
      simpa [Request.exec] using hx
    simp [outputOf] at he
  | _ => exact absurd hx (by simp [Request.exec])

theorem refused_of_error {e : PlatformError} (hc : s.request.child = some (cmd, io))
    (hr : s.before.runs x cmd io = .error e) :
    s.KeepsBooks x ∧ (s.DropsInput x ∨ (s.after x).input = s.before.input) := by
  have hafter : s.after x =
      { s.before.drained io with executor := s.before.executorAfter x cmd io } := by
    rw [Step.after, perform_of_error hc hr]
  have hio : io.stdin = .inherit ∨ io.stdin = .null := by cases io.stdin <;> simp
  constructor
  · rw [VfsPlatform.drained] at hafter
    rcases hio with h | h
    · rw [h] at hafter
      exact ⟨by rw [hafter], by rw [hafter], by rw [hafter]⟩
    · rw [h] at hafter
      exact ⟨by rw [hafter], by rw [hafter], by rw [hafter]⟩
  · by_cases hd : s.DropsInput x
    · exact .inl hd
    · right
      rw [hafter, drained_of_rest_nil (dropsInput_of_error hc hr hd)]

/-- **An effect that fails** leaves all as it was, but for the input of an inheriting run that did
not happen; or else its child ran, and a signal ended it. -/
theorem step_refused {e : PlatformError} (h : s.reply x = .error e) :
    (s.KilledChild x ∧ e = killedBySignal ∧ s.LeavesStatus x) ∨
      s.KeepsBooks x ∧ (s.DropsInput x ∨ (s.after x).input = s.before.input) := by
  by_cases hchild : ∃ cmd io, s.request.child = some (cmd, io)
  · obtain ⟨cmd, io, hc⟩ := hchild
    cases hr : s.before.runs x cmd io with
    | error e' => exact .inr (refused_of_error hc hr)
    | ok result =>
      rcases exec_of_child hc with hspawn | ⟨report, hx⟩
      · rw [Step.reply, hspawn, perform_spawn hr] at h
        cases h
      · rw [reply_of_report hx hr] at h
        exact .inl (killed_of_report hx hr h)
  · right
    obtain ⟨p, r⟩ := s
    cases r with
    | waitAny handles =>
      rw [Step.reply, perform, Op.map_apply] at h
      have hafter : (Step.mk p (.waitAny handles)).after x = (waitAny handles p).2 := by
        rw [Step.after, perform, Op.map_apply]
      rcases waitAny_spec handles p with ⟨-, hw⟩ | ⟨k, -, f, -, hw⟩
      · rw [hw] at hafter
        exact ⟨⟨by rw [hafter], by rw [hafter], by rw [hafter]⟩, .inr (by rw [hafter])⟩
      · rw [show (waitAny handles p).1 = .ok (k, f) by rw [hw]] at h
        cases h
    | spawn cmd io => exact absurd ⟨cmd, io, rfl⟩ hchild
    | cmdExecExitCode cmd => exact absurd ⟨cmd, .inherit, rfl⟩ hchild
    | cmdExecStatus cmd => exact absurd ⟨cmd, .inherit, rfl⟩ hchild
    | cmdExecOutput cmd => exact absurd ⟨cmd, .capture .null, rfl⟩ hchild
    | cmdExecOutputInheritStdin cmd => exact absurd ⟨cmd, .capture .inherit, rfl⟩ hchild
    | _ => cases h

end One

/-! ## A whole run -/

theorem hands_steps (x : Executor σ) (rs : List Request) (p : VfsPlatform σ) :
    ∃ pieces, List.Forall₂ (Step.Hands x) (steps x p rs) pieces ∧
      p.input.rest = pieces.flatten ++ (final x p rs).input.rest := by
  induction rs generalizing p with
  | nil => exact ⟨[], .nil, rfl⟩
  | cons r rs ih =>
    obtain ⟨piece, hpiece, hsplit⟩ := step_hands x ⟨p, r⟩
    obtain ⟨pieces, hpieces, hrest⟩ := ih (perform x r p).2
    refine ⟨piece :: pieces, .cons hpiece hpieces, ?_⟩
    rw [List.flatten_cons, List.append_assoc]
    show p.input.rest = piece ++ (pieces.flatten ++ (final x (perform x r p).2 rs).input.rest)
    rw [← hrest]
    exact hsplit

/-- **The input is partitioned.** Over any run, with any executor, the session's input is cut, in
order, into what the effects answered, what the children that ran were handed, and what is left
unread. A line is cut with its newline and answered as its text, without a carriage return at its
end. An effect that fails leaves the output log, the job table and the next handle, and the input
too (what an inheriting run that does not happen was to be handed is left open); the one error
after a child did run says that a signal ended it, and leaves what `cmd_exec_status` leaves. -/
theorem input_partitioned (x : Executor σ) (stdin : List UInt8) (executor : Option σ)
    (rs : List Request) :
    (∃ pieces, List.Forall₂ (Step.Hands x) (steps x (.new stdin executor) rs) pieces ∧
      stdin = pieces.flatten ++ (final x (.new stdin executor) rs).input.rest) ∧
    ∀ s ∈ steps x (.new stdin executor) rs, ∀ e, s.reply x = .error e →
      (s.KilledChild x ∧ e = killedBySignal ∧ s.LeavesStatus x) ∨
        s.KeepsBooks x ∧ (s.DropsInput x ∨ (s.after x).input = s.before.input) :=
  ⟨hands_steps x rs (.new stdin executor), fun _ _ _ he => step_refused he⟩

/-- A child that ran and was killed is reported as an error, with its input taken. -/
theorem killed_child_took_input : let x : Executor Unit := fun _ _ s => (.ok ⟨.signal 9, [], []⟩, s)
    ∃ s ∈ steps x (.new (os "hi").bytes (some ())) [.cmdExecExitCode (.new (os "cat"))],
      s.reply x = .error killedBySignal ∧ (s.after x).input.rest ≠ s.before.input.rest ∧
        (s.after x).nextHandle ≠ s.before.nextHandle := by
  refine ⟨_, List.mem_cons_self, ?_, ?_, ?_⟩ <;> decide

end Platform

end Seahaven
