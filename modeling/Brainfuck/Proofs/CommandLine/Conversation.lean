import Brainfuck.CommandLine.Console
import Brainfuck.Proofs.CommandLine.Response
import Brainfuck.Proofs.Input.LineText

/-!
# Conversations

Held with streams that give what they hold and take all that is written, the conversation of the
command line program leaves behind what the program does as a function of its arguments and its
input. What was written to the streams and is still to be read from them makes up, at each turn, the
buffer and the source of the run on all of the input.
-/

namespace Brainfuck.CommandLine

/-- Standard input that is still to be read, and what was written to the other streams. -/
structure Streams where
  stdin : List UInt8
  stdout : List UInt8 := []
  stderr : String := ""

def Streams.response (s : Streams) (exitCode : Nat) : Response := ⟨exitCode, s.stdout, s.stderr⟩

/-- A console on streams, with the files of a host. -/
def Host.console (host : Host) : Console (StateM Streams) where
  read path := return host.read path
  readLine s :=
    (.ok (Lines.splitLine s.stdin).1, { s with stdin := (Lines.splitLine s.stdin).2 })
  write bytes s := (.ok (), { s with stdout := s.stdout ++ bytes })
  tell text s := ((), { s with stderr := s.stderr ++ text })

theorem bind_apply {S α β : Type} (x : StateM S α) (f : α → StateM S β) (s : S) :
    (x >>= f) s = f (x s).1 (x s).2 := rfl

/-! ### Lines -/

/-- What is read when the next line is asked for, and what is left. -/
def Options.readLine (options : Options) (stdin : List UInt8) : List UInt8 × List UInt8 :=
  if options.useStdin then Lines.splitLine stdin else ([], stdin)

/-- A source made of bytes gives what is read of them a line at a time. -/
def Options.Feeds {σ : Type} [InputSource σ] (options : Options) (feed : List UInt8 → σ) : Prop :=
  ∀ stdin m, InputSource.nextChunk (feed stdin) m =
    ((InputSource.nextChunk (⟨(options.readLine stdin).1⟩ : Lines) m).1,
      feed (options.readLine stdin).2)

variable {σ : Type} [InputSource σ] {host : Host} {options : Options} {feed : List UInt8 → σ}

theorem nextChunk_readLine (options : Options) (stdin : List UInt8) (m : Machine) :
    (InputSource.nextChunk (⟨(options.readLine stdin).1⟩ : Lines) m).2 = ⟨[]⟩ := by
  rw [Options.readLine]
  split
  · exact (Lines.nextChunk_splitLine stdin m).2
  · rfl

theorem Options.feeds_lines (h : options.useStdin = true) : options.Feeds Lines.mk := by
  intro stdin m
  rw [readLine, if_pos h]
  exact (Lines.nextChunk_splitLine stdin m).1

theorem Options.feeds_script (h : options.useStdin = false) :
    options.Feeds fun _ => ({} : Script) := by
  intro stdin m
  rw [readLine, if_neg (by simp [h])]
  rfl

/-! ### Turns -/

/-- Between two turns of a conversation nothing waits in the buffer and no line was read ahead. -/
def settled (written : String.Pos.Raw) : ForwardingSource ByteBuffer Lines :=
  ⟨⟨{}, written⟩, ⟨[]⟩⟩

/-- The run on all of the input has in its buffer what the conversation has written, and in its source
what that one has not read. -/
def gathered (feed : List UInt8 → σ) (written : String.Pos.Raw) (s : Streams) :
    ForwardingSource ByteBuffer σ :=
  ⟨⟨⟨s.stdout.toArray⟩, written⟩, feed s.stdin⟩

theorem asksInput_iff {τ : Type} {bounds : RunOptions} {r : Run τ} :
    asksInput bounds r = true ↔ r.atLimit bounds = false ∧ r.machine.step.1 = .blocked := by
  rw [asksInput, Bool.and_eq_true, Bool.not_eq_true', Bool.or_eq_true, Machine.readsNothing_iff,
    Machine.step_blocked_iff]

theorem turn_of_asksInput_eq_false {τ : Type} {bounds : RunOptions} {r : Run τ}
    (h : asksInput bounds r = false) :
    ∃ t m report, ∀ {σ : Type} [InputSource σ] (s : σ),
      (⟨r.machine, s, r.report⟩ : Run σ).turn bounds = (t, ⟨m, s, report⟩) := by
  cases hl : r.atLimit bounds with
  | true =>
    refine ⟨.ended (.error (.stepLimitExceeded bounds.stepLimit r.machine.ip)), r.machine, r.report,
      fun s => ?_⟩
    exact Run.turn_of_atLimit (r := ⟨r.machine, s, r.report⟩) hl
  | false =>
    rcases hs : r.machine.step with ⟨_ | _ | _, m⟩
    · refine ⟨.executed, m, { r.report with steps := r.report.steps + 1 }, fun s => ?_⟩
      exact Run.turn_of_step_executed (r := ⟨r.machine, s, r.report⟩) hl hs
    · have hasks := asksInput_iff.2 ⟨hl, by rw [hs]⟩
      rw [h] at hasks
      cases hasks
    · refine ⟨.ended (.ok r.report), r.machine.finish.2, r.report, fun s => ?_⟩
      exact Run.turn_of_step_done (r := ⟨r.machine, s, r.report⟩) hl (by rw [hs])

theorem turn_of_asksInput {τ : Type} {bounds : RunOptions} {r : Run τ}
    (h : asksInput bounds r = true) (answer : Except Error (Option String)) :
    ∃ t m report, ∀ {σ : Type} [InputSource σ] (s s₁ : σ),
      InputSource.nextChunk s r.machine.step.2 = (answer, s₁) →
        (⟨r.machine, s, r.report⟩ : Run σ).turn bounds = (t, ⟨m, s₁, report⟩) := by
  obtain ⟨hl, hs⟩ := asksInput_iff.1 h
  rw [Machine.step_eq_of_blocked hs]
  have hturn {σ : Type} [InputSource σ] (s s₁ : σ)
      (hnext : InputSource.nextChunk s { r.machine with blocked := true } = (answer, s₁)) :=
    Run.turn_of_step_blocked (r := ⟨r.machine, s, r.report⟩) hl hs hnext
  rcases answer with e | _ | chunk
  · exact ⟨.ended (.error e), { r.machine with blocked := true }, r.report, hturn⟩
  · exact ⟨.ended (.error (.inputExhausted r.machine.ip)), { r.machine with blocked := true },
      r.report, hturn⟩
  · exact ⟨.refilled chunk, r.machine.supply chunk, r.report + ⟨0, 1⟩, hturn⟩

omit [InputSource σ] in
theorem flush_gathered (feed : List UInt8 → σ) (written : String.Pos.Raw) (s : Streams)
    (m : Machine) :
    (gathered feed written s).forwarder.flush m =
      (.ok (), (gathered feed ((settled written).forwarder.flush m).2.written
        { s with stdout :=
          s.stdout ++ ((settled written).forwarder.flush m).2.writer.bytes.toList }).forwarder) := by
  rw [Forwarder.flush_buffer, Forwarder.flush_buffer]
  simp [gathered, settled, Forwarder.pending]
  rfl

theorem flush_console (f : Forwarder ByteBuffer) (m : Machine) (s : Streams) :
    host.console.flush f m s = (.ok ⟨{}, (f.flush m).2.written⟩,
      { s with stdout := s.stdout ++ (f.flush m).2.writer.bytes.toList }) := rfl

theorem nextLine_console (options : Options) (s : Streams) :
    host.console.nextLine options s = (.ok ⟨(options.readLine s.stdin).1⟩,
      { s with stdin := (options.readLine s.stdin).2 }) := by
  rw [Console.nextLine, Options.readLine]
  split <;> rfl

/-- A turn of a conversation is the turn of the run on all of the input. -/
theorem turn_console (host : Host) (hfeed : options.Feeds feed) (m : Machine) (written : String.Pos.Raw)
    (report : RunReport) (s : Streams) :
    ∃ t m₁ written₁ report₁ s₁,
      host.console.turn options ⟨m, settled written, report⟩ s =
        ((t, ⟨m₁, settled written₁, report₁⟩), s₁) ∧
      (⟨m, gathered feed written s, report⟩ : Run _).turn options.run =
        (t, ⟨m₁, gathered feed written₁ s₁, report₁⟩) ∧ s₁.stderr = s.stderr := by
  cases hasks : asksInput options.run (⟨m, settled written, report⟩ : BufferedRun) with
  | false =>
    obtain ⟨t, m₁, report₁, hturn⟩ := turn_of_asksInput_eq_false hasks
    refine ⟨t, m₁, written, report₁, s, ?_, hturn _, rfl⟩
    rw [Console.turn, if_neg (by simp [hasks])]
    exact congrArg (·, s) (hturn (settled written))
  | true =>
    obtain ⟨sent, hsent⟩ : ∃ sent, (settled written).forwarder.flush m.step.2 = sent := ⟨_, rfl⟩
    let line := (options.readLine s.stdin).1
    obtain ⟨t, m₁, report₁, hturn⟩ :=
      turn_of_asksInput hasks (InputSource.nextChunk (⟨line⟩ : Lines) m.step.2).1
    refine ⟨t, m₁, sent.2.written, report₁,
      ⟨(options.readLine s.stdin).2, s.stdout ++ sent.2.writer.bytes.toList, s.stderr⟩, ?_, ?_, rfl⟩
    · have hown := hturn ⟨⟨{}, sent.2.written⟩, ⟨line⟩⟩ (settled sent.2.written) (by
        rw [nextChunk_buffer, nextChunk_readLine, ← hsent, Forwarder.flush_of_flush]
        rfl)
      rw [Console.turn, if_pos hasks]
      simp only [bind_apply, flush_console, nextLine_console]
      rw [hsent]
      exact congrArg (·, _) hown
    · apply hturn
      rw [nextChunk_buffer, flush_gathered, hsent]
      simp only [gathered, hfeed s.stdin]
      rfl

/-- What a run on all of the input comes to, given what a conversation comes to. -/
def gatheredRun (feed : List UInt8 → σ) (fin : FinishedRun (ForwardingSource ByteBuffer Lines))
    (s : Streams) : FinishedRun (ForwardingSource ByteBuffer σ) :=
  ⟨fin.result, fin.machine, gathered feed fin.source.forwarder.written s⟩

theorem run_console (host : Host) (hfeed : options.Feeds feed) (fuel : Nat) (m : Machine)
    (written : String.Pos.Raw) (report : RunReport) (s : Streams) :
    ∃ fin? s₁, host.console.run options fuel ⟨m, settled written, report⟩ s = (fin?, s₁) ∧
      (∀ fin, fin? = some fin → ∃ written, fin.source = settled written) ∧
      (⟨m, gathered feed written s, report⟩ : Run _).drive options.run
        (fun shown event m =>
          match event with
          | .turned .executed => if options.trace then shown ++ traceText m else shown
          | _ => shown) fuel s.stderr =
        fin?.map fun fin => (s₁.stderr, gatheredRun feed fin s₁) := by
  induction fuel generalizing m written report s with
  | zero => exact ⟨none, s, rfl, nofun, rfl⟩
  | succ fuel ih =>
    obtain ⟨t, m₁, written₁, report₁, s₁, hturn, hwhole, hstderr⟩ :=
      turn_console host hfeed m written report s
    rw [Console.run, bind_apply, hturn]
    simp only [Run.drive, hwhole, ite_self, ← hstderr]
    cases t with
    | ended result =>
      exact ⟨_, s₁, rfl, fun fin hfin => ⟨written₁, by rw [← Option.some.inj hfin]⟩, rfl⟩
    | refilled chunk => exact ih m₁ written₁ report₁ s₁
    | executed =>
      cases htrace : options.trace with
      | false =>
        simp only [htrace, Bool.false_eq_true, if_false] at ih ⊢
        exact ih m₁ written₁ report₁ s₁
      | true =>
        simp only [htrace, if_true] at ih ⊢
        exact ih m₁ written₁ report₁ { s₁ with stderr := s₁.stderr ++ traceText m₁ }

/-! ### The whole conversation -/

theorem load_console (origin : Option ProgramOrigin) (s : Streams) :
    host.console.load origin s = (host.load origin, s) := by
  rcases origin with _ | text | path <;> rfl

omit [InputSource σ] in
theorem close_console (host : Host) (options : Options) (feed : List UInt8 → σ) (s : Streams)
    {fin : FinishedRun (ForwardingSource ByteBuffer Lines)}
    (hfin : ∃ written, fin.source = settled written) :
    ∃ code s₁, host.console.close options fin s = (code, s₁) ∧ s₁.response code =
      ⟨exitCode (fin.result.map fun _ => ()),
        ((gatheredRun feed fin s).source.forwarder.flush fin.machine).2.writer.bytes.toList,
        s.stderr ++ closingText options (fin.result matches .error _) fin.machine ++
          resultText (fin.result.map fun _ => ())⟩ := by
  obtain ⟨result, m, source⟩ := fin
  obtain ⟨written, rfl⟩ := hfin
  refine ⟨_, _, rfl, ?_⟩
  rw [gatheredRun, flush_gathered]
  cases result with
  | error e => exact congrArg (Response.mk _ · _) List.toList_toArray.symm
  | ok report => exact congrArg (Response.mk _ · _) List.toList_toArray.symm

theorem play_console (host : Host) (hfeed : options.Feeds feed) (fuel : Nat) (program : Program)
    (stdin : List UInt8) :
    ∃ code? s, host.console.play options fuel program ⟨stdin, [], ""⟩ = (code?, s) ∧
      code?.map s.response = runProgram fuel options program (feed stdin) := by
  obtain ⟨fin?, s, hconsole, hsettled, hdrive⟩ := run_console host hfeed fuel
    (options.machine program) 0 {} ⟨stdin, [], ""⟩
  change host.console.run options fuel
    ⟨options.machine program, ⟨{ writer := {} }, ⟨[]⟩⟩, {}⟩ _ = _ at hconsole
  have htrace : (options.machine program).traceOn options.run
      (fun shown m => if options.trace then shown ++ traceText m else shown) fuel ""
      (⟨⟨{}, 0⟩, feed stdin⟩ : ForwardingSource ByteBuffer σ) =
        fin?.map fun fin => (s.stderr, gatheredRun feed fin s) := hdrive
  rw [Options.runProgram_eq_map, htrace, Console.play, bind_apply, hconsole]
  cases fin? with
  | none => exact ⟨_, _, rfl, rfl⟩
  | some fin =>
    obtain ⟨code, s₁, hclose, hresponse⟩ :=
      close_console host options feed s (hsettled fin rfl)
    refine ⟨some code, s₁, ?_, congrArg some hresponse⟩
    simp only [bind_apply, hclose]
    rfl

/-- The conversation leaves behind what the program does as a function of its input. -/
theorem perform_console (host : Host) (options : Options) (fuel : Nat) (stdin : List UInt8) :
    ∃ code? s, host.console.perform options fuel ⟨stdin, [], ""⟩ = (code?, s) ∧
      code?.map s.response = host.answer fuel options stdin := by
  rw [Console.perform, bind_apply, load_console, Host.answer]
  cases host.load options.program with
  | error e => exact ⟨_, _, rfl, rfl⟩
  | ok text =>
    cases hdisassemble : options.disassemble with
    | true => exact ⟨_, _, rfl, rfl⟩
    | false =>
      cases hstdin : options.useStdin with
      | true => exact play_console host (Options.feeds_lines hstdin) fuel (Program.ofString text) stdin
      | false => exact play_console host (Options.feeds_script hstdin) fuel (Program.ofString text) stdin

end Brainfuck.CommandLine
