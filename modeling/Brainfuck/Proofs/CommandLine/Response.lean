import Brainfuck.CommandLine.Invocation
import Brainfuck.Proofs.Output.Buffer

/-!
# Responses

The bounded run of a command line that loads a program decides all that is left behind: the bytes
that the run printed are on standard output, each once, and the exit code is the result of the run,
whatever is shown beside it.
-/

namespace Brainfuck.CommandLine

/-- On a host, a command line comes to an end, and this is it. -/
def Host.Concludes (host : Host) (arguments : List String) (stdin : List UInt8)
    (c : Conclusion) : Prop :=
  ∃ fuel, host.conclude fuel arguments stdin = some c

namespace Options

def Runs (options : Options) (stdin : List UInt8) (program : Program) (t : Transcript)
    (result : Except Error RunReport) (m : Machine) : Prop :=
  if options.useStdin then
    ∃ rest, (options.machine program).Performs options.run (Lines.mk stdin) t ⟨result, m, rest⟩
  else
    ∃ rest, (options.machine program).Performs options.run ({} : Script) t ⟨result, m, rest⟩

def response (options : Options) (t : Transcript) (result : Except Error RunReport) (m : Machine) :
    Response where
  exitCode := exitCode (result.map fun _ => ())
  stdout := t.printed
  stderr :=
    (if options.trace then String.join (t.left.map traceText) else "") ++
      closingText options (result matches .error _) m ++ resultText (result.map fun _ => ())

variable {σ : Type} [InputSource σ] {options : Options} {program : Program} {source : σ}
  {response : Response}

theorem foldl_traceText (trace : Bool) (ms : List Machine) (shown : String) :
    ms.foldl (fun shown m => if trace then shown ++ traceText m else shown) shown =
      shown ++ if trace then String.join (ms.map traceText) else "" := by
  cases trace with
  | false => simp
  | true =>
    simp only [if_true]
    induction ms generalizing shown with
    | nil => simp
    | cons m ms ih => rw [List.foldl_cons, ih, List.map_cons, String.join_cons, String.append_assoc]

theorem runProgram_eq_map {fuel : Nat} :
    runProgram fuel options program source =
      ((options.machine program).traceOn options.run
          (fun shown m => if options.trace then shown ++ traceText m else shown) fuel ""
          (⟨⟨{}, 0⟩, source⟩ : ForwardingSource ByteBuffer σ)).map fun (shown, fin) =>
        ⟨exitCode (fin.result.map fun _ => ()),
          (fin.source.forwarder.flush fin.machine).2.writer.bytes.toList,
          shown ++ closingText options (fin.result matches .error _) fin.machine ++
            resultText (fin.result.map fun _ => ())⟩ := by
  have hresult (fin : FinishedRun (ForwardingSource ByteBuffer σ)) :
      overallResult fin.result (fin.source.forwarder.flush fin.machine).1 =
        fin.result.map fun _ => () := by
    rw [Forwarder.flush_buffer]
    cases fin.result <;> rfl
  rw [Option.map_eq_bind]
  refine Option.bind_congr fun ⟨shown, fin⟩ _ => ?_
  simp only [hresult]
  rfl

theorem exists_runProgram_iff :
    (∃ fuel, runProgram fuel options program source = some response) ↔
      ∃ t result m, (∃ rest, (options.machine program).Performs options.run source t
        ⟨result, m, rest⟩) ∧ response = options.response t result m := by
  have hempty : (options.machine program).output = "" := rfl
  have hprinted {t : Transcript} {fin : FinishedRun (ForwardingSource ByteBuffer σ)}
      (h : (options.machine program).Performs options.run
        (⟨⟨{}, 0⟩, source⟩ : ForwardingSource ByteBuffer σ) t fin) :
      (fin.source.forwarder.flush fin.machine).2.writer.bytes.toList = t.printed := by
    rw [Run.performs_iff] at h
    have hmirrors := h.mirrors (Forwarder.mirrors_new _)
    rw [hmirrors.flush.2, h.printed, hempty]
    rfl
  simp only [runProgram_eq_map, Option.map_eq_some_iff, Prod.exists]
  constructor
  · rintro ⟨fuel, shown, fin, hrun, rfl⟩
    obtain ⟨t, hperforms, rfl⟩ := (Run.exists_traceOn_iff ..).1 ⟨fuel, hrun⟩
    refine ⟨t, fin.result, fin.machine, ⟨_, hperforms.of_forwarding⟩, ?_⟩
    rw [hprinted hperforms, foldl_traceText, String.empty_append]
    rfl
  · rintro ⟨t, result, m, ⟨rest, hperforms⟩, rfl⟩
    obtain ⟨f, hforwarding⟩ := hperforms.forwarding ⟨{}, 0⟩
    obtain ⟨fuel, hrun⟩ := (Run.exists_traceOn_iff
      (fun shown m => if options.trace then shown ++ traceText m else shown) "" _).2
      ⟨t, hforwarding, rfl⟩
    refine ⟨fuel, _, _, hrun, ?_⟩
    rw [hprinted hforwarding, foldl_traceText, String.empty_append]
    rfl

theorem Runs.unique {stdin : List UInt8} {t t' : Transcript} {result result' m m'}
    (h : options.Runs stdin program t result m) (h' : options.Runs stdin program t' result' m') :
    t = t' ∧ result = result' ∧ m = m' := by
  unfold Runs at h h'
  split at h
  all_goals
    rename_i hstdin
    simp only [hstdin, Bool.false_eq_true, if_true, if_false] at h'
    obtain ⟨_, h⟩ := h
    obtain ⟨_, h'⟩ := h'
    rw [Run.performs_iff] at h h'
    obtain ⟨rfl, hfin⟩ := h.unique h'
    cases hfin
    exact ⟨rfl, rfl, rfl⟩

end Options

section

variable {host : Host} {arguments : List String} {options : Options} {text : String}

/-- A command line that loads a program and does not ask for a listing concludes as its run ends. -/
theorem concludes_iff_of_load (hoptions : host.options? arguments = some options)
    (hload : host.load options.program = .ok text) (hrun : options.disassemble = false)
    (stdin : List UInt8) (c : Conclusion) :
    host.Concludes arguments stdin c ↔
      ∃ t result m, options.Runs stdin (Program.ofString text) t result m ∧
        c = .answered (options.response t result m) := by
  have hanswer (fuel : Nat) (response : Response) :
      host.answer fuel options stdin = some response ↔
        if options.useStdin then
          runProgram fuel options (Program.ofString text) (Lines.mk stdin) = some response
        else runProgram fuel options (Program.ofString text) ({} : Script) = some response := by
    cases hstdin : options.useStdin <;> simp [Host.answer, hload, hrun, hstdin]
  have hends (response : Response) :
      (∃ fuel, host.answer fuel options stdin = some response) ↔
        ∃ t result m, options.Runs stdin (Program.ofString text) t result m ∧
          response = options.response t result m := by
    simp only [hanswer, Options.Runs]
    cases options.useStdin with
    | true => exact Options.exists_runProgram_iff
    | false => exact Options.exists_runProgram_iff
  simp only [Host.Concludes, Host.conclude, hoptions, Option.map_eq_some_iff]
  constructor
  · rintro ⟨fuel, response, h, rfl⟩
    obtain ⟨t, result, m, hruns, rfl⟩ := (hends response).1 ⟨fuel, h⟩
    exact ⟨t, result, m, hruns, rfl⟩
  · rintro ⟨t, result, m, hruns, rfl⟩
    obtain ⟨fuel, h⟩ := (hends _).2 ⟨t, result, m, hruns, rfl⟩
    exact ⟨fuel, _, h, rfl⟩

theorem exitCode_eq_zero_iff {result : Except Error RunReport} :
    exitCode (result.map fun _ => ()) = 0 ↔ ∃ report, result = .ok report := by
  cases result <;> simp [exitCode, Except.map]

theorem exitCode_eq_one_iff {result : Except Error RunReport} :
    exitCode (result.map fun _ => ()) = 1 ↔ ∃ e, result = .error e := by
  cases result <;> simp [exitCode, Except.map]

/-- On any host, a command line that loads a program and does not ask for a listing concludes exactly
if its bounded run ends, and in one way. Standard output then holds the value of the active cell for
each dot that the run executed, in order, the exit code is zero if the run ended well and one if it
failed, and neither depends on whether the steps are traced or the tape is shown. -/
theorem answered_of_run (hoptions : host.options? arguments = some options)
    (hload : host.load options.program = .ok text) (hrun : options.disassemble = false)
    (stdin : List UInt8) :
    ((∃ c, host.Concludes arguments stdin c) ↔
      ∃ t result m, options.Runs stdin (Program.ofString text) t result m) ∧
    (∀ c c', host.Concludes arguments stdin c → host.Concludes arguments stdin c' → c = c') ∧
    ∀ c, host.Concludes arguments stdin c → ∃ response t result m, c = .answered response ∧
      options.Runs stdin (Program.ofString text) t result m ∧
      response.stdout = t.printed ∧
      (response.exitCode = 0 ↔ ∃ report, result = .ok report) ∧
      (response.exitCode = 1 ↔ ∃ e, result = .error e) ∧
      ∀ arguments' trace dump,
        host.options? arguments' = some { options with trace := trace, dump := dump } →
          ∃ response', host.Concludes arguments' stdin (.answered response') ∧
            response'.stdout = response.stdout ∧ response'.exitCode = response.exitCode := by
  have hconcludes := concludes_iff_of_load hoptions hload hrun stdin
  refine ⟨?_, ?_, ?_⟩
  · constructor
    · rintro ⟨c, h⟩
      obtain ⟨t, result, m, hruns, -⟩ := (hconcludes c).1 h
      exact ⟨t, result, m, hruns⟩
    · rintro ⟨t, result, m, hruns⟩
      exact ⟨_, (hconcludes _).2 ⟨t, result, m, hruns, rfl⟩⟩
  · intro c c' h h'
    obtain ⟨t, result, m, hruns, rfl⟩ := (hconcludes c).1 h
    obtain ⟨t', result', m', hruns', rfl⟩ := (hconcludes c').1 h'
    obtain ⟨rfl, rfl, rfl⟩ := hruns.unique hruns'
    rfl
  · intro c h
    obtain ⟨t, result, m, hruns, rfl⟩ := (hconcludes c).1 h
    refine ⟨_, t, result, m, rfl, hruns, rfl, exitCode_eq_zero_iff, exitCode_eq_one_iff, ?_⟩
    intro arguments' trace dump hoptions'
    have hconcludes' := concludes_iff_of_load hoptions' hload hrun stdin
    exact ⟨_, (hconcludes' _).2 ⟨t, result, m, hruns, rfl⟩, rfl, rfl⟩

/-- A program from a file prints and then waits for input that it does not get, with and without a
trace. -/
theorem answered_of_run_exhausted :
    let host : Host := ⟨Options.ofArguments?, fun path =>
      if path = "/tmp/prompt" then .ok [0x2B, 0x2E, 0x2C] else .error PathFault.missing.cause⟩
    let arguments := ["/tmp/prompt", "--no-stdin"]
    (∃ response, host.Concludes arguments [] (.answered response) ∧
      response.stdout = [1] ∧ response.exitCode = 1) ∧
    ∃ response, host.Concludes ("--trace" :: arguments) [] (.answered response) ∧
      response.stdout = [1] ∧ response.exitCode = 1 := by
  intro host arguments
  have hoptions : host.options? arguments =
      some { program := some (.file "/tmp/prompt"), useStdin := false } := by decide
  have htraced : host.options? ("--trace" :: arguments) =
      some { program := some (.file "/tmp/prompt"), useStdin := false, trace := true } := by decide
  have hload : host.load (some (.file "/tmp/prompt")) = .ok "+.," := by rfl
  obtain ⟨hends, -, hspec⟩ := answered_of_run hoptions hload rfl []
  have hruns : ∃ t m, Options.Runs { program := some (.file "/tmp/prompt"), useStdin := false } []
      (Program.ofString "+.,") t (.error (.inputExhausted 2)) m ∧ t.printed = [1] :=
    ⟨_, _, ⟨_, 3, rfl⟩, rfl⟩
  obtain ⟨t, m, hruns, hprinted⟩ := hruns
  obtain ⟨c, hc⟩ := hends.2 ⟨t, _, m, hruns⟩
  obtain ⟨response, t', result, m', rfl, hruns', hstdout, -, hcode, hflags⟩ := hspec c hc
  obtain ⟨rfl, rfl, rfl⟩ := hruns.unique hruns'
  have hone : response.exitCode = 1 := hcode.2 ⟨_, rfl⟩
  obtain ⟨response', hc', hstdout', hcode'⟩ := hflags _ true false htraced
  refine ⟨⟨response, hc, hstdout.trans hprinted, hone⟩, response', hc', ?_, hcode'.trans hone⟩
  rw [hstdout', hstdout, hprinted]

end

end Brainfuck.CommandLine
