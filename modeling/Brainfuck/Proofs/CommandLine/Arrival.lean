import Brainfuck.Proofs.CommandLine.Response
import Brainfuck.Proofs.Run.Ahead

/-!
# Ways for input to arrive

Input may be given as an argument, before the program starts, or on standard input, where a line of
it is read whenever the program waits. What the command line program leaves behind depends on the
text that arrives and not on its way.
-/

namespace Brainfuck.CommandLine

/-- What is relied on of a host: how it reads two of the arguments when they come first. -/
structure Host.ReadsInput (host : Host) : Prop where
  /-- What is attached to `--input=` is the input, and nothing else depends on it. -/
  input : ∀ text rest, host.options? (("--input=" ++ text) :: rest) =
    (host.options? ("--input=" :: rest)).map fun o => { o with input := text }
  /-- `--no-stdin` turns standard input off, and is refused if that was done already. -/
  noStdin : ∀ rest, host.options? ("--no-stdin" :: rest) =
    (host.options? rest).bind fun o => if o.useStdin then some { o with useStdin := false } else none

/-! ### How the arguments are read -/

theorem settings?_cons_of_complete {argument : String} {s : Setting}
    (h : Form.ofArgument argument = .complete s) (rest : List String) :
    settings? (argument :: rest) = (settings? rest).map (s :: ·) := by
  rw [settings?, h]

theorem ofArgument_input (text : String) :
    Form.ofArgument ("--input=" ++ text) = .complete (.value .input text) := by
  have hchars : ("--input=" ++ text).toList =
      '-' :: '-' :: 'i' :: 'n' :: 'p' :: 'u' :: 't' :: '=' :: text.toList := by
    rw [String.toList_append]
    rfl
  simp [Form.ofArgument, hchars, Form.ofLong, ValueOption.ofName?]

theorem ofArgument_noStdin : Form.ofArgument "--no-stdin" = .complete (.flag .noStdin) :=
  rfl

def valuesOf (settings : List Setting) (o : ValueOption) : List String :=
  settings.filterMap fun
    | .value p v => if p = o then some v else none
    | _ => none

def pathsOf (settings : List Setting) : List String :=
  settings.filterMap fun
    | .file path => some path
    | _ => none

/-- Whether settings raise a flag, which they may do once. -/
def flagOf? (settings : List Setting) (f : Flag) : Option Bool :=
  (atMostOne? (settings.filter (· = .flag f))).map Option.isSome

def boundOf? : Option String → Option RunOptions
  | some text => (stepLimit? text).map RunOptions.mk
  | none => some {}

theorem ofSettings?_eq_some_iff {settings : List Setting} {o : Options} :
    Options.ofSettings? settings = some o ↔
      origin? (valuesOf settings .execute) (pathsOf settings) = some o.program ∧
      (atMostOne? (valuesOf settings .input)).map (·.getD "") = some o.input ∧
      (atMostOne? (valuesOf settings .stepLimit)).bind boundOf? = some o.run ∧
      flagOf? settings .trace = some o.trace ∧ flagOf? settings .dump = some o.dump ∧
      flagOf? settings .disassemble = some o.disassemble ∧
      flagOf? settings .noStdin = some !o.useStdin := by
  have heq : Options.ofSettings? settings =
      (origin? (valuesOf settings .execute) (pathsOf settings)).bind fun program =>
      ((atMostOne? (valuesOf settings .input)).map (·.getD "")).bind fun input =>
      ((atMostOne? (valuesOf settings .stepLimit)).bind boundOf?).bind fun run =>
      (flagOf? settings .trace).bind fun trace => (flagOf? settings .dump).bind fun dump =>
      (flagOf? settings .disassemble).bind fun disassemble =>
      (flagOf? settings .noStdin).bind fun noStdin =>
      some ⟨program, input, run, trace, dump, disassemble, !noStdin⟩ := by
    have hflag (f : Flag) : flagOf? settings f =
        (atMostOne? (settings.filter (· = .flag f))).bind fun found => some found.isSome := by
      rw [flagOf?, Option.map_eq_bind]
      rfl
    refine Option.bind_congr fun program _ => ?_
    rw [Option.bind_map]
    refine Option.bind_congr fun input _ => ?_
    rw [Function.comp_apply, Option.bind_assoc]
    refine Option.bind_congr fun limit _ => ?_
    simp only [hflag]
    cases limit <;> rfl
  rw [heq]
  cases o
  simp only [Option.bind_eq_some_iff, Option.some.injEq, Options.mk.injEq]
  constructor
  · rintro ⟨_, hprogram, _, hinput, _, hrun, _, htrace, _, hdump, _, hdisassemble, noStdin,
      hnoStdin, rfl, rfl, rfl, rfl, rfl, rfl, rfl⟩
    rw [Bool.not_not]
    exact ⟨hprogram, hinput, hrun, htrace, hdump, hdisassemble, hnoStdin⟩
  · rintro ⟨hprogram, hinput, hrun, htrace, hdump, hdisassemble, hnoStdin⟩
    exact ⟨_, hprogram, _, hinput, _, hrun, _, htrace, _, hdump, _, hdisassemble, _, hnoStdin,
      rfl, rfl, rfl, rfl, rfl, rfl, Bool.not_not _⟩

variable {settings : List Setting} {o : Options}

@[simp] theorem valuesOf_value (p q : ValueOption) (v : String) :
    valuesOf (.value p v :: settings) q =
      if p = q then v :: valuesOf settings q else valuesOf settings q := by
  by_cases h : p = q <;> simp [valuesOf, h]

@[simp] theorem valuesOf_flag (f : Flag) (q : ValueOption) :
    valuesOf (.flag f :: settings) q = valuesOf settings q := by
  simp [valuesOf]

@[simp] theorem pathsOf_value (p : ValueOption) (v : String) :
    pathsOf (.value p v :: settings) = pathsOf settings := by
  simp [pathsOf]

@[simp] theorem pathsOf_flag (f : Flag) : pathsOf (.flag f :: settings) = pathsOf settings := by
  simp [pathsOf]

@[simp] theorem flagOf?_value (p : ValueOption) (v : String) (f : Flag) :
    flagOf? (.value p v :: settings) f = flagOf? settings f := by
  simp [flagOf?]

theorem flagOf?_flag_of_ne {f g : Flag} (h : g ≠ f) :
    flagOf? (.flag g :: settings) f = flagOf? settings f := by
  simp [flagOf?, h]

theorem flagOf?_flag_eq_some_iff {f : Flag} {raised : Bool} :
    flagOf? (.flag f :: settings) f = some raised ↔
      raised = true ∧ flagOf? settings f = some false := by
  rcases hfound : settings.filter (· = .flag f) with _ | ⟨_, _ | ⟨_, _⟩⟩
  · simp [flagOf?, hfound, atMostOne?]
  · simp [flagOf?, hfound, atMostOne?]
  · simp [flagOf?, hfound, atMostOne?]

theorem atMostOne?_cons_eq_some_iff {v text : String} {vs : List String} :
    (atMostOne? (v :: vs)).map (·.getD "") = some text ↔ vs = [] ∧ v = text := by
  cases vs <;> simp [atMostOne?]

theorem ofSettings?_input (settings : List Setting) (text : String) :
    Options.ofSettings? (.value .input text :: settings) =
      (Options.ofSettings? (.value .input "" :: settings)).map fun o =>
        { o with input := text } := by
  ext o
  rw [Option.map_eq_some_iff]
  simp only [ofSettings?_eq_some_iff, valuesOf_value, pathsOf_value, flagOf?_value, reduceCtorEq,
    if_true, if_false, atMostOne?_cons_eq_some_iff]
  constructor
  · rintro ⟨hprogram, ⟨hvalues, rfl⟩, hrest⟩
    exact ⟨{ o with input := "" }, ⟨hprogram, ⟨hvalues, rfl⟩, hrest⟩, rfl⟩
  · rintro ⟨o, ⟨hprogram, ⟨hvalues, -⟩, hrest⟩, rfl⟩
    exact ⟨hprogram, ⟨hvalues, rfl⟩, hrest⟩

theorem ofSettings?_noStdin (settings : List Setting) :
    Options.ofSettings? (.flag .noStdin :: settings) =
      (Options.ofSettings? settings).bind fun o =>
        if o.useStdin then some { o with useStdin := false } else none := by
  ext o
  rw [Option.bind_eq_some_iff]
  simp only [ofSettings?_eq_some_iff, valuesOf_flag, pathsOf_flag, flagOf?_flag_of_ne, ne_eq,
    reduceCtorEq, not_false_eq_true, flagOf?_flag_eq_some_iff]
  constructor
  · rintro ⟨hprogram, hinput, hrun, htrace, hdump, hdisassemble, hraised, hlow⟩
    refine ⟨{ o with useStdin := true },
      ⟨hprogram, hinput, hrun, htrace, hdump, hdisassemble, hlow⟩, ?_⟩
    have hstdin : o.useStdin = false := by simpa using hraised
    rw [if_pos rfl, ← hstdin]
  · rintro ⟨o, ⟨hprogram, hinput, hrun, htrace, hdump, hdisassemble, hlow⟩, heq⟩
    split at heq
    · rename_i hstdin
      obtain rfl := Option.some.inj heq
      rw [hstdin] at hlow
      exact ⟨hprogram, hinput, hrun, htrace, hdump, hdisassemble, rfl, hlow⟩
    · cases heq

theorem readsInput_of_ofArguments? {host : Host} (h : host.options? = Options.ofArguments?) :
    host.ReadsInput where
  input text rest := by
    have hread (text : String) : host.options? (("--input=" ++ text) :: rest) =
        (settings? rest).bind fun settings =>
          Options.ofSettings? (.value .input text :: settings) := by
      rw [h, Options.ofArguments?, settings?_cons_of_complete (ofArgument_input text),
        Option.bind_map]
      rfl
    have hempty := hread ""
    rw [String.append_empty] at hempty
    rw [hread text, hempty, Option.map_bind]
    exact Option.bind_congr fun settings _ => ofSettings?_input settings text
  noStdin rest := by
    rw [h, Options.ofArguments?, Options.ofArguments?,
      settings?_cons_of_complete ofArgument_noStdin, Option.bind_map, Option.bind_assoc]
    exact Option.bind_congr fun settings _ => ofSettings?_noStdin settings

/-! ### What is left behind -/

section

variable {options : Options} {t t' : Transcript} {m m' : Machine}
  {result result' : Except Error RunReport}

/-- Input that was not read is not shown. -/
theorem response_of_alike (ht : t.Alike t')
    (hresult : result'.map (fun _ => ()) = result.map fun _ => ()) (hm : m'.unread = m.unread)
    (input : String) (useStdin : Bool) :
    Options.response { options with input := input, useStdin := useStdin } t' result' m' =
      options.response t result m := by
  have hstdout : t'.printed = t.printed := by
    have hunread (t : Transcript) : t.printed = (t.executed.map Machine.unread).filterMap
        fun m => if m.current? = some '.' then some m.value else none := by
      rw [List.filterMap_map]
      rfl
    rw [hunread t', ht.executed, ← hunread]
  have htraces : t'.left.map traceText = t.left.map traceText := by
    have hunread (t : Transcript) :
        t.left.map traceText = (t.left.map Machine.unread).map traceText := by
      rw [List.map_map]
      rfl
    rw [hunread t', ht.left, ← hunread]
  have hclosing (failed : Bool) : closingText { options with input, useStdin } failed m' =
      closingText options failed m := by
    have hunread (m : Machine) : closingText options failed m = closingText options failed m.unread :=
      rfl
    rw [hunread m, ← hm]
    rfl
  cases result with
  | error e =>
    cases result' with
    | error e' =>
      obtain rfl : e' = e := Except.error.inj hresult
      simp only [Options.response, hstdout, htraces, hclosing]
    | ok => cases hresult
  | ok =>
    cases result' with
    | error => cases hresult
    | ok =>
      simp only [Options.response, hstdout, htraces, hclosing]
      rfl

theorem ahead_machine (options : Options) (program : Program) (text : String)
    {chunks : List String} (hhands : InputSource.Hands (⟨Text.utf8 text⟩ : Lines) chunks)
    (hjoin : String.join chunks = text) :
    (⟨options.machine program, ⟨Text.utf8 text⟩, {}⟩ : Run Lines).Ahead chunks
      (⟨Options.machine { options with input := options.input ++ text } program, {}, {}⟩ :
        Run Script) := by
  refine ⟨?_, rfl, hhands, fun m => rfl, rfl⟩
  simp [Options.machine, Machine.supply, Machine.withInput, hjoin]

theorem runs_of_input_iff (hstdin : options.useStdin = true) (program : Program) (text : String)
    (stdin : List UInt8) (response : Response) :
    (∃ t result m, options.Runs (Text.utf8 text) program t result m ∧
      response = options.response t result m) ↔
    ∃ t result m, Options.Runs { options with input := options.input ++ text, useStdin := false }
        stdin program t result m ∧
      response = Options.response { options with input := options.input ++ text, useStdin := false }
        t result m := by
  obtain ⟨chunks, hhands, hjoin⟩ := Lines.exists_hands_utf8 text
  have hahead := ahead_machine options program text hhands hjoin
  simp only [Options.Runs, hstdin, Bool.false_eq_true, if_true, if_false, Run.performs_iff]
  constructor
  · rintro ⟨t, result, m, ⟨rest, he⟩, rfl⟩
    obtain ⟨t', ⟨result', m', rest'⟩, he', ht, hresult, hm⟩ := he.ahead hahead
    exact ⟨t', result', m', ⟨rest', he'⟩, (response_of_alike ht hresult hm _ _).symm⟩
  · rintro ⟨t', result', m', ⟨rest', he'⟩, rfl⟩
    obtain ⟨t, ⟨result, m, rest⟩, he, ht, hresult, hm⟩ := he'.behind hahead
    exact ⟨t, result, m, ⟨rest, he⟩, response_of_alike ht hresult hm _ _⟩

end

theorem concludes_iff_of_options {host : Host} {arguments arguments' : List String}
    {options : Options} {text : String} (hoptions : host.options? arguments = some options)
    (hstdin : options.useStdin = true)
    (hoptions' : host.options? arguments' =
      some { options with input := options.input ++ text, useStdin := false })
    (stdin : List UInt8) (c : Conclusion) :
    host.Concludes arguments (Text.utf8 text) c ↔ host.Concludes arguments' stdin c := by
  cases hload : host.load options.program with
  | error e => simp [Host.Concludes, Host.conclude, hoptions, hoptions', Host.answer, hload]
  | ok program =>
    cases hdisassemble : options.disassemble with
    | true =>
      simp [Host.Concludes, Host.conclude, hoptions, hoptions', Host.answer, hload, hdisassemble]
    | false =>
      rw [concludes_iff_of_load hoptions hload hdisassemble,
        concludes_iff_of_load hoptions' hload hdisassemble]
      have hruns := runs_of_input_iff hstdin (Program.ofString program) text stdin
      constructor
      · rintro ⟨t, result, m, hrun, rfl⟩
        obtain ⟨t', result', m', hrun', heq⟩ := (hruns _).1 ⟨t, result, m, hrun, rfl⟩
        exact ⟨t', result', m', hrun', by rw [heq]⟩
      · rintro ⟨t', result', m', hrun', rfl⟩
        obtain ⟨t, result, m, hrun, heq⟩ := (hruns _).2 ⟨t', result', m', hrun', rfl⟩
        exact ⟨t, result, m, hrun, by rw [heq]⟩

theorem Host.ReadsInput.options_cases {host : Host} (h : host.ReadsInput) (A B : String)
    (rest : List String)
    (hrest : ∀ o, host.options? (("--input=" ++ A) :: rest) = some o → o.useStdin = true) :
    (host.options? (("--input=" ++ A) :: rest) = none ∧
      host.options? ("--no-stdin" :: ("--input=" ++ (A ++ B)) :: rest) = none) ∨
    ∃ o, o.useStdin = true ∧ host.options? (("--input=" ++ A) :: rest) = some o ∧
      host.options? ("--no-stdin" :: ("--input=" ++ (A ++ B)) :: rest) =
        some { o with input := o.input ++ B, useStdin := false } := by
  have hfirst := h.input A rest
  have hsecond := h.noStdin (("--input=" ++ (A ++ B)) :: rest)
  rw [h.input] at hsecond
  cases hoptions : host.options? ("--input=" :: rest) with
  | none =>
    rw [hoptions] at hfirst hsecond
    exact .inl ⟨hfirst, hsecond⟩
  | some options =>
    rw [hoptions, Option.map_some] at hfirst hsecond
    have hstdin : options.useStdin = true := hrest { options with input := A } hfirst
    rw [Option.bind_some, if_pos hstdin] at hsecond
    exact .inr ⟨{ options with input := A }, hstdin, hfirst, hsecond⟩

/-- Text on standard input leaves behind what the same text at the end of the input argument does
when nothing is read: exit code, standard output and what is shown, if the program stops at all. This
holds of any host for command lines whose options differ in that way only, and for those that begin
with the two arguments it is enough how the host reads these. -/
theorem concludes_of_input (host : Host) (A B : String) (stdin : List UInt8) (c : Conclusion) :
    (host.ReadsInput → ∀ rest,
      (∀ o, host.options? (("--input=" ++ A) :: rest) = some o → o.useStdin = true) →
      (host.Concludes (("--input=" ++ A) :: rest) (Text.utf8 B) c ↔
        host.Concludes ("--no-stdin" :: ("--input=" ++ (A ++ B)) :: rest) stdin c)) ∧
    ∀ arguments arguments' options, host.options? arguments = some options →
      options.input = A → options.useStdin = true →
      host.options? arguments' = some { options with input := A ++ B, useStdin := false } →
      (host.Concludes arguments (Text.utf8 B) c ↔ host.Concludes arguments' stdin c) := by
  constructor
  · intro hhost rest hrest
    obtain ⟨hnone, hnone'⟩ | ⟨options, hstdin, hoptions, hoptions'⟩ :=
      hhost.options_cases A B rest hrest
    · simp [Host.Concludes, Host.conclude, hnone, hnone']
    · exact concludes_iff_of_options hoptions hstdin hoptions' stdin c
  · rintro arguments arguments' options hoptions rfl hstdin hoptions'
    exact concludes_iff_of_options hoptions hstdin hoptions' stdin c

/-- A program from a file copies two characters, of which one is an argument and one comes later. -/
theorem concludes_of_input_copied :
    let host : Host := ⟨Options.ofArguments?, fun path =>
      if path = "/tmp/copy" then .ok [0x2C, 0x2E, 0x2C, 0x2E] else .error PathFault.missing.cause⟩
    host.ReadsInput ∧ ∃ response, response.stdout = [97, 98] ∧
      host.Concludes ["--input=a", "/tmp/copy"] (Text.utf8 "b\n") (.answered response) ∧
      host.Concludes ["--no-stdin", "--input=ab\n", "/tmp/copy"] [] (.answered response) := by
  intro host
  have hhost : host.ReadsInput := readsInput_of_ofArguments? rfl
  have hoptions : host.options? ["--no-stdin", "--input=ab\n", "/tmp/copy"] =
      some { program := some (.file "/tmp/copy"), input := "ab\n", useStdin := false } := by decide
  have hload : host.load (some (.file "/tmp/copy")) = .ok ",.,." := by rfl
  have hruns : ∃ t report m, Options.Runs
      { program := some (.file "/tmp/copy"), input := "ab\n", useStdin := false } []
      (Program.ofString ",.,.") t (.ok report) m ∧ t.printed = [97, 98] :=
    ⟨_, _, _, ⟨_, 5, rfl⟩, rfl⟩
  obtain ⟨t, report, m, hruns, hprinted⟩ := hruns
  have hconcludes := (concludes_iff_of_load hoptions hload rfl _ _).2 ⟨t, _, m, hruns, rfl⟩
  have hstdin : ∀ o, host.options? ["--input=a", "/tmp/copy"] = some o → o.useStdin = true := by
    intro o ho
    obtain rfl := Option.some.inj ho
    decide
  have hspec := fun c => (concludes_of_input host "a" "b\n" [] c).1 hhost ["/tmp/copy"] hstdin
  exact ⟨hhost, _, hprinted, (hspec _).2 hconcludes, hconcludes⟩

end Brainfuck.CommandLine
