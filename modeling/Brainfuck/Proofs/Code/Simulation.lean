import Brainfuck.Proofs.Code.Divergence
import Brainfuck.Proofs.Code.Layout
import Brainfuck.Proofs.Machine.Footing
import Brainfuck.Proofs.Machine.Loops
import Brainfuck.Proofs.Tape.Offset

/-!
# Machines evaluate code

A machine that stands where code begins does what evaluating the code says, and stops where that
stops. The loop of the code that is left is met at two places, its start and its end, since a
machine that comes to the end of a loop tests the cell there and again at the start. The way back is
by the number of steps that a machine takes until it stops: each part of the code uses up some.
-/

namespace Brainfuck

open Machine (advance?)

variable {p : Program} {m m' m₁ : Machine} {s t u : Config} {o : Outcome} {code body rest : Code}
  {i j k n q : Nat}

/-- A machine with this program shows this configuration and can go on. -/
structure Machine.Shows (m : Machine) (p : Program) (s : Config) : Prop where
  program_eq : m.program = p
  config_eq : m.config = s
  unblocked : m.blocked = false
  nested : m.Nested
  linked : m.tape.Linked
  active_mem : m.active ∈ m.tape

/-- A machine at this position is about to do the code at `i`: it is there, or at the bracket that
closes the loop there. -/
def Program.Enters (p : Program) (i : Nat) (code : Code) (q : Nat) : Prop :=
  q = i ∨ (∃ body rest, code = .loop body rest) ∧ p.chars[q]? = some ']' ∧
    p.openBrackets q = i :: p.openBrackets i

theorem Program.Enters.eq_start (h : p.Enters i code q)
    (hcode : ∀ body rest, code ≠ .loop body rest) : q = i := by
  obtain h | ⟨⟨body, rest, hloop⟩, -⟩ := h
  · exact h
  · exact absurd hloop (hcode body rest)

theorem Program.enters_of_closes (hk : p.chars[k]? = some ']')
    (hnest : p.openBrackets k = i :: p.openBrackets i) : p.Enters i (.loop body rest) k :=
  .inr ⟨⟨body, rest, rfl⟩, hk, hnest⟩

/-- A machine stands where code up to `j` stops in this way. -/
def Machine.StopsAt (m : Machine) (j : Nat) : Outcome → Prop
  | .completed => m.ip = j
  | .blocked => m.step.1 = .blocked

/-- A machine comes by steps to where code up to `j` stops in this way, and there shows this
configuration. -/
def Machine.Arrives (m : Machine) (p : Program) (j : Nat) (o : Outcome) (u : Config) : Prop :=
  ∃ n m', advance? n m = some m' ∧ m'.Shows p u ∧ m'.StopsAt j o

theorem Machine.Arrives.after (h : m₁.Arrives p j o u) (ha : advance? k m = some m₁) :
    m.Arrives p j o u := by
  obtain ⟨n, m', ha', h', hstop⟩ := h
  exact ⟨k + n, m', by rw [advance?_add ha, ha'], h', hstop⟩

namespace Machine

/-! ### What a step shows -/

theorem exists_offset?_active (hl : m.tape.Linked) (ha : m.active ∈ m.tape) :
    m.tape.offset? m.active = some m.config.position := by
  obtain ⟨o, ho⟩ := hl.exists_offset? ha
  simp [config, ho]

theorem config_value (hl : m.tape.Linked) (ha : m.active ∈ m.tape) : m.config.value = m.value :=
  hl.contents_of_offset? (exists_offset?_active hl ha)

theorem config_modify (hl : m.tape.Linked) (ha : m.active ∈ m.tape) (f : UInt8 → UInt8) :
    Machine.config { m with tape := m.tape.modify m.active f, ip := k } =
      m.config.write (f m.config.value) := by
  have ho := exists_offset?_active hl ha
  have hcells :
      (m.tape.modify m.active f).contents = (m.config.write (f m.config.value)).cells := by
    funext i
    rw [hl.contents_modify ho, config_value hl ha]
    rfl
  have hposition : ((m.tape.modify m.active f).offset? m.active).getD 0 = m.config.position := by
    rw [hl.offset?_modify, ho, Option.getD_some]
  simp only [Config.write] at hcells ⊢
  simp only [config, Config.mk.injEq, and_true]
  exact ⟨hcells, hposition⟩

theorem config_rightOf (hl : m.tape.Linked) (ha : m.active ∈ m.tape) :
    Machine.config { m with
      tape := (m.tape.rightOf m.active).2, active := (m.tape.rightOf m.active).1, ip := k } =
      { m.config with position := m.config.position + 1 } := by
  have ho := exists_offset?_active hl ha
  have hcells := hl.contents_rightOf ha
  have hposition := hl.offset?_rightOf ho
  simp only [config, Config.mk.injEq, and_true]
  exact ⟨hcells, by rw [hposition]; rfl⟩

theorem config_leftOf (hl : m.tape.Linked) (ha : m.active ∈ m.tape) :
    Machine.config { m with
      tape := (m.tape.leftOf m.active).2, active := (m.tape.leftOf m.active).1, ip := k } =
      { m.config with position := m.config.position - 1 } := by
  have ho := exists_offset?_active hl ha
  have hcells := hl.contents_leftOf ha
  have hposition := hl.offset?_leftOf ho
  simp only [config, Config.mk.injEq, and_true]
  exact ⟨hcells, by rw [hposition]; rfl⟩

theorem Shows.of_step (h : m.Shows p s) (hs : m.step = (.executed, m')) (ht : m'.config = t) :
    m'.Shows p t := by
  have he := executes_of_step hs
  obtain ⟨hlinked, hactive⟩ := linked_of_executes h.linked h.active_mem he
  obtain ⟨-, hb, hp, -⟩ := blocked_of_step_executed hs
  exact ⟨hp.trans h.program_eq, ht, hb, h.nested.of_executes he, hlinked, hactive⟩

theorem Shows.current?_eq (h : m.Shows p s) : m.current? = p.chars[m.ip]? := by
  rw [current?, h.program_eq]

theorem Shows.value_eq (h : m.Shows p s) : m.value = s.value := by
  rw [← h.config_eq, config_value h.linked h.active_mem]

theorem Shows.loops_eq (h : m.Shows p s) (hip : m.ip < p.size) :
    m.loops = p.openBrackets m.ip := by
  rw [← h.program_eq] at hip ⊢
  exact h.nested.loops_eq (.inl hip)

theorem act_of_comment {c : Char} (hd : Instruction.decode? c = none) (s : Config) :
    s.act c = some s := by
  unfold Config.act
  split
  all_goals first | rfl | cases hd

theorem Shows.act {c : Char} (h : m.Shows p s) (hc : p.chars[m.ip]? = some c) (hopen : c ≠ '[')
    (hclose : c = ']' → p.openBrackets m.ip = []) :
    (∃ t m', s.act c = some t ∧ m.step = (.executed, m') ∧ m'.Shows p t ∧ m'.ip = m.ip + 1) ∨
    (s.act c = none ∧ m.step.1 = .blocked) := by
  have hcur := h.current?_eq.trans hc
  obtain ⟨hl, ha⟩ := And.intro h.linked h.active_mem
  have hloops := h.loops_eq (Program.lt_size_of_getElem? hc)
  have executes {t : Config} {m' : Machine} (hact : s.act c = some t) (he : m.Executes m')
      (hcfg : m'.config = t) (hip : m'.ip = m.ip + 1) :
      (∃ t m', s.act c = some t ∧ m.step = (.executed, m') ∧ m'.Shows p t ∧ m'.ip = m.ip + 1) ∨
      (s.act c = none ∧ m.step.1 = .blocked) := by
    have hs := he.step_eq h.unblocked
    exact .inl ⟨t, m', hact, hs, h.of_step hs hcfg, hip⟩
  cases hd : Instruction.decode? c with
  | none => exact executes (act_of_comment hd s) (.comment hcur hd) h.config_eq rfl
  | some i =>
    obtain rfl := Instruction.decode?_eq_some_iff.1 hd
    obtain rfl := h.config_eq
    cases i with
    | increment => exact executes rfl (.increment hcur) (config_modify hl ha (· + 1)) rfl
    | decrement => exact executes rfl (.decrement hcur) (config_modify hl ha (· - 1)) rfl
    | moveLeft => exact executes rfl (.moveLeft hcur) (config_leftOf hl ha) rfl
    | moveRight => exact executes rfl (.moveRight hcur) (config_rightOf hl ha) rfl
    | loopStart => exact absurd rfl hopen
    | loopEnd =>
      rw [hclose rfl] at hloops
      exact executes rfl (.ignore hcur hloops) rfl rfl
    | output =>
      refine executes rfl (.output hcur) ?_ rfl
      rw [config_value hl ha]
      simp [config]
    | input =>
      cases hin : m.input with
      | nil =>
        right
        refine ⟨by simp [Config.act, config, hin, Instruction.symbol], ?_⟩
        rw [step_of_instruction h.unblocked hcur]
        simp [execute, hin]
      | cons c' rest =>
        have hact : m.config.act Instruction.input.symbol =
            some { m.config.write c'.val.toUInt8 with input := rest } := by
          have hinput : m.config.input = c' :: rest := hin
          simp [Config.act, hinput, Instruction.symbol]
        refine executes hact (.input hcur hin) ?_ rfl
        exact congrArg (fun s : Config => { s with input := rest })
          (config_modify (k := m.ip + 1) hl ha fun _ => c'.val.toUInt8)

/-! ### Loops -/

theorem Shows.enter (h : m.Shows p s) (hi : p.chars[m.ip]? = some '[') (hv : s.value ≠ 0) :
    ∃ m', m.step = (.executed, m') ∧ m'.Shows p s ∧ m'.ip = m.ip + 1 := by
  rw [← h.value_eq] at hv
  have hs := (Executes.enter (h.current?_eq.trans hi) hv).step_eq h.unblocked
  exact ⟨_, hs, h.of_step hs h.config_eq, rfl⟩

theorem Shows.skip (h : m.Shows p s) (hi : p.chars[m.ip]? = some '[') (hv : s.value = 0) :
    ∃ m', m.step = (.executed, m') ∧ m'.Shows p s ∧ m'.ip = p.skipLoop m.ip := by
  rw [← h.value_eq] at hv
  have hs := (Executes.skip (h.current?_eq.trans hi) hv).step_eq h.unblocked
  refine ⟨_, hs, h.of_step hs h.config_eq, ?_⟩
  rw [← h.program_eq]

theorem Shows.close (h : m.Shows p s) (hk : p.chars[m.ip]? = some ']')
    (hnest : p.openBrackets m.ip = i :: p.openBrackets i) :
    ∃ m', m.step = (.executed, m') ∧ m'.Shows p s ∧
      m'.ip = if s.value = 0 then m.ip + 1 else i := by
  have hloops := h.loops_eq (Program.lt_size_of_getElem? hk)
  rw [hnest] at hloops
  have hs := (Executes.close (h.current?_eq.trans hk) hloops).step_eq h.unblocked
  refine ⟨_, hs, h.of_step hs h.config_eq, ?_⟩
  rw [← h.value_eq]

/-- What a machine at the start or at the end of a loop does, by the value of its cell. -/
theorem Shows.test (h : m.Shows p s) (hi : p.chars[i]? = some '[') (hk : p.chars[k]? = some ']')
    (hnest : p.openBrackets k = i :: p.openBrackets i) (hq : p.Enters i (.loop body rest) m.ip) :
    ∃ n m', advance? (n + 1) m = some m' ∧ m'.Shows p s ∧
      m'.ip = if s.value = 0 then k + 1 else i + 1 := by
  obtain rfl | ⟨-, hq, hq'⟩ := hq
  · by_cases hv : s.value = 0
    · obtain ⟨m', hs, h', hip⟩ := h.skip hi hv
      rw [Program.skipLoop_of_openBrackets hk hnest] at hip
      exact ⟨0, m', advance?_one hs, h', by rw [if_pos hv, hip]⟩
    · obtain ⟨m', hs, h', hip⟩ := h.enter hi hv
      exact ⟨0, m', advance?_one hs, h', by rw [if_neg hv, hip]⟩
  · obtain rfl : k = m.ip := by
      have hskip := Program.skipLoop_of_openBrackets hk hnest
      have hskip' := Program.skipLoop_of_openBrackets hq hq'
      omega
    obtain ⟨m₁, hs, h₁, hip⟩ := h.close hk hnest
    by_cases hv : s.value = 0
    · rw [if_pos hv] at hip ⊢
      exact ⟨0, m₁, advance?_one hs, h₁, hip⟩
    · rw [if_neg hv] at hip ⊢
      subst hip
      obtain ⟨m₂, hs₂, h₂, hip₂⟩ := h₁.enter hi hv
      exact ⟨1, m₂, by rw [advance?_succ_of_step hs, advance?_one hs₂], h₂, hip₂⟩

/-! ### Evaluations are simulated -/

/-- A machine at the start of code comes to where evaluating the code stops. -/
theorem Shows.arrives (h : m.Shows p s) (hcode : p.Spells i code j) (hq : p.Enters i code m.ip)
    (he : code.Evaluates s o u) : m.Arrives p j o u := by
  -- By induction on the evaluation: each rule is one step of the machine, and the rule that
  -- repeats a loop leaves it at the bracket where the loop is met again.
  induction he generalizing i j m with
  | done =>
    cases hcode
    exact ⟨0, m, rfl, h, hq.eq_start (by simp)⟩
  | act hact _ ih =>
    obtain rfl := hq.eq_start (by simp)
    cases hcode with
    | char hc hopen hclose hrest =>
      rcases h.act hc hopen hclose with ⟨t, m₁, ht, hs, h₁, hip⟩ | ⟨hnone, -⟩
      · obtain rfl := Option.some.inj (hact.symm.trans ht)
        exact (ih h₁ hrest (.inl hip)).after (advance?_one hs)
      · simp [hact] at hnone
  | wait hact =>
    obtain rfl := hq.eq_start (by simp)
    cases hcode with
    | char hc hopen hclose hrest =>
      rcases h.act hc hopen hclose with ⟨t, m₁, ht, -⟩ | ⟨-, hs⟩
      · simp [hact] at ht
      · exact ⟨0, m, rfl, h, hs⟩
  | leave hv _ ih =>
    cases hcode with
    | loop hi hbody hk hnest hrest =>
      obtain ⟨n, m₁, ha, h₁, hip⟩ := h.test hi hk hnest hq
      rw [if_pos hv] at hip
      exact (ih h₁ hrest (.inl hip)).after ha
  | «repeat» hv _ _ ihbody ih =>
    cases hcode with
    | @loop _ k _ _ _ hi hbody hk hnest hrest =>
      obtain ⟨n, m₁, ha, h₁, hip⟩ := h.test hi hk hnest hq
      rw [if_neg hv] at hip
      obtain ⟨n', m₂, ha', h₂, hip₂⟩ := ihbody h₁ hbody (.inl hip)
      obtain rfl : m₂.ip = k := hip₂
      have hagain := ih h₂ (.loop hi hbody hk hnest hrest) (Program.enters_of_closes hk hnest)
      exact (hagain.after ha').after ha
  | waitInside hv _ ih =>
    cases hcode with
    | loop hi hbody hk hnest hrest =>
      obtain ⟨n, m₁, ha, h₁, hip⟩ := h.test hi hk hnest hq
      rw [if_neg hv] at hip
      obtain ⟨n', m', ha', h', hwaits⟩ := ih h₁ hbody (.inl hip)
      exact Arrives.after ⟨n', m', ha', h', hwaits⟩ ha
  | give hv =>
    obtain rfl := hq.eq_start (by simp)
    cases hcode with
    | unclosed hi hskip hrest =>
      obtain ⟨m', hs, h', hip⟩ := h.skip hi hv
      exact ⟨1, m', advance?_one hs, h', hip.trans hskip⟩
  | ignore hv _ ih =>
    obtain rfl := hq.eq_start (by simp)
    cases hcode with
    | unclosed hi hskip hrest =>
      obtain ⟨m₁, hs, h₁, hip⟩ := h.enter hi hv
      exact (ih h₁ hrest (.inl hip)).after (advance?_one hs)

/-- A machine at the start of code that stops, evaluates the code. -/
theorem Shows.evaluates (h : m.Shows p s) (hcode : p.Spells i code j) (hq : p.Enters i code m.ip)
    (ha : advance? n m = some m₁) (hstop : m₁.step.1 ≠ .executed) :
    ∃ o u, code.Evaluates s o u := by
  induction n using Nat.strong_induction_on generalizing m s i j code with
  | _ n ih =>
    have later {k : Nat} {m' : Machine} (hk : advance? (k + 1) m = some m') :
        ∃ l < n, advance? l m' = some m₁ := by
      obtain ⟨l, rfl, hl⟩ := advance?_split hk ha hstop
      exact ⟨l, by omega, hl⟩
    cases hcode with
    | done => exact ⟨_, _, .done⟩
    | char hc hopen hclose hrest =>
      obtain rfl := hq.eq_start (by simp)
      rcases h.act hc hopen hclose with ⟨t, m', hact, hs, h', hip⟩ | ⟨hact, -⟩
      · obtain ⟨l, hln, hl⟩ := later (advance?_one hs)
        obtain ⟨o, u, he⟩ := ih l hln h' hrest (.inl hip) hl
        exact ⟨o, u, .act hact he⟩
      · exact ⟨_, _, .wait hact⟩
    | @loop _ k _ _ _ hi hbody hk hnest hrest =>
      obtain ⟨a, m', ha', h', hip⟩ := h.test hi hk hnest hq
      obtain ⟨l, hln, hl⟩ := later ha'
      by_cases hv : s.value = 0
      · rw [if_pos hv] at hip
        obtain ⟨o, u, he⟩ := ih l hln h' hrest (.inl hip) hl
        exact ⟨o, u, .leave hv he⟩
      rw [if_neg hv] at hip
      obtain ⟨o, t, he⟩ := ih l hln h' hbody (.inl hip) hl
      cases o with
      | blocked => exact ⟨_, _, .waitInside hv he⟩
      | completed =>
        obtain ⟨b, m₂, hb, h₂, hip₂⟩ := h'.arrives hbody (.inl hip) he
        obtain rfl : m₂.ip = k := hip₂
        obtain ⟨l', rfl, hl'⟩ := advance?_split hb hl hstop
        obtain ⟨o, u, he'⟩ := ih l' (by omega) h₂ (.loop hi hbody hk hnest hrest)
          (Program.enters_of_closes hk hnest) hl'
        exact ⟨o, u, .repeat hv he he'⟩
    | unclosed hi hskip hrest =>
      obtain rfl := hq.eq_start (by simp)
      by_cases hv : s.value = 0
      · exact ⟨_, _, .give hv⟩
      · obtain ⟨m', hs, h', hip⟩ := h.enter hi hv
        obtain ⟨l, hln, hl⟩ := later (advance?_one hs)
        obtain ⟨o, u, he⟩ := ih l hln h' hrest (.inl hip) hl
        exact ⟨o, u, .ignore hv he⟩

/-! ### Runs -/

theorem shows_load (p : Program) (text : String) :
    ((load p).supply text).Shows p (.initial text.toList) where
  program_eq := rfl
  config_eq := by
    have hposition : Tape.fresh.offset? Tape.origin = some 0 := by decide
    simp only [config, supply, load, Config.initial, Config.mk.injEq]
    exact ⟨Tape.contents_fresh, by rw [hposition, Option.getD_some], rfl, rfl⟩
  unblocked := rfl
  nested := (nested_load p).supply text
  linked := Tape.linked_fresh
  active_mem := Tape.linked_fresh.origin_mem

theorem Shows.run (h : m'.Shows p u) (ha : advance? n m = some m') (hstop : m'.StopsAt p.size o) :
    ∃ fuel m₁, Machine.run fuel m = some (o, m₁) ∧ m₁.config = u ∧
      m₁.tape.offset? m₁.active = some u.position := by
  have hposition := exists_offset?_active h.linked h.active_mem
  rw [h.config_eq] at hposition
  cases o with
  | completed =>
    have hend : m'.current? = none := by
      rw [current?_eq_none_iff, h.program_eq]
      exact (show m'.ip = p.size from hstop).ge
    have hs := step_of_current?_eq_none h.unblocked hend
    obtain ⟨fuel, hrun⟩ := run_completed_iff.2 ⟨n, m', ha, by rw [hs], rfl⟩
    exact ⟨fuel, _, hrun, h.config_eq, hposition⟩
  | blocked =>
    obtain ⟨fuel, hrun⟩ := run_blocked_iff.2 ⟨n, m', ha, hstop, rfl⟩
    exact ⟨fuel, _, hrun, h.config_eq, hposition⟩

/-- A machine at the start of a program with some input runs to an end exactly if evaluating the
code that the program spells comes to one, then in the same way and with the same tape, position,
input and output; and it runs for ever exactly if the evaluation never ends. -/
theorem run_iff_evaluates (p : Program) (text : String) :
    p.Spells 0 p.code p.size ∧
    (∀ o s, (∃ fuel m, Machine.run fuel ((load p).supply text) = some (o, m) ∧ m.config = s ∧
        m.tape.offset? m.active = some s.position) ↔
      p.code.Evaluates (.initial text.toList) o s) ∧
    ((∀ fuel, Machine.run fuel ((load p).supply text) = none) ↔
      p.code.Diverges (.initial text.toList)) := by
  have hm := shows_load p text
  have runs {o s} (he : p.code.Evaluates (.initial text.toList) o s) :
      ∃ fuel m, Machine.run fuel ((load p).supply text) = some (o, m) ∧ m.config = s ∧
        m.tape.offset? m.active = some s.position := by
    obtain ⟨n, m', ha, h', hstop⟩ := hm.arrives p.spells_code (.inl rfl) he
    exact h'.run ha hstop
  have evaluates {fuel o m} (hr : Machine.run fuel ((load p).supply text) = some (o, m)) :
      ∃ o u, p.code.Evaluates (.initial text.toList) o u := by
    obtain ⟨n, -, m₁, ha, hs, -⟩ := run_eq_some_iff.1 hr
    exact hm.evaluates p.spells_code (.inl rfl) ha hs
  refine ⟨p.spells_code, fun o s => ⟨?_, runs⟩, ?_, ?_⟩
  · rintro ⟨fuel, m, hr, rfl, -⟩
    obtain ⟨o', u, he⟩ := evaluates hr
    obtain ⟨fuel', m', hr', rfl, -⟩ := runs he
    obtain ⟨rfl, rfl⟩ := run_unique hr hr'
    exact he
  · intro hnone
    refine Code.diverges_iff.2 fun o s he => ?_
    obtain ⟨fuel, m, hr, -⟩ := runs he
    simp [hnone fuel] at hr
  · intro hd fuel
    cases hr : Machine.run fuel ((load p).supply text) with
    | none => rfl
    | some r =>
      obtain ⟨o, u, he⟩ := evaluates hr
      exact absurd he (Code.diverges_iff.1 hd o u)

end Machine

end Brainfuck
