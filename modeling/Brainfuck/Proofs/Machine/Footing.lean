import Brainfuck.Proofs.Machine.Rules
import Brainfuck.Proofs.Program.Nesting
import Brainfuck.Proofs.Tape.Reach

/-!
# What a machine stands on

A machine works on a cell of its tape, at a place of its program, inside of loops that start at
opening brackets. A step keeps all of that: moves go to cells that are there or are added, and jumps
go to brackets that were passed or past brackets that were found.
-/

namespace Brainfuck.Machine

variable {m m' : Machine}

/-! ### The tape -/

theorem linked_of_executes (hl : m.tape.Linked) (ha : m.active ∈ m.tape) (h : m.Executes m') :
    m'.tape.Linked ∧ m'.active ∈ m'.tape := by
  cases h with
  | increment => exact ⟨hl.modify m.active (· + 1), Tape.mem_modify.2 ha⟩
  | decrement => exact ⟨hl.modify m.active (· - 1), Tape.mem_modify.2 ha⟩
  | moveLeft => exact ⟨hl.edit (.leftOf ha), hl.leftOf_mem ha⟩
  | moveRight => exact ⟨hl.edit (.rightOf ha), hl.rightOf_mem ha⟩
  | @input c => exact ⟨hl.modify m.active fun _ => c.val.toUInt8, Tape.mem_modify.2 ha⟩
  | comment | skip | enter | ignore | close | output => exact ⟨hl, ha⟩

theorem linked_step (hl : m.tape.Linked) (ha : m.active ∈ m.tape) :
    m.step.2.tape.Linked ∧ m.step.2.active ∈ m.step.2.tape :=
  preserves_step (P := fun m => m.tape.Linked ∧ m.active ∈ m.tape) id
    (fun _ h => linked_of_executes hl ha h) ⟨hl, ha⟩

/-! ### The program -/

/-- A machine is not past the end of its program, and each loop it keeps starts at an opening
bracket of that program. -/
structure Anchored (m : Machine) : Prop where
  ip_le : m.ip ≤ m.program.size
  loops_open : ∀ s ∈ m.loops, m.program.chars[s]? = some '['

theorem anchored_load (p : Program) : (load p).Anchored :=
  ⟨Nat.zero_le _, by simp [load]⟩

theorem Anchored.supply (h : m.Anchored) (text : String) : (m.supply text).Anchored :=
  ⟨h.ip_le, h.loops_open⟩

theorem Anchored.finish (h : m.Anchored) : m.finish.2.Anchored := by
  rw [Machine.finish]
  split
  · exact h
  · exact ⟨Nat.zero_le _, h.loops_open⟩

theorem Anchored.pass {c : Char} (h : m.Anchored) (hc : m.current? = some c)
    (hp : m'.program = m.program) (hl : m'.loops = m.loops) (hip : m'.ip = m.ip + 1) :
    m'.Anchored := by
  constructor
  · rw [hip, hp]
    exact ip_lt_of_current? hc
  · rw [hl, hp]
    exact h.loops_open

theorem Anchored.of_executes (h : m.Anchored) (he : m.Executes m') : m'.Anchored := by
  cases he with
  | skip hc hv => exact ⟨Program.skipLoop_le hc, h.loops_open⟩
  | enter hc hv => exact ⟨ip_lt_of_current? hc, List.forall_mem_cons.2 ⟨hc, h.loops_open⟩⟩
  | close hc hl =>
    obtain ⟨hstart, houter⟩ := List.forall_mem_cons.1 (hl ▸ h.loops_open)
    obtain ⟨hs, -⟩ := Array.getElem?_eq_some_iff.1 hstart
    refine ⟨?_, houter⟩
    split
    · exact ip_lt_of_current? hc
    · exact Nat.le_of_lt hs
  | comment hc | increment hc | decrement hc | moveLeft hc | moveRight hc | ignore hc | output hc
  | input hc => exact h.pass hc rfl rfl rfl

theorem Anchored.step (h : m.Anchored) : m.step.2.Anchored :=
  preserves_step (fun h => ⟨h.ip_le, h.loops_open⟩) (fun _ he => h.of_executes he) h

end Brainfuck.Machine
