import Brainfuck.Instruction

/-!
# Programs

A program is its characters, comments included; positions count characters. Any text is a
program, so nothing is checked when one is made.
-/

namespace Brainfuck

/-- The characters of a program, addressed by position. -/
structure Program where
  chars : Array Char
deriving DecidableEq, Inhabited

namespace Program

def ofString (text : String) : Program :=
  ⟨text.toList.toArray⟩

def text (p : Program) : String :=
  String.ofList p.chars.toList

def size (p : Program) : Nat :=
  p.chars.size

/-- The instructions of a program in order, each with its position. -/
def instructions (p : Program) : List (Nat × Instruction) :=
  p.chars.toList.zipIdx.filterMap fun (c, i) => (Instruction.decode? c).map (i, ·)

def withoutComments (p : Program) : Program :=
  ⟨p.chars.filter isInstruction⟩

@[simp] theorem text_ofString (s : String) : (ofString s).text = s := by
  simp [text, ofString]

@[simp] theorem ofString_text (p : Program) : ofString p.text = p := by
  simp [text, ofString]

@[simp] theorem size_ofString (s : String) : (ofString s).size = s.length := by
  simp [size, ofString, String.length_toList]

theorem mem_instructions {p : Program} {i : Nat} {ins : Instruction} :
    (i, ins) ∈ p.instructions ↔ p.chars[i]? = some ins.symbol := by
  simp only [instructions, List.mem_filterMap, Prod.exists, Option.map_eq_some_iff,
    Prod.mk.injEq, List.mem_zipIdx_iff_getElem?, Instruction.decode?_eq_some_iff]
  constructor
  · rintro ⟨c, j, hc, k, rfl, rfl, rfl⟩
    simpa using hc
  · intro h
    exact ⟨_, i, by simpa using h, ins, rfl, rfl, rfl⟩

end Program

end Brainfuck
