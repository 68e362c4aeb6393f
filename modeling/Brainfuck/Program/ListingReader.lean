import Brainfuck.Program.Listing

/-!
# Reading listings

The lines of a listing read back from its text. A line is accepted in the form in which it is
written: a decimal position of at least four digits, an indent of pairs of blanks, and a symbol with
its own mnemonic.
-/

namespace Brainfuck

/-- Read a line of a listing, without its line end. -/
def ListingLine.ofChars? (line : List Char) : Option ListingLine :=
  let digits := line.takeWhile Char.isDigit
  match line.dropWhile Char.isDigit with
  | ':' :: ' ' :: rest =>
    let indent := (rest.takeWhile (· = ' ')).length
    match rest.dropWhile (· = ' ') with
    | symbol :: ' ' :: word =>
      match Instruction.decode? symbol with
      | some i =>
          if 4 ≤ digits.length ∧ indent % 2 = 0 ∧ word = i.mnemonic.toList then
            some ⟨Nat.ofDigitChars 10 digits 0, indent / 2, i⟩
          else none
      | none => none
    | _ => none
  | _ => none

/-- The lines of a text that end with a line end, and what follows the last of them. -/
def Text.cutLines : List Char → List (List Char) × List Char
  | [] => ([], [])
  | c :: rest =>
    match c, cutLines rest with
    | '\n', (lines, last) => ([] :: lines, last)
    | c, ([], last) => ([], c :: last)
    | c, (line :: lines, last) => ((c :: line) :: lines, last)

def Program.readListing? (text : String) : Option (List ListingLine) :=
  match Text.cutLines text.toList with
  | (lines, []) => lines.mapM ListingLine.ofChars?
  | _ => none

end Brainfuck
