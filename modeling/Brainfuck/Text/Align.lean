/-!
# Alignment

Texts padded to a least width, counted in characters. A text that is already wider is kept whole.
-/

namespace Brainfuck.Text

def padStart (width : Nat) (fill : Char) (s : String) : String :=
  String.ofList (s.toList.leftpad width fill)

def padEnd (width : Nat) (s : String) : String :=
  String.ofList (s.toList.rightpad width ' ')

/-- Texts side by side in columns of a width, each at the right of its column. -/
def row (width : Nat) (columns : List String) : String :=
  String.join (columns.map (padStart width ' '))

def trimEnd (s : String) : String :=
  String.ofList (s.toList.reverse.dropWhile (· = ' ')).reverse

@[simp] theorem toList_padStart (width : Nat) (fill : Char) (s : String) :
    (padStart width fill s).toList = s.toList.leftpad width fill :=
  String.toList_ofList

@[simp] theorem toList_row (width : Nat) (columns : List String) :
    (row width columns).toList = columns.flatMap fun s => s.toList.leftpad width ' ' := by
  simp [row, List.flatMap_map]

@[simp] theorem length_padStart (width : Nat) (fill : Char) (s : String) :
    (padStart width fill s).length = max width s.length := by
  simp [padStart, String.length_toList]
  omega

@[simp] theorem length_padEnd (width : Nat) (s : String) :
    (padEnd width s).length = max width s.length := by
  simp [padEnd, String.length_toList]
  omega

end Brainfuck.Text
