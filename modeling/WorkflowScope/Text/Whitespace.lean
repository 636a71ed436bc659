/-!
# White characters

The characters that count as white when key paths are read and texts are trimmed. The table holds
the Unicode property `White_Space`.
-/

namespace WorkflowScope.Text

/-- Inclusive ranges of code points with the Unicode property `White_Space`, in ascending order. -/
def whiteRanges : List (Nat × Nat) :=
  [(0x09, 0x0d), (0x20, 0x20), (0x85, 0x85), (0xa0, 0xa0), (0x1680, 0x1680), (0x2000, 0x200a),
   (0x2028, 0x2029), (0x202f, 0x202f), (0x205f, 0x205f), (0x3000, 0x3000)]

/-- A character of the Unicode property `White_Space`. -/
def isWhite (c : Char) : Bool :=
  whiteRanges.any fun (low, high) => low ≤ c.toNat && c.toNat ≤ high

theorem isWhite_space : isWhite ' ' = true := by decide

theorem isWhite_lineFeed : isWhite '\n' = true := by decide

def trim (text : List Char) : List Char :=
  ((text.dropWhile isWhite).reverse.dropWhile isWhite).reverse

end WorkflowScope.Text
