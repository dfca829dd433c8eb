namespace Chunkwise.Text

/-- The ranges of the property, by first and last code point. -/
def blankRanges : List (Nat × Nat) :=
  [(0x09, 0x0D), (0x20, 0x20), (0x85, 0x85), (0xA0, 0xA0), (0x1680, 0x1680), (0x2000, 0x200A),
    (0x2028, 0x2029), (0x202F, 0x202F), (0x205F, 0x205F), (0x3000, 0x3000)]

def isBlank (c : Char) : Bool := blankRanges.any fun (lo, hi) => lo ≤ c.toNat && c.toNat ≤ hi

def dropBlanks (cs : List Char) : List Char := cs.dropWhile isBlank

def dropBlanksRight (cs : List Char) : List Char := (dropBlanks cs.reverse).reverse

/-- A text without the blanks at its end. -/
def trimRight (s : String) : String := String.ofList (dropBlanksRight s.toList)

/-- A text without the blanks at both ends. -/
def trim (s : String) : String := String.ofList (dropBlanksRight (dropBlanks s.toList))

/-- Whether a text has nothing but blanks. -/
def allBlank (s : String) : Bool := s.toList.all isBlank

end Chunkwise.Text
