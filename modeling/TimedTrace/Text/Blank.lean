namespace TimedTrace

/-- The ranges of code points that have the Unicode property `White_Space`. -/
def blankRanges : List (Nat × Nat) :=
  [(0x09, 0x0D), (0x20, 0x20), (0x85, 0x85), (0xA0, 0xA0), (0x1680, 0x1680), (0x2000, 0x200A),
    (0x2028, 0x2029), (0x202F, 0x202F), (0x205F, 0x205F), (0x3000, 0x3000)]

def isBlank (char : Char) : Bool :=
  blankRanges.any fun (first, last) => first ≤ char.toNat && char.toNat ≤ last

/-- Every character that the standard library takes for white space is blank. -/
theorem isBlank_of_isWhitespace {char : Char} (white : char.isWhitespace = true) :
    isBlank char = true := by
  simp only [Char.isWhitespace, Bool.or_eq_true, decide_eq_true_eq] at white
  rcases white with ((rfl | rfl) | rfl) | rfl <;> decide

/-- The text without the blanks at its end. -/
def trimBlankEnd (text : String) : String :=
  String.ofList (text.toList.reverse.dropWhile isBlank).reverse

end TimedTrace
