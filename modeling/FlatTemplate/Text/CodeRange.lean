namespace FlatTemplate.Text

abbrev CodeRange := Nat × Nat

def inRanges (n : Nat) : List CodeRange → Bool
  | [] => false
  | (low, high) :: ranges => if n < low then false else n ≤ high || inRanges n ranges

end FlatTemplate.Text
