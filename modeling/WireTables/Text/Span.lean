/-!
# Tables of code points

A class of characters is stored as inclusive ranges of code points. Membership is a search
through the ranges, so a class means exactly the union of its ranges.
-/

namespace WireTables.Text

/-- Some range of the table holds the code point. -/
def inSpans (spans : Array (Nat × Nat)) (n : Nat) : Bool :=
  spans.any fun (first, last) => first ≤ n && n ≤ last

/-- Some range holds the code point at an even distance from its start. -/
def inAlternating (spans : Array (Nat × Nat)) (n : Nat) : Bool :=
  spans.any fun (first, last) => first ≤ n && n ≤ last && (n - first) % 2 == 0

end WireTables.Text
