/-!
# Blank characters

A character is **blank** when it has the Unicode property `White_Space`: 25 code points, in ten ranges.  Blanks never
carry meaning in an expression, so every reader of text here asks `isBlank`.
-/
namespace ExactCalc

/-- The code points with the property `White_Space`, as ranges with both ends included. -/
def blankRanges : List (Nat × Nat) :=
  [(0x09, 0x0D), (0x20, 0x20), (0x85, 0x85), (0xA0, 0xA0), (0x1680, 0x1680), (0x2000, 0x200A), (0x2028, 0x2029),
    (0x202F, 0x202F), (0x205F, 0x205F), (0x3000, 0x3000)]

def isBlank (c : Char) : Bool :=
  blankRanges.any fun r => decide (r.1 ≤ c.toNat) && decide (c.toNat ≤ r.2)

/-- A text without its blanks. -/
def visible (cs : List Char) : List Char :=
  cs.filter fun c => !isBlank c

/-- The visible characters of a text, each with its position. -/
def placed (cs : List Char) : List (Char × Nat) :=
  cs.zipIdx.filter fun p => !isBlank p.1

/-- A text without the blanks at its two ends. -/
def trimBlanks (cs : List Char) : List Char :=
  ((cs.dropWhile isBlank).reverse.dropWhile isBlank).reverse

@[simp] theorem visible_append (xs ys : List Char) : visible (xs ++ ys) = visible xs ++ visible ys := by
  simp [visible]

theorem map_fst_placed (cs : List Char) : (placed cs).map Prod.fst = visible cs := by
  rw [placed, ← Function.comp_def (fun c => !isBlank c) Prod.fst, ← List.filter_map, List.zipIdx_map_fst, visible]

end ExactCalc
