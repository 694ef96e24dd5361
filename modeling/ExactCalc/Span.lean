/-!
# Spans and their table

A **span** is a block of slots that folds to a single number: the inside of a pair of parentheses, or the whole row
(the *root*, the only span of depth 0).  The table files spans by depth; inside a depth they stay in the order in which
they were recorded, and `deepestFirst` is the order in which they are folded.
-/
namespace ExactCalc

/-- The slots from `start` to `stop`, both included.  A span of positive depth lies between two parentheses, which are
the slots just before and just after it. -/
structure Span where
  depth : Nat
  start : Nat
  stop  : Nat
deriving DecidableEq, Repr

def Span.isRoot (s : Span) : Bool :=
  s.depth == 0

def Span.text (s : Span) : String :=
  "[" ++ toString s.start ++ ".." ++ toString s.stop ++ "]"

/-- Spans by depth.  Level 0 exists from the start; a level may be empty. -/
structure SpanTable where
  levels : List (List Span) := [[]]
deriving DecidableEq, Repr

namespace SpanTable

def empty : SpanTable := {}

/-- Adds a span at the end of level `d`, making the levels that are missing. -/
def appendAt (s : Span) : Nat → List (List Span) → List (List Span)
  | 0,     []      => [[s]]
  | 0,     l :: ls => (l ++ [s]) :: ls
  | d + 1, []      => [] :: appendAt s d []
  | d + 1, l :: ls => l :: appendAt s d ls

def record (t : SpanTable) (s : Span) : SpanTable :=
  ⟨appendAt s s.depth t.levels⟩

def ofList (spans : List Span) : SpanTable :=
  spans.foldl record empty

def maxDepth (t : SpanTable) : Nat :=
  t.levels.length - 1

/-- The spans of one depth, in recording order; none if the depth is beyond the table. -/
def level (t : SpanTable) (d : Nat) : List Span :=
  t.levels[d]?.getD []

/-- The order of folding: deepest level first, recording order inside a level. -/
def deepestFirst (t : SpanTable) : List Span :=
  t.levels.reverse.flatten

/-! ## The table as a text -/

/-- The lines of the levels from depth `d` on; an empty level has none. -/
def levelLines : Nat → List (List Span) → List String
  | _, []            => []
  | d, [] :: ls      => levelLines (d + 1) ls
  | d, (s :: l) :: ls =>
    ("profondeur " ++ toString d ++ " : " ++ " ".intercalate ((s :: l).map Span.text)) :: levelLines (d + 1) ls

def text (t : SpanTable) : String :=
  "\n".intercalate (levelLines 0 t.levels)

/-! ## What recording does to a level -/

theorem getD_appendAt (s : Span) : ∀ (d : Nat) (ls : List (List Span)) (k : Nat),
    (appendAt s d ls)[k]?.getD [] = ls[k]?.getD [] ++ if k = d then [s] else []
  | 0,     [],      0     => rfl
  | 0,     [],      k + 1 => by simp [appendAt]
  | 0,     l :: ls, 0     => by simp [appendAt]
  | 0,     l :: ls, k + 1 => by simp [appendAt]
  | d + 1, [],      0     => by simp [appendAt]
  | d + 1, [],      k + 1 => by simpa [appendAt] using getD_appendAt s d [] k
  | d + 1, l :: ls, 0     => by simp [appendAt]
  | d + 1, l :: ls, k + 1 => by simpa [appendAt] using getD_appendAt s d ls k

@[simp] theorem level_empty (d : Nat) : empty.level d = [] := by
  cases d <;> rfl

/-- **Recording a span extends its own level and no other.** -/
theorem level_record (t : SpanTable) (s : Span) (d : Nat) :
    (t.record s).level d = t.level d ++ if d = s.depth then [s] else [] :=
  getD_appendAt s s.depth t.levels d

end SpanTable

end ExactCalc
