import LexicalScopes.Fault
import LexicalScopes.Json.Order

/-!
# Locations and ranges

A location is a line and a column as the tree has them. Locations are ordered by line and, on one
line, by column; the question fails if the two values that decide it cannot be compared. A range
contains its two ends.
-/

namespace LexicalScopes

/-- A place in the source. -/
structure Location where
  line : Json
  column : Json
deriving DecidableEq, Repr, Inhabited

/-- A part of the source, both ends included. -/
structure Range where
  start : Location
  stop : Location
deriving DecidableEq, Repr, Inhabited

namespace Location

/-- Line and column have the same values. -/
def same (a b : Location) : Bool := a.line.same b.line && a.column.same b.column

/-- Compare two locations by line, then by column. -/
def compare (a b : Location) : Except Fault Comparison :=
  readable (Json.compareItems? [a.line, a.column] [b.line, b.column])

/-- `a` is `b` or stands before it. -/
def le (a b : Location) : Except Fault Bool := do
  let c ← compare a b
  return c == .before || c == .equal

/-- `a` stands before `b`. -/
def lt (a b : Location) : Except Fault Bool := return (← compare a b) == .before

end Location

namespace Range

/-- The two ranges have the same ends. -/
def same (r s : Range) : Bool := r.start.same s.start && r.stop.same s.stop

/-- The location lies between the two ends, or on one of them. -/
def contains (r : Range) (l : Location) : Except Fault Bool := do
  if ← r.start.le l then l.le r.stop else return false

/-- Every location of `s` lies in `r`. -/
def encloses (r s : Range) : Except Fault Bool := do
  if ← r.start.le s.start then s.stop.le r.stop else return false

end Range

/-! ## Sorting -/

namespace Location

/-- Insert a location behind those that are not after it, by bisection of the sorted list. Only
the locations that the bisection meets are compared, so only they need to have an order. -/
def insertSorted : Nat → Location → List Location → Except Fault (List Location)
  | 0, l, sorted => .ok (l :: sorted)
  | _ + 1, l, [] => .ok [l]
  | fuel + 1, l, first :: rest => do
    let sorted := first :: rest
    let middle := sorted.length / 2
    match sorted.drop middle with
    | [] => .ok (sorted ++ [l])
    | pivot :: after =>
      if ← l.lt pivot then
        return (← insertSorted fuel l (sorted.take middle)) ++ pivot :: after
      else
        return sorted.take middle ++ pivot :: (← insertSorted fuel l after)

/-- The longest beginning that rises without a fall after `last`, and what follows it. -/
def risingFrom (last : Location) : List Location → Except Fault (List Location × List Location)
  | [] => .ok ([], [])
  | l :: rest => do
    if ← l.lt last then return ([], l :: rest)
    else
      let (run, rest) ← risingFrom l rest
      return (l :: run, rest)

/-- The longest beginning that falls strictly after `last`, and what follows it. -/
def fallingFrom (last : Location) : List Location → Except Fault (List Location × List Location)
  | [] => .ok ([], [])
  | l :: rest => do
    if ← l.lt last then
      let (run, rest) ← fallingFrom l rest
      return (l :: run, rest)
    else return ([], l :: rest)

/-- The first run of a list, in ascending order, and what follows it. -/
def firstRun : List Location → Except Fault (List Location × List Location)
  | [] => .ok ([], [])
  | [a] => .ok ([a], [])
  | a :: b :: rest => do
    if ← b.lt a then
      let (run, rest) ← fallingFrom b rest
      return ((a :: b :: run).reverse, rest)
    else
      let (run, rest) ← risingFrom b rest
      return (a :: b :: run, rest)

/-- The locations in ascending order, equal ones in the order given: the first run is taken as it
stands and the others are inserted one by one. -/
def sorted (ls : List Location) : Except Fault (List Location) := do
  let (run, rest) ← firstRun ls
  rest.foldlM (fun done l => insertSorted done.length l done) run

end Location

end LexicalScopes
