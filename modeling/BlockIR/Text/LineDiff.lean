import BlockIR.Text.Lines

/-!
# Line differences

What has to be done to the lines of one text to get those of another. The lines that are kept are a
longest common subsequence, found from a table of the lengths for all initial parts of both texts.
-/

namespace BlockIR.Text

/-- What becomes of a line. -/
inductive Change
  | removed (line : String)
  | added (line : String)
  | kept (line : String)
deriving DecidableEq

namespace LineDiff

/-- The number of leading lines that are the same. -/
def commonLength : List String → List String → Nat
  | x :: xs, y :: ys => if x = y then commonLength xs ys + 1 else 0
  | _, _ => 0

/-- The row of the table for one more line, from the row before: the lengths for each initial part of
the other text. -/
def nextRow (ys : List String) (above : Array Nat) (x : String) : Array Nat :=
  ys.zipIdx.foldl
    (fun row (y, j) =>
      row.push (if x = y then above.getD j 0 + 1 else max (row.getD j 0) (above.getD (j + 1) 0)))
    #[0]

/-- The lengths of the longest common subsequences of initial parts. -/
def table (xs ys : List String) : Array (Array Nat) :=
  let first := (List.replicate (ys.length + 1) 0).toArray
  (xs.foldl (fun (rows, above) x =>
    let row := nextRow ys above x
    (rows.push row, row)) (#[first], first)).1

/-- The changes for the first `i` lines of one text and the first `j` of the other, and then those
given. A line is taken as added if that does not make the kept lines fewer, and else as removed. -/
def walk (xs ys : Array String) (lengths : Array (Array Nat)) : Nat → Nat → List Change → List Change
  | 0, 0, done => done
  | 0, j + 1, done => walk xs ys lengths 0 j (.added (ys.getD j "") :: done)
  | i + 1, 0, done => walk xs ys lengths i 0 (.removed (xs.getD i "") :: done)
  | i + 1, j + 1, done =>
    let length (a b : Nat) := (lengths.getD a #[]).getD b 0
    if length (i + 1) (j + 1) = length (i + 1) j then
      walk xs ys lengths (i + 1) j (.added (ys.getD j "") :: done)
    else if length (i + 1) (j + 1) = length i (j + 1) then
      walk xs ys lengths i (j + 1) (.removed (xs.getD i "") :: done)
    else walk xs ys lengths i j (.kept (xs.getD i "") :: done)
termination_by i j => i + j

/-- The changes from one list of lines to another. Lines in common at both ends are set aside first. -/
def align (xs ys : List String) : List Change :=
  let lead := commonLength xs ys
  let xs' := xs.drop lead
  let ys' := ys.drop lead
  let trail := commonLength xs'.reverse ys'.reverse
  let xs'' := xs'.take (xs'.length - trail)
  let ys'' := ys'.take (ys'.length - trail)
  (xs.take lead).map .kept ++
    walk xs''.toArray ys''.toArray (table xs'' ys'') xs''.length ys''.length [] ++
    (xs'.drop (xs'.length - trail)).map .kept

/-- Whether a text ends with a line feed. -/
def endsLine (text : String) : Bool := text.toList.getLast? = some '\n'

/-- An empty line at the end stands for the line feed that ends a text. -/
def ending (before after : String) : List Change :=
  match endsLine before, endsLine after with
  | true, true => [.kept ""]
  | true, false => [.removed ""]
  | false, true => [.added ""]
  | false, false => []

/-- The changes from one text to another. -/
def changes (before after : String) : List Change :=
  align (lines before) (lines after) ++ ending before after

end LineDiff

end BlockIR.Text
