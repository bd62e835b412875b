/-!
# Lines and blanks

A line ends with a line feed, which takes a carriage return before it along; the last line of a text
need not be ended. Blanks are the characters with the White_Space property of Unicode.
-/

namespace BlockIR.Text

/-- A line, given backwards, without the carriage return that belongs to its end. -/
def endLine : List Char → List Char
  | '\r' :: cs => cs.reverse
  | cs => cs.reverse

/-- The lines of a text that continues a line, which is given backwards. -/
def linesAfter (line : List Char) : List Char → List (List Char)
  | [] => if line = [] then [] else [line.reverse]
  | c :: cs => if c = '\n' then endLine line :: linesAfter [] cs else linesAfter (c :: line) cs

def lineChars (cs : List Char) : List (List Char) := linesAfter [] cs

/-- The lines of a text, without their ends. -/
def lines (text : String) : List String := (lineChars text.toList).map String.ofList

/-- Whether a character has the White_Space property. -/
def isBlank (c : Char) : Bool :=
  let n := c.toNat
  (0x9 ≤ n && n ≤ 0xd) || n = 0x20 || n = 0x85 || n = 0xa0 || n = 0x1680 || (0x2000 ≤ n && n ≤ 0x200a) ||
    n = 0x2028 || n = 0x2029 || n = 0x202f || n = 0x205f || n = 0x3000

def trimLeft (cs : List Char) : List Char := cs.dropWhile isBlank

def trimRight (cs : List Char) : List Char := (cs.reverse.dropWhile isBlank).reverse

/-- What stands after a lead, if the text begins with it. -/
def after? : (lead text : List Char) → Option (List Char)
  | [], text => some text
  | _ :: _, [] => none
  | c :: lead, d :: text => if c = d then after? lead text else none

/-- Whether one text occurs within another. -/
def occursIn (part : List Char) : List Char → Bool
  | [] => part.isEmpty
  | c :: cs => part.isPrefixOf (c :: cs) || occursIn part cs

end BlockIR.Text
