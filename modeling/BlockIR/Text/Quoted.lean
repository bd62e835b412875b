/-!
# Quoted text

In a string literal a backslash, a double quote, a line feed, a tab and a null are written as a
backslash and a mark; all else stands for itself.
-/

namespace BlockIR.Quoted

/-- The mark that stands for a character after a backslash. -/
def mark? : Char → Option Char
  | '\\' => some '\\'
  | '"' => some '"'
  | '\n' => some 'n'
  | '\t' => some 't'
  | '\x00' => some '0'
  | _ => none

/-- The character that a mark after a backslash stands for. -/
def marked? : Char → Option Char
  | '\\' => some '\\'
  | '"' => some '"'
  | 'n' => some '\n'
  | 't' => some '\t'
  | '0' => some '\x00'
  | _ => none

def encodeChar (c : Char) : List Char :=
  match mark? c with
  | some m => ['\\', m]
  | none => [c]

def encode (cs : List Char) : List Char := cs.flatMap encodeChar

/-- The text before these characters, given backwards, and then the text that they stand for. -/
def decodeOnto (done : List Char) : List Char → Option (List Char)
  | [] => some done.reverse
  | ['\\'] => none
  | '\\' :: m :: cs =>
    match marked? m with
    | some c => decodeOnto (c :: done) cs
    | none => none
  | c :: cs => decodeOnto (c :: done) cs

/-- Refuses a backslash that is not followed by a mark. -/
def decode? (cs : List Char) : Option (List Char) := decodeOnto [] cs

/-- A string between quotes. -/
def quote (s : String) : String := "\"" ++ String.ofList (encode s.toList) ++ "\""

end BlockIR.Quoted
