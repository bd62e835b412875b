import BlockIR.Token
import BlockIR.Text.Dictionary
import BlockIR.Text.Numeral

/-!
# From text to tokens

Between tokens stand whitespace and comments that run to the end of their line. A token is the longest
one that begins where it does; a character that begins none is a token of its own.
-/

namespace BlockIR

namespace Token

def isSpace (c : Char) : Bool := c = ' ' || c = '\t' || c = '\n' || c = '\x0c' || c = '\r'

def isWordStart (c : Char) : Bool := c.isAlpha || c = '_'

def isWordChar (c : Char) : Bool := c.isAlphanum || c = '_'

def keywords : List (String × Token) :=
  [("return", .keyword .ret), ("fn", .keyword .fn), ("let", .keyword .let_), ("const", .keyword .const),
    ("drop", .keyword .drop), ("drop_deep", .keyword .dropDeep), ("goto", .keyword .goto),
    ("if", .keyword .if_), ("switchInt", .keyword .switchInt), ("otherwise", .keyword .otherwise),
    ("call", .keyword .call), ("diverge", .keyword .diverge), ("panic", .keyword .panic),
    ("true", .bool true), ("false", .bool false)] ++
  BinOp.all.map (fun op => (op.name, .binOp op)) ++ UnOp.all.map (fun op => (op.name, .unOp op))

def sortedKeywords : List (String × Token) := Dictionary.sort keywords

/-- The token of a word that is a keyword. -/
def keyword? (word : String) : Option Token := Dictionary.find? word sortedKeywords

/-- The index of a local, if the characters after the name of its kind are digits of a 32-bit number. -/
def localIndex? (digits : List Char) : Option UInt32 :=
  (Numeral.below? UInt32.size 10 digits).map UInt32.ofNat

/-- The local that a word names, if it is the name of a kind of locals with an index. -/
def local? : List Char → Option Token
  | 'a' :: 'r' :: 'g' :: digits => (localIndex? digits).map .arg
  | 'v' :: 'a' :: 'r' :: digits => (localIndex? digits).map .var
  | 't' :: 'm' :: 'p' :: digits => (localIndex? digits).map .temp
  | _ => none

/-- A word is a keyword, else a local, else an identifier. -/
def ofWord (word : List Char) : Token :=
  match keyword? (String.ofList word) with
  | some token => token
  | none => (local? word).getD (.ident (String.ofList word))

/-- The exponent of a float literal, of which the digits may be missing. -/
def exponentPart : List Char → List Char
  | 'e' :: '-' :: cs => 'e' :: '-' :: cs.takeWhile Char.isDigit
  | 'e' :: cs => 'e' :: cs.takeWhile Char.isDigit
  | _ => []

/-- The decimal literal that begins with a sign or digit, and its further characters. A point makes it a
float; only a literal without one can be unsigned. -/
def scanNumber (first : Char) (cs : List Char) : Token × List Char :=
  let whole := cs.takeWhile Char.isDigit
  match cs.drop whole.length with
  | '.' :: cs' =>
    let places := cs'.takeWhile Char.isDigit
    let tail := whole ++ '.' :: places ++ exponentPart (cs'.drop places.length)
    (.float (String.ofList (first :: tail)), tail)
  | 'u' :: _ => (.uint (String.ofList (first :: whole ++ ['u'])), whole ++ ['u'])
  | _ => (.int (String.ofList (first :: whole)), whole)

/-- The characters that may follow the radix mark of a literal. -/
def isRadixDigit (mark : Char) (c : Char) : Bool :=
  (Numeral.digit? (if mark = 'x' then 16 else if mark = 'b' then 2 else 8) c).isSome

/-- The literal that begins with a zero and a radix mark, and its characters after the zero. -/
def scanRadix (mark : Char) (cs : List Char) : Token × List Char :=
  let digits := cs.takeWhile (isRadixDigit mark)
  let tail := mark :: digits
  match cs.drop digits.length with
  | 'u' :: _ => (.uint (String.ofList ('0' :: tail ++ ['u'])), tail ++ ['u'])
  | _ => (.int (String.ofList ('0' :: tail)), tail)

/-- How many characters after an opening quote belong to the string, and whether the last of them is its
closing quote. A backslash takes the next character with it; an open string ends with its line. -/
def stringEnd (n : Nat) : List Char → Bool × Nat
  | [] => (false, n)
  | '"' :: _ => (true, n + 1)
  | '\n' :: _ => (false, n + 1)
  | ['\\'] => (false, n + 1)
  | '\\' :: _ :: cs => stringEnd (n + 2) cs
  | _ :: cs => stringEnd (n + 1) cs

def scanString (cs : List Char) : Token × List Char :=
  let (closed, n) := stringEnd 0 cs
  let tail := cs.take n
  (if closed then .str (String.ofList (tail.take (n - 1))) else .unknown (String.ofList ('"' :: tail)),
    tail)

/-- The mark that a single character is. -/
def mark? : Char → Option Mark
  | '#' => some .hash
  | '{' => some .curlyOpen
  | '}' => some .curlyClose
  | '(' => some .parenOpen
  | ')' => some .parenClose
  | '[' => some .squareOpen
  | ']' => some .squareClose
  | '=' => some .eq
  | ':' => some .colon
  | ';' => some .semi
  | ',' => some .comma
  | _ => none

def scanMinus (cs : List Char) : Token × List Char :=
  match cs with
  | '>' :: _ => (.mark .arrow, ['>'])
  | c :: _ => if c.isDigit then scanNumber '-' cs else (.unknown "-", [])
  | [] => (.unknown "-", [])

def scanZero (cs : List Char) : Token × List Char :=
  match cs with
  | c :: cs' => if c = 'x' ∨ c = 'b' ∨ c = 'o' then scanRadix c cs' else scanNumber '0' cs
  | [] => scanNumber '0' cs

/-- The token that begins with a character, and its further characters, which begin the text after it. -/
def scan (c : Char) (cs : List Char) : Token × List Char :=
  match mark? c with
  | some m => (.mark m, [])
  | none =>
    if c = '"' then scanString cs
    else if c = '-' then scanMinus cs
    else if c = '0' then scanZero cs
    else if c.isDigit then scanNumber c cs
    else if isWordStart c then
      let tail := cs.takeWhile isWordChar
      (ofWord (c :: tail), tail)
    else (.unknown (String.singleton c), [])

end Token

/-- A place in a text: the line, and how many characters stand before it on that line. -/
structure Cursor where
  line : Nat
  before : Nat
deriving DecidableEq

namespace Cursor

def start : Cursor := ⟨1, 0⟩

/-- The place after a character. -/
def step (p : Cursor) (c : Char) : Cursor :=
  if c = '\n' then ⟨p.line + 1, 0⟩ else ⟨p.line, p.before + 1⟩

/-- The place after some characters. -/
def past (p : Cursor) (cs : List Char) : Cursor := cs.foldl step p

end Cursor

namespace Lexeme

/-- Passes over whitespace and comments; the flag says that the text begins inside a comment. -/
def skipLayout : Bool → Cursor → List Char → Cursor × List Char
  | _, p, [] => (p, [])
  | true, p, c :: cs => skipLayout (c ≠ '\n') (p.step c) cs
  | false, p, c :: cs =>
    if Token.isSpace c then skipLayout false (p.step c) cs
    else if c = '/' ∧ cs.head? = some '/' then skipLayout true (p.step c) cs
    else (p, c :: cs)

/-- The tokens of a text that begins at a place. Each takes a character at least, so that there are no
more tokens than characters, which is what the fuel counts. -/
def scanFrom : Nat → Cursor → List Char → List Lexeme
  | 0, _, _ => []
  | fuel + 1, p, cs =>
    match skipLayout false p cs with
    | (_, []) => []
    | (q, c :: rest) =>
      let (token, tail) := Token.scan c rest
      ⟨token, Span.clamped q.line (q.before + 1) (tail.length + 1)⟩ ::
        scanFrom fuel ((q.step c).past tail) (rest.drop tail.length)

/-- The tokens of a text. -/
def ofText (source : String) : List Lexeme :=
  scanFrom source.toList.length Cursor.start source.toList

end Lexeme

end BlockIR
