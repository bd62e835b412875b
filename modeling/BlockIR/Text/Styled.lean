/-!
# Styled text

Text in colour for a terminal: an escape sequence begins the style and another one ends it.
-/

namespace BlockIR

inductive Colour
  | red | green | yellow | blue | cyan | white
deriving DecidableEq

namespace Colour

def code : Colour → String
  | red => "31"
  | green => "32"
  | yellow => "33"
  | blue => "34"
  | cyan => "36"
  | white => "37"

def styled (style text : String) : String := "\x1b[" ++ style ++ "m" ++ text ++ "\x1b[0m"

def paint (c : Colour) (text : String) : String := styled c.code text

def bold (c : Colour) (text : String) : String := styled ("1;" ++ c.code) text

end Colour

end BlockIR
