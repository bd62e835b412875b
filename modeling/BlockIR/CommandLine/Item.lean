/-!
# The items of a command line

The words of a command line are split into items before any option is looked at. Short options can be
joined in one word, and the value of an option can stand in the same word.
-/

namespace BlockIR.CommandLine

/-- An option: its names, and whether a value belongs to it. -/
structure OptionSpec where
  short : Option Char
  long : String
  takesValue : Bool

inductive Item
  | short (name : Char)
  | long (name : String)
  /-- A value in the same word as the option before it. -/
  | joined (value : String)
  | word (text : String)
  /-- A word after the one that ends the options. -/
  | operand (text : String)
  /-- An item that was put to use. -/
  | used
deriving DecidableEq

namespace Item

/-- The options of a word of joined short names. Each but the last takes no value, and what follows the
name of one that takes a value is that value. -/
def ofShorts? (specs : List OptionSpec) : List Char → Option (List Item)
  | [] => some []
  | c :: cs =>
    match specs.find? (·.short = some c) with
    | none => none
    | some spec =>
      if spec.takesValue then
        some (short c :: if cs.isEmpty then [] else [joined (String.ofList cs)])
      else (ofShorts? specs cs).map (short c :: ·)

/-- The items of a word that may begin with dashes. A word of joined short names that are not all known
is a word like any other. -/
def ofWord (specs : List OptionSpec) (w : String) : List Item :=
  match w.toList with
  | '-' :: '-' :: cs =>
    match cs.dropWhile (· ≠ '=') with
    | [] => [long (String.ofList cs)]
    | _ :: value => [long (String.ofList (cs.takeWhile (· ≠ '='))), joined (String.ofList value)]
  | ['-', c] => [short c]
  | '-' :: c :: '=' :: value => [short c, joined (String.ofList value)]
  | '-' :: c :: cs =>
    if '=' ∈ cs then [short c, joined (String.ofList cs)]
    else (ofShorts? specs (c :: cs)).getD [word w]
  | _ => [word w]

/-- The items of all words. Two dashes alone end the options. -/
def ofWords (specs : List OptionSpec) : List String → List Item
  | [] => []
  | w :: ws => if w = "--" then used :: ws.map operand else ofWord specs w ++ ofWords specs ws

/-- Whether an item names an option. -/
def names (spec : OptionSpec) : Item → Bool
  | short c => spec.short = some c
  | long name => spec.long = name
  | _ => false

/-- The text of a word that belongs to no option. -/
def free? : Item → Option String
  | word text | operand text => some text
  | _ => none

/-- Whether an item may be left when all options were taken. -/
def isSettled : Item → Bool
  | used | word _ | operand _ => true
  | _ => false

end Item

/-- Takes options from the items of a command line, or fails if they are misused. -/
abbrev Taking := StateT (List Item) Option

namespace Taking

/-- Whether an option is given. -/
def flag (spec : OptionSpec) : Taking Bool := fun items =>
  match items.findIdx? (Item.names spec) with
  | none => some (false, items)
  | some i => some (true, items.set i .used)

/-- The value of an option, if it is given. The value is the next item. -/
def value (spec : OptionSpec) : Taking (Option String) := fun items =>
  match items.findIdx? (Item.names spec) with
  | none => some (none, items)
  | some i =>
    match items[i + 1]? with
    | some (.joined v) | some (.word v) => some (some v, (items.set i .used).set (i + 1) .used)
    | _ => none

/-- The words that belong to no option. -/
def words : Taking (List String) := fun items => some (items.filterMap Item.free?, items)

end Taking

end BlockIR.CommandLine
