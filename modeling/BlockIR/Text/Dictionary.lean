/-!
# Dictionaries

Words with what they stand for. The entries are put in the order of the bytes of their words, so that a word can be
looked up by halving.
-/

namespace BlockIR.Dictionary

/-- The bytes of a word in UTF-8. -/
def bytes (word : String) : List UInt8 := word.toUTF8.data.toList

/-- Whether bytes come before others: the first one that differs is smaller, or none differs and there are fewer. -/
def precedes : List UInt8 → List UInt8 → Bool
  | a :: as, b :: bs => if a ≠ b then a < b else precedes as bs
  | as, bs => as.length < bs.length

variable {α : Type}

/-- Puts an entry among sorted entries, of which the last comes first: it goes back past all that do not come
before it. -/
def place (entry : String × α) : List (String × α) → List (String × α)
  | [] => [entry]
  | last :: front =>
    if precedes (bytes last.1) (bytes entry.1) then entry :: last :: front else last :: place entry front

/-- Sorts entries by their words. One after another is put in its place among those before it. -/
def sort (entries : List (String × α)) : List (String × α) :=
  (entries.foldl (fun sorted entry => place entry sorted) []).reverse

/-- Narrows sorted entries down to one, the only one that can be the entry of a word. It goes on with the back half,
or with as many entries of the front if the back half begins behind the word. There are fewer entries each time, so
their number is fuel enough. -/
def narrow (word : String) : Nat → List (String × α) → List (String × α)
  | fuel + 1, a :: b :: rest =>
    let entries := a :: b :: rest
    let half := entries.length / 2
    have hhalf : half < entries.length := Nat.div_lt_self (Nat.succ_pos _) (Nat.lt_succ_self 1)
    if compare (bytes entries[half].1) (bytes word) = .gt then narrow word fuel (entries.take (entries.length - half))
    else narrow word fuel (entries.drop half)
  | _, entries => entries

/-- What a word stands for in sorted entries. -/
def find? (word : String) (entries : List (String × α)) : Option α :=
  match narrow word entries.length entries with
  | entry :: _ => if compare (bytes entry.1) (bytes word) = .eq then some entry.2 else none
  | [] => none

end BlockIR.Dictionary
