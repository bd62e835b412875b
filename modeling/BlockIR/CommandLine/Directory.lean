/-!
# Directories in memory

The files below a directory, by their paths. A path is followed name by name, and each name but the last
has to be that of a folder.
-/

namespace BlockIR.CommandLine

/-- Files by the names on the way to them. -/
structure Directory where
  files : List (List String × String)

namespace Directory

def names (path : String) : List String := path.splitOn "/"

def ofFiles (files : List (String × String)) : Directory :=
  ⟨files.map fun (path, text) => (names path, text)⟩

/-- Whether there are files below a place, or it is the directory itself. -/
def isFolder (d : Directory) (place : List String) : Bool :=
  place = [] || d.files.any fun (p, _) => place.isPrefixOf p && place.length < p.length

/-- The place that names lead to from a folder; nothing leads out of the directory. -/
def follow? (d : Directory) (place : List String) : List String → Option (List String)
  | [] => some place
  | name :: rest =>
    if !d.isFolder place then none
    else if name = "" ∨ name = "." then d.follow? place rest
    else if name = ".." then if place = [] then none else d.follow? place.dropLast rest
    else d.follow? (place ++ [name]) rest

/-- The place of a relative path. -/
def place? (d : Directory) (path : String) : Option (List String) :=
  if path = "" ∨ path.startsWith "/" then none else d.follow? [] (names path)

/-- The text of a file. -/
def read? (d : Directory) (path : String) : Option String := (d.place? path).bind (d.files.lookup ·)

/-- The directory after a file was written, unless there is no place for it. -/
def write? (d : Directory) (path text : String) : Option Directory := do
  let place ← d.place? path
  if d.isFolder place then none
  else some ⟨(place, text) :: d.files.filter (·.1 ≠ place)⟩

/-- The files that are not as they were before. -/
def changedSince (d before : Directory) : List (String × String) :=
  (d.files.filter (· ∉ before.files)).map fun (place, text) => (String.intercalate "/" place, text)

end Directory

end BlockIR.CommandLine
