import MacroMarkup.Dict

/-!
# Paths and files

A command sees its files as a `FileTree`: a finite map from paths to texts, below a
working directory.  Paths are taken apart at slashes; empty parts and single dots do not
count, and two dots go up, as far as the working directory.

* `parentPath`, `joinPath`: the directory of a path, and a path inside a directory.
* `FileTree.read?`: the text of a file; a directory has none.
* `FileTree.write`: the tree with another text in a file.
-/

namespace MacroMarkup

namespace Path

def splitSlashes : List Char → List (List Char)
  | [] => [[]]
  | c :: rest =>
    match splitSlashes rest with
    | [] => [[c]]
    | part :: parts => if c = '/' then [] :: part :: parts else (c :: part) :: parts

/-- The parts of a path, with those that do not count. -/
def parts (path : String) : List String := (splitSlashes path.toList).map String.ofList

/-- A path from the end, without what does not count at its end. -/
def trimEnd : List Char → List Char
  | ['.'] => ['.']
  | ['/'] => ['/']
  | '/' :: rest => trimEnd rest
  | '.' :: '/' :: rest => if rest.isEmpty then ['/'] else trimEnd rest
  | cs => cs

end Path

/-- The directory of a path; empty for a path of one part. -/
def parentPath (path : String) : String :=
  let trimmed := Path.trimEnd path.toList.reverse
  let above := trimmed.dropWhile (· ≠ '/')
  String.ofList (if above.isEmpty then [] else (Path.trimEnd above).reverse)

def joinPath (directory name : String) : String :=
  if directory.isEmpty then name
  else if directory.toList.getLast? = some '/' then directory ++ name
  else directory ++ "/" ++ name

/-- Files below a working directory, by the parts of their paths. -/
structure FileTree where
  files : List (List String × String)

namespace FileTree

def ofDict (files : Dict String) : FileTree :=
  ⟨files.entries.map fun (path, text) =>
    ((Path.parts path).filter fun part => part ≠ "" && part ≠ ".", text)⟩

def isDirectory (tree : FileTree) (place : List String) : Bool :=
  place.isEmpty || tree.files.any fun (path, _) =>
    place.isPrefixOf path && path.length ≠ place.length

/-- Follows the parts of a path from a place; nothing but a directory can be gone
through. -/
def follow? (tree : FileTree) (place : List String) : List String → Option (List String)
  | [] => some place
  | part :: rest =>
    if !tree.isDirectory place then none
    else if part = "" || part = "." then follow? tree place rest
    else if part = ".." then
      if place.isEmpty then none else follow? tree place.dropLast rest
    else follow? tree (place ++ [part]) rest

/-- The place that a path names.  There is nothing outside the working directory. -/
def place? (tree : FileTree) (path : String) : Option (List String) :=
  if path.isEmpty || path.toList.head? = some '/' then none
  else tree.follow? [] (Path.parts path)

def read? (tree : FileTree) (path : String) : Option String := do
  let place ← tree.place? path
  (tree.files.find? fun (other, _) => other == place).map (·.2)

/-- Writes a text into a file, if its directory is there and it is no directory itself. -/
def write? (tree : FileTree) (path text : String) : Option FileTree := do
  let place ← tree.place? path
  if tree.isDirectory place then none
  return ⟨tree.files.filter (fun (other, _) => other != place) ++ [(place, text)]⟩

end FileTree

end MacroMarkup
