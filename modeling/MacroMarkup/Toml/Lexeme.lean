/-!
# Lexemes of TOML

Each reader takes the characters ahead and answers what it read and what is left, or
nothing if the text is wrong.

* `basicBody?`, `literalBody?`: strings on one line; `basicLines?`, `literalLines?`: their
  forms over several lines; `string?`: a string of any form.
* `isBare`: the characters of a key without quotes.
* `skipSpace`, `lineEnd?`: what separates values, and what ends a line.
-/

namespace MacroMarkup.Toml

def isSpace (c : Char) : Bool := c == ' ' || c == '\t'

/-- Characters that may stand in a comment and in a literal string. -/
def isPlain (c : Char) : Bool :=
  c == '\t' || (32 ≤ c.toNat && c.toNat ≤ 126) || 128 ≤ c.toNat

/-- Characters of a key without quotes. -/
def isBare (c : Char) : Bool := c.isAlphanum || c == '_' || c == '-'

def skipSpaces (cs : List Char) : List Char := cs.dropWhile isSpace

def hexValue? (c : Char) : Option Nat :=
  if '0' ≤ c && c ≤ '9' then some (c.toNat - 48)
  else if 'a' ≤ c && c ≤ 'f' then some (c.toNat - 87)
  else if 'A' ≤ c && c ≤ 'F' then some (c.toNat - 55)
  else none

def charOfHex? (digits : List Char) : Option Char := do
  let code ← digits.foldlM (fun n c => do return 16 * n + (← hexValue? c)) 0
  if code.isValidChar then some (Char.ofNat code) else none

def escape? : Char → Option Char
  | 'b' => some (Char.ofNat 8)
  | 't' => some '\t'
  | 'n' => some '\n'
  | 'f' => some (Char.ofNat 12)
  | 'r' => some '\r'
  | '"' => some '"'
  | '\\' => some '\\'
  | _ => none

/-- What was read of a string and what is left, or nothing if the text is wrong. -/
abbrev StringRead := Option (List Char × List Char)

def consRead (c : Char) (read : StringRead) : StringRead :=
  read.map fun (cs, rest) => (c :: cs, rest)

def consRead? (c : Option Char) (read : StringRead) : StringRead :=
  c.bind fun c => consRead c read

/-- The rest of a string in double quotes on one line. -/
def basicBody? : List Char → StringRead
  | [] => none
  | '"' :: rest => some ([], rest)
  | '\\' :: 'u' :: a :: b :: c :: d :: rest =>
    consRead? (charOfHex? [a, b, c, d]) (basicBody? rest)
  | '\\' :: 'U' :: a :: b :: c :: d :: e :: f :: g :: h :: rest =>
    consRead? (charOfHex? [a, b, c, d, e, f, g, h]) (basicBody? rest)
  | '\\' :: c :: rest => consRead? (escape? c) (basicBody? rest)
  | c :: rest => if isPlain c then consRead c (basicBody? rest) else none

/-- The rest of a string in single quotes on one line. -/
def literalBody? : List Char → StringRead
  | [] => none
  | '\'' :: rest => some ([], rest)
  | c :: rest => if isPlain c then consRead c (literalBody? rest) else none

/-- How a string over several lines goes on. -/
inductive LineMode where
  | plain
  /-- Behind a backslash and spaces: the line has to end. -/
  | folding
  /-- Spaces and line breaks do not count. -/
  | skipping
deriving DecidableEq

/-- The rest of a string in three double quotes.  One or two quotes right before the
closing ones belong to the text. -/
def basicLines? (mode : LineMode) : List Char → StringRead
  | [] => none
  | '\r' :: '\n' :: rest =>
    if mode = .plain then consRead '\n' (basicLines? .plain rest)
    else basicLines? .skipping rest
  | '\n' :: rest =>
    if mode = .plain then consRead '\n' (basicLines? .plain rest)
    else basicLines? .skipping rest
  | '"' :: '"' :: '"' :: '"' :: '"' :: after =>
    if mode = .folding then none else some (['"', '"'], after)
  | '"' :: '"' :: '"' :: '"' :: after => if mode = .folding then none else some (['"'], after)
  | '"' :: '"' :: '"' :: after => if mode = .folding then none else some ([], after)
  | '\\' :: 'u' :: a :: b :: c :: d :: rest =>
    if mode = .folding then none
    else consRead? (charOfHex? [a, b, c, d]) (basicLines? .plain rest)
  | '\\' :: 'U' :: a :: b :: c :: d :: e :: f :: g :: h :: rest =>
    if mode = .folding then none
    else consRead? (charOfHex? [a, b, c, d, e, f, g, h]) (basicLines? .plain rest)
  | '\\' :: x :: rest =>
    if mode = .folding then none
    else
      match escape? x with
      | some c => consRead c (basicLines? .plain rest)
      | none => basicLines? .folding (x :: rest)
  | c :: rest =>
    if mode ≠ .plain && isSpace c then basicLines? mode rest
    else if mode ≠ .folding && isPlain c then consRead c (basicLines? .plain rest)
    else none

/-- The rest of a string in three single quotes. -/
def literalLines? : List Char → StringRead
  | [] => none
  | '\'' :: '\'' :: '\'' :: '\'' :: '\'' :: after => some (['\'', '\''], after)
  | '\'' :: '\'' :: '\'' :: '\'' :: after => some (['\''], after)
  | '\'' :: '\'' :: '\'' :: after => some ([], after)
  | '\r' :: '\n' :: rest => consRead '\n' (literalLines? rest)
  | c :: rest => if isPlain c || c = '\n' then consRead c (literalLines? rest) else none

def skipFirstBreak : List Char → List Char
  | '\n' :: rest => rest
  | '\r' :: '\n' :: rest => rest
  | cs => cs

/-- A string on one line, as it can also stand as a key. -/
def lineString? : List Char → Option (String × List Char)
  | '"' :: rest => (basicBody? rest).map fun (cs, rest) => (String.ofList cs, rest)
  | '\'' :: rest => (literalBody? rest).map fun (cs, rest) => (String.ofList cs, rest)
  | _ => none

def string? : List Char → Option (String × List Char)
  | '"' :: '"' :: '"' :: rest =>
    (basicLines? .plain (skipFirstBreak rest)).map fun (cs, rest) => (String.ofList cs, rest)
  | '\'' :: '\'' :: '\'' :: rest =>
    (literalLines? (skipFirstBreak rest)).map fun (cs, rest) => (String.ofList cs, rest)
  | cs => lineString? cs

/-- What is left behind spaces, line breaks and comments. -/
def skipSpace (inComment : Bool) : List Char → List Char
  | [] => []
  | '\r' :: '\n' :: rest => skipSpace false rest
  | c :: rest =>
    if c = '\n' then skipSpace false rest
    else if inComment then if isPlain c then skipSpace true rest else c :: rest
    else if isSpace c then skipSpace false rest
    else if c = '#' then skipSpace true rest
    else c :: rest

/-- What is left behind the end of a line, which only spaces and a comment may precede. -/
def lineEnd? (cs : List Char) : Option (List Char) :=
  let rest := match skipSpaces cs with
    | '#' :: comment => comment.dropWhile isPlain
    | rest => rest
  match rest with
  | [] => some []
  | '\n' :: rest => some rest
  | '\r' :: '\n' :: rest => some rest
  | _ => none

theorem skipSpaces_cons_of_not {c : Char} {cs : List Char} (h : isSpace c = false) :
    skipSpaces (c :: cs) = c :: cs := by
  simp [skipSpaces, h]

end MacroMarkup.Toml
