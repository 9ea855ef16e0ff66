/-! # Toml parsers: blanks, line ends and comments

A parser takes something from the front of a text and gives back the rest. `Parser.many` repeats one
for as long as the rest gets shorter, so that it always ends. -/

namespace ResumableVM.Toml

/-- A parser: what it takes from the front of a text, and the rest. -/
abbrev Parser (α : Type) := StateT (List Char) Option α

namespace Parser

/-- What another parser takes. -/
def run {α : Type} (p : Parser α) (cs : List Char) : Option (α × List Char) := StateT.run p cs

/-- The next character, which stays in the text. -/
def peek? : Parser (Option Char) := fun cs => some (cs.head?, cs)

/-- The text begins with some characters, which stay in it. -/
def sees (word : List Char) : Parser Bool := fun cs => some (word.isPrefixOf cs, cs)

/-- Characters as long as they are of a class. -/
def takeWhile (p : Char → Bool) : Parser (List Char) := fun cs =>
  some (cs.takeWhile p, cs.dropWhile p)

/-- A number of characters. -/
def skip (count : Nat) : Parser Unit := fun cs => some ((), cs.drop count)

/-- One character of a class. -/
def satisfy (p : Char → Bool) : Parser Char
  | c :: cs => if p c then some (c, cs) else none
  | [] => none

/-- The given characters. -/
def word (w : List Char) : Parser Unit := fun cs =>
  if w.isPrefixOf cs then some ((), cs.drop w.length) else none

/-- The given characters, if the text begins with them. -/
def accept (w : List Char) : Parser Bool := fun cs =>
  if w.isPrefixOf cs then some (true, cs.drop w.length) else some (false, cs)

/-- What a parser takes, if it succeeds. -/
def attempt {α : Type} (p : Parser α) : Parser (Option α) := fun cs =>
  match p cs with
  | some (a, rest) => some (some a, rest)
  | none => some (none, cs)

/-- What a parser takes time and again until it says that there is no more. -/
def many {α : Type} (p : Parser (Option α)) (cs : List Char) : Option (List α × List Char) :=
  match p cs with
  | none => none
  | some (none, rest) => some ([], rest)
  | some (some a, rest) =>
    if rest.length < cs.length then do
      let (as, rest) ← many p rest
      pure (a :: as, rest)
    else some ([a], rest)
termination_by cs.length

/-- A space or a tab. -/
def isBlank (c : Char) : Bool := c == ' ' || c == '\t'

/-- A character that may stand in a comment: no control but the tab. -/
def isPrinted (c : Char) : Bool := c == '\t' || (0x20 ≤ c.toNat && c.toNat != 0x7F)

/-- Spaces and tabs. -/
def blanks : Parser Unit := do
  let _ ← takeWhile isBlank

/-- The end of a line, with or without a carriage return. -/
def newline : Parser Unit := word ['\n'] <|> word ['\r', '\n']

/-- The text begins with the end of a line. -/
def seesNewline : Parser Bool := do
  pure ((← sees ['\n']) || (← sees ['\r', '\n']))

/-- A comment, up to the end of its line. -/
def comment : Parser Unit := do
  word ['#']
  let _ ← takeWhile isPrinted

/-- The end of a line or of the text. -/
def lineEnd : Parser Unit := do
  if (← peek?).isNone then pure () else newline

/-- What may follow on a line: blanks and a comment. -/
def restOfLine : Parser Unit := do
  blanks
  if (← sees ['#']) then comment
  lineEnd

/-- Blanks, line ends and comments, as they may stand between the items of an array. -/
def gap : Parser Unit := do
  let _ ← many do
    if ← sees ['#'] then
      comment
      newline
      pure (some ())
    else if ← seesNewline then
      newline
      pure (some ())
    else if ((← peek?).map isBlank).getD false then
      blanks
      pure (some ())
    else pure none

end Parser

end ResumableVM.Toml
