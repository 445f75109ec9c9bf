/-!
# Graphs in the DOT language

A drawing is a list of statements about the nodes and edges of a directed graph.
Only the part of the language is covered in which nodes are numbers, and values
of attributes are plain words or labels in quotes.

## Main definitions

* `Dot.escape`, `Dot.readLabel?` — labels between quotes, and back.
* `Dot.Attribute`, `Dot.Statement` — the parts of a drawing.
* `Dot.render` — a drawing as text.
-/

namespace Sentential.Dot

/-! ### Labels -/

/-- How a character is written between quotes. -/
def escapeChar (c : Char) : List Char :=
  if c == '\\' then ['\\', '\\'] else if c == '"' then ['\\', '"'] else [c]

/-- How a label is written between quotes: a backslash goes before each quote and
each backslash. -/
def escape (label : List Char) : List Char := label.flatMap escapeChar

@[simp] theorem escape_nil : escape [] = [] := rfl

@[simp] theorem escape_cons (c : Char) (label : List Char) :
    escape (c :: label) = escapeChar c ++ escape label := rfl

@[simp] theorem escape_append (label label' : List Char) :
    escape (label ++ label') = escape label ++ escape label' := List.flatMap_append

/-- Reads a label up to its closing quote, and returns what follows the quote.  A
backslash may only stand before a quote or another backslash. -/
def readLabel? : List Char → Option (List Char × List Char)
  | [] => none
  | [c] => if c == '"' then some ([], []) else none
  | c :: d :: s =>
    if c == '"' then some ([], d :: s)
    else if c == '\\' then
      if d == '\\' || d == '"' then (readLabel? s).map fun (label, rest) => (d :: label, rest)
      else none
    else (readLabel? (d :: s)).map fun (label, rest) => (c :: label, rest)

/-! ### Statements -/

/-- The value of an attribute. -/
inductive Value where
  /-- A word that is written as it is. -/
  | word (s : String)
  /-- A label, written in quotes. -/
  | label (s : List Char)
  deriving DecidableEq, Repr

/-- An attribute of nodes or edges. -/
structure Attribute where
  /-- What is set. -/
  key : String
  /-- What it is set to. -/
  value : Value
  deriving DecidableEq, Repr

/-- A line of a drawing. -/
inductive Statement where
  /-- Attributes of all nodes that do not set them. -/
  | defaults (attributes : List Attribute)
  /-- A node with its attributes. -/
  | node (id : Nat) (attributes : List Attribute)
  /-- An edge from one node to another, with its attributes. -/
  | edge (source target : Nat) (attributes : List Attribute)
  deriving DecidableEq, Repr

/-! ### Text -/

/-- The text of a value. -/
def Value.chars : Value → List Char
  | .word s => s.toList
  | .label s => '"' :: (escape s ++ ['"'])

/-- The text of an attribute. -/
def Attribute.chars (a : Attribute) : List Char := a.key.toList ++ '=' :: a.value.chars

/-- The text of a list of attributes behind what they belong to.  An empty list
leaves no trace. -/
def attributeChars (attributes : List Attribute) : List Char :=
  if attributes.isEmpty then []
  else ' ' :: '[' :: (List.intercalate [',', ' '] (attributes.map Attribute.chars) ++ [']'])

/-- The digits of a node's number. -/
def idChars (id : Nat) : List Char := Nat.toDigits 10 id

/-- A statement as a line of text, with its end of line. -/
def Statement.chars : Statement → List Char
  | .defaults attributes => "node".toList ++ attributeChars attributes ++ [';', '\n']
  | .node id attributes => idChars id ++ attributeChars attributes ++ [';', '\n']
  | .edge source target attributes =>
    idChars source ++ " -> ".toList ++ idChars target ++ attributeChars attributes ++ [';', '\n']

/-- The text of a drawing as characters. -/
def renderChars (statements : List Statement) : List Char :=
  "digraph \x7b\n".toList ++ statements.flatMap Statement.chars ++ "\x7d\n".toList

/-- The text of a drawing. -/
def render (statements : List Statement) : String := String.ofList (renderChars statements)

end Sentential.Dot
