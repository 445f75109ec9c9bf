import Sentential.Text.Blank
import Sentential.Connective

/-!
# ASCII shorthand for the connectives

The connectives can be typed as `~`, `>`, `<>`, `^` and `V`.  Normalising a text
writes the connectives in their place, and can drop the white space as well.
Nothing is checked here: a normalised text need not be a formula.

The white space is dropped *after* the shorthand is expanded, so `< >` is not the
biconditional: it is the plain character `<` in front of a conditional.

## Main definitions

* `replacePair`, `replaceChar` — one replacement pass over a text.
* `expandShorthand` — the five passes, the pair `<>` before the single `>`.
* `normalize` — the expansion, followed if asked for by dropping the white space.
* `shorthandHelp` — the list of shorthands shown to a user.
-/

namespace Sentential

/-! ### Replacement passes -/

/-- Replaces each occurrence of the two characters `a b` by `symbol`, from left
to right and without overlaps. -/
def replacePair (a b symbol : Char) : List Char → List Char
  | [] => []
  | [c] => [c]
  | c :: d :: s =>
    if c == a && d == b then symbol :: replacePair a b symbol s
    else c :: replacePair a b symbol (d :: s)

@[simp] theorem replacePair_nil (a b symbol : Char) : replacePair a b symbol [] = [] := rfl

@[simp] theorem replacePair_singleton (a b symbol c : Char) :
    replacePair a b symbol [c] = [c] := rfl

theorem replacePair_cons_cons (a b symbol c d : Char) (s : List Char) :
    replacePair a b symbol (c :: d :: s)
      = if c == a && d == b then symbol :: replacePair a b symbol s
        else c :: replacePair a b symbol (d :: s) := rfl

/-- Replaces each occurrence of the character `a` by `symbol`. -/
def replaceChar (a symbol : Char) (s : List Char) : List Char :=
  s.map fun c => if c == a then symbol else c

/-! ### Normalising a text -/

/-- Writes the connectives in place of their shorthands.  The pair `<>` goes
first, so that its `>` is not taken for a conditional. -/
def expandShorthand (s : List Char) : List Char :=
  let s := replacePair '<' '>' BinaryOp.iff.symbol s
  let s := replaceChar '>' BinaryOp.cond.symbol s
  let s := replaceChar '^' BinaryOp.and.symbol s
  let s := replaceChar 'V' BinaryOp.or.symbol s
  replaceChar '~' Connective.not.symbol s

/-- Drops the white space of a text. -/
def dropBlanks (s : List Char) : List Char := s.filter fun c => !isBlank c

/-- Expands the shorthand of a text and, if `strip` is set, drops its white
space afterwards. -/
def normalize (strip : Bool) (s : List Char) : List Char :=
  if strip then dropBlanks (expandShorthand s) else expandShorthand s

@[simp] theorem normalize_true (s : List Char) :
    normalize true s = dropBlanks (expandShorthand s) := rfl

@[simp] theorem normalize_false (s : List Char) : normalize false s = expandShorthand s := rfl

/-! ### Help -/

/-- The shorthands and the literals, one to a line. -/
def shorthandHelp : String :=
  String.join <| [
    "Controls:",
    "~ for ¬",
    "> for →",
    "<> for ↔",
    "^ for ∧",
    "V for ⋁",
    "T for the true literal",
    "F for the false literal"].map (· ++ "\n")

end Sentential
