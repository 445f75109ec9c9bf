import Sentential.Text.Shorthand

/-!
# Parentheses in a text

Two questions about the parentheses of a text are answered by one walk from left
to right that counts the open ones: where the text is unbalanced, and whether its
first parenthesis is closed by its very last character.

## Main definitions

* `BracketFault`, `bracketFault?` — the first thing wrong with the parentheses.
* `closesEarly` — an open parenthesis is closed before the end of the text.
* `unwrap?` — the text inside one outer pair of parentheses.
* `displayForm` — a typed formula as it is shown back to the user.
-/

namespace Sentential

/-! ### Balance -/

/-- What can be wrong with the parentheses of a text. -/
inductive BracketFault where
  /-- The `)` at this position, counted in characters from zero, closes nothing. -/
  | extra (position : Nat)
  /-- Some `(` is never closed. -/
  | missing
  deriving DecidableEq, Repr, Inhabited

/-- The first fault in the parentheses of a text that starts at `position` inside
`depth` open parentheses. -/
def bracketFault? (position depth : Nat) : List Char → Option BracketFault
  | [] => if depth == 0 then none else some .missing
  | c :: s =>
    if c == '(' then bracketFault? (position + 1) (depth + 1) s
    else if c == ')' then
      match depth with
      | 0 => some (.extra position)
      | d + 1 => bracketFault? (position + 1) d s
    else bracketFault? (position + 1) depth s

@[simp] theorem bracketFault?_nil (position depth : Nat) :
    bracketFault? position depth [] = if depth == 0 then none else some .missing := rfl

@[simp] theorem bracketFault?_open (position depth : Nat) (s : List Char) :
    bracketFault? position depth ('(' :: s) = bracketFault? (position + 1) (depth + 1) s := rfl

@[simp] theorem bracketFault?_close_zero (position : Nat) (s : List Char) :
    bracketFault? position 0 (')' :: s) = some (.extra position) := rfl

@[simp] theorem bracketFault?_close_succ (position depth : Nat) (s : List Char) :
    bracketFault? position (depth + 1) (')' :: s) = bracketFault? (position + 1) depth s := rfl

/-- A character that is no parenthesis changes no depth. -/
theorem bracketFault?_cons_of_ne {c : Char} (hopen : c ≠ '(') (hclose : c ≠ ')')
    (position depth : Nat) (s : List Char) :
    bracketFault? position depth (c :: s) = bracketFault? (position + 1) depth s := by
  simp [bracketFault?, hopen, hclose]

/-! ### The outer pair -/

/-- Whether, inside `depth` open parentheses, the outermost of them is closed by
a `)` that is not the last character of the text. -/
def closesEarly (depth : Nat) : List Char → Bool
  | [] => false
  | c :: s =>
    if c == '(' then closesEarly (depth + 1) s
    else if c == ')' then (depth == 1 && !s.isEmpty) || closesEarly (depth - 1) s
    else closesEarly depth s

@[simp] theorem closesEarly_nil (depth : Nat) : closesEarly depth [] = false := rfl

@[simp] theorem closesEarly_open (depth : Nat) (s : List Char) :
    closesEarly depth ('(' :: s) = closesEarly (depth + 1) s := rfl

@[simp] theorem closesEarly_close (depth : Nat) (s : List Char) :
    closesEarly depth (')' :: s)
      = ((depth == 1 && !s.isEmpty) || closesEarly (depth - 1) s) := rfl

/-- A character that is no parenthesis closes nothing. -/
theorem closesEarly_cons_of_ne {c : Char} (hopen : c ≠ '(') (hclose : c ≠ ')')
    (depth : Nat) (s : List Char) : closesEarly depth (c :: s) = closesEarly depth s := by
  simp [closesEarly, hopen, hclose]

/-- The text inside one outer pair of parentheses, if the text begins with `(`
and ends with `)` and the first does not close before the end.  Whether the text
inside is balanced is not asked: `((p)` is unwrapped to `(p`. -/
def unwrap? : List Char → Option (List Char)
  | [] => none
  | c :: s =>
    if c == '(' && s.getLast? == some ')' && !closesEarly 1 s then some s.dropLast else none

@[simp] theorem unwrap?_nil : unwrap? [] = none := rfl

theorem unwrap?_cons (c : Char) (s : List Char) :
    unwrap? (c :: s)
      = if c == '(' && s.getLast? == some ')' && !closesEarly 1 s then some s.dropLast
        else none := rfl

/-- The text without its outer pair of parentheses, if it has one. -/
def unwrap (s : List Char) : List Char := (unwrap? s).getD s

/-! ### Display -/

/-- A typed formula as it is shown back: normalised, without white space and
without one outer pair of parentheses. -/
def displayForm (s : List Char) : List Char := unwrap (normalize true s)

end Sentential
