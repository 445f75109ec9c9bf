import Sentential.Reading.Token
import Sentential.Formula.Basic

/-!
# Reading formulas

A text is read from its outermost level inwards.  It is normalised, and one pair of
parentheses around the whole text is dropped; what is left is an atom, or it is split
at its loosest connective into the texts of the operands, and these are read in the
same way.

Connectives of one level do not associate, an atom takes no parentheses, and no
text takes two pairs of them.

## Main definitions

* `Shape`, `Shape.ofChars` — one level of a text: an atom, or a connective and
  the texts of its operands.
* `parseAt` — reads a text within a number of levels.
* `parse` — reads a text as it is typed, within a limit.
* `defaultLimit` — the limit of an editor.
-/

namespace Sentential

/-! ### One level -/

/-- What a text is at its outermost level. -/
inductive Shape where
  /-- An atom. -/
  | atom (f : Formula)
  /-- A negation of what `operand` says. -/
  | negation (operand : List Char)
  /-- A binary connective between what `left` and `right` say. -/
  | binary (op : BinaryOp) (left right : List Char)
  deriving DecidableEq, Repr

namespace Shape

/-- The atom that a run of plain characters denotes. -/
def atomOfChars (s : List Char) : Formula :=
  if s == ['T'] then .lit true else if s == ['F'] then .lit false else .var (String.ofList s)

/-- Splits a tokenised text at its loosest connective. -/
def ofTokens (tokens : List Token) : Except ParseError Shape :=
  match Token.mainConnective? tokens with
  | none => .error .unrecognizedForm
  | some .not =>
    if (Token.before .not tokens).isEmpty then .ok (.negation (Token.after .not tokens))
    else .error .negationSyntax
  | some (.binary op) =>
    if Token.isAmbiguous (.binary op) tokens then .error (.ambiguousOperator op)
    else .ok (.binary op (Token.before (.binary op) tokens) (Token.after (.binary op) tokens))

/-- The shape of a text whose shorthand is expanded and whose white space is
dropped. -/
def ofChars (s : List Char) : Except ParseError Shape :=
  if s.isEmpty then .error .emptyInput
  else if (unwrap s).all isSpecial then .error .operatorOnly
  else if (unwrap s).any isSpecial then
    match Token.tokenize (unwrap s) with
    | .error e => .error e
    | .ok tokens => ofTokens tokens
  else if (unwrap? s).isSome then .error .parenthesizedAtom
  else .ok (.atom (atomOfChars s))

end Shape

/-! ### All levels -/

/-- Reads a text of at most `levels` levels.  The count is taken before anything
else is looked at, so a text that nests too deep is rejected for that and nothing
else, and the left operand is read before the right one.  The `limit` is only there
to be reported. -/
def parseAt (limit : Nat) : Nat → List Char → Except ParseError Formula
  | 0, _ => .error (.depthLimitExceeded limit)
  | levels + 1, s => do
    match ← Shape.ofChars (normalize true s) with
    | .atom f => return f
    | .negation operand =>
      let a ← parseAt limit levels operand
      return .neg a
    | .binary op left right =>
      let a ← parseAt limit levels left
      let b ← parseAt limit levels right
      return .bin op a b

@[simp] theorem parseAt_zero (limit : Nat) (s : List Char) :
    parseAt limit 0 s = .error (.depthLimitExceeded limit) := rfl

/-- A text that has no shape is rejected for that, on any level. -/
theorem parseAt_of_error {s : List Char} {e : ParseError}
    (h : Shape.ofChars (normalize true s) = .error e) (limit levels : Nat) :
    parseAt limit (levels + 1) s = .error e := by
  rw [parseAt, h]
  rfl

theorem parseAt_of_atom {s : List Char} {f : Formula}
    (h : Shape.ofChars (normalize true s) = .ok (.atom f)) (limit levels : Nat) :
    parseAt limit (levels + 1) s = .ok f := by
  rw [parseAt, h]
  rfl

theorem parseAt_of_negation {s operand : List Char}
    (h : Shape.ofChars (normalize true s) = .ok (.negation operand)) (limit levels : Nat) :
    parseAt limit (levels + 1) s = (parseAt limit levels operand).map .neg := by
  rw [parseAt, h]
  show (parseAt limit levels operand >>= fun a => pure (Formula.neg a)) = _
  cases parseAt limit levels operand <;> rfl

theorem parseAt_of_binary {s left right : List Char} {op : BinaryOp}
    (h : Shape.ofChars (normalize true s) = .ok (.binary op left right)) (limit levels : Nat) :
    parseAt limit (levels + 1) s
      = (parseAt limit levels left).bind fun a =>
          (parseAt limit levels right).map fun b => .bin op a b := by
  rw [parseAt, h]
  show (parseAt limit levels left >>= fun a =>
    parseAt limit levels right >>= fun b => pure (Formula.bin op a b)) = _
  cases parseAt limit levels left with
  | error e => rfl
  | ok a => cases parseAt limit levels right <;> rfl

/-- Reads a formula as it is typed.  The limit is the number of connectives that
may stand inside one another. -/
def parse (limit : Nat) (text : List Char) : Except ParseError Formula :=
  parseAt limit (limit + 1) text

/-- The limit that applies where none is chosen. -/
def defaultLimit : Nat := 256

end Sentential
