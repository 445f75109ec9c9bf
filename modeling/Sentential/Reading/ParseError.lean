import Sentential.Text.Brackets

/-!
# Why a text is no formula

## Main definitions

* `ParseError` — the causes for which a text is rejected.
* `ParseError.message` — what is reported for each.
-/

namespace Sentential

/-- Why a text is not a formula.  A cause may lie in a part of the text that was
split off from the rest, except for an unbalanced parenthesis, which is found in
the whole text before it is split. -/
inductive ParseError where
  /-- There is no text, or none beside a connective. -/
  | emptyInput
  /-- There is nothing but connectives and parentheses. -/
  | operatorOnly
  /-- An atom stands in parentheses. -/
  | parenthesizedAtom
  /-- The parentheses are not balanced. -/
  | unbalancedParen (fault : BracketFault)
  /-- A negation stands behind something. -/
  | negationSyntax
  /-- A connective competes with another of its level; it is the one that is
  tried first. -/
  | ambiguousOperator (op : BinaryOp)
  /-- There is more than one part, or a part in doubled parentheses, and no
  connective. -/
  | unrecognizedForm
  /-- The text nests deeper than the limit allows. -/
  | depthLimitExceeded (limit : Nat)
  deriving DecidableEq, Repr, Inhabited

/-- What is reported for a fault in the parentheses. -/
def BracketFault.message : BracketFault → String
  | .extra position => "extra ')' at position " ++ toString position
  | .missing => "missing closing parenthesis"

/-- What is reported for a text that is no formula. -/
def ParseError.message : ParseError → String
  | .emptyInput => "formula must contain one or more characters"
  | .operatorOnly => "formula contains only operators"
  | .parenthesizedAtom => "variables and literals cannot be parenthesized"
  | .unbalancedParen fault => fault.message
  | .negationSyntax => "negation must precede its operand"
  | .ambiguousOperator op => "ambiguous operator: " ++ toString op
  | .unrecognizedForm => "operator not found or doubled parentheses"
  | .depthLimitExceeded limit => "formula nests deeper than " ++ toString limit ++ " levels"

end Sentential
