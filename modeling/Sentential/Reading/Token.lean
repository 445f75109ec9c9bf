import Sentential.Reading.ParseError

/-!
# Top-level tokens

A text with balanced parentheses is cut into the connectives that stand outside
all parentheses, the runs of plain characters between them, and the groups in
parentheses.  A group stays in one piece, whatever it contains.

## Main definitions

* `Token` — the pieces.
* `Token.tokenize` — cuts a text, or finds the first fault in its parentheses.
* `Token.scan` — the pieces of a text whose parentheses are balanced.
* `Token.join` — the text of a list of tokens.
* `Token.mainConnective?` — the connective a text is split at.

## Main results

* `Token.tokenize_eq` — **a text is cut unless there is a fault in its parentheses**, which does
  not depend on where it is cut.
-/

namespace Sentential

/-- A piece of a text at its outermost level. -/
inductive Token where
  /-- A connective outside all parentheses. -/
  | operator (k : Connective)
  /-- A run of plain characters, or a group with its parentheses. -/
  | text (run : List Char)
  deriving DecidableEq, Repr, Inhabited

namespace Token

/-- The characters of a token. -/
def chars : Token → List Char
  | .operator k => [k.symbol]
  | .text run => run

/-- The text of a list of tokens. -/
def join (tokens : List Token) : List Char := tokens.flatMap chars

@[simp] theorem join_nil : join [] = [] := rfl

@[simp] theorem join_cons (t : Token) (tokens : List Token) :
    join (t :: tokens) = t.chars ++ join tokens := rfl

@[simp] theorem join_append (tokens tokens' : List Token) :
    join (tokens ++ tokens') = join tokens ++ join tokens' := List.flatMap_append

/-! ### Cutting a text -/

/-- The run that has been read so far, last character first, as a token if there
is one. -/
def flush (run : List Char) : List Token :=
  if run.isEmpty then [] else [.text run.reverse]

/-- The tokens of a text, or the first fault in its parentheses.  The walk has come to the
character at `position`, inside `depth` open parentheses.  It has found the tokens of `found`, and
behind them it has read the characters of `run`; both are held last first. -/
def tokenizeFrom (position depth : Nat) (run : List Char) (found : List Token) :
    List Char → Except ParseError (List Token)
  | [] =>
    if depth == 0 then .ok (found.reverse ++ flush run) else .error (.unbalancedParen .missing)
  | c :: s =>
    if c == '(' then
      match depth with
      | 0 => tokenizeFrom (position + 1) 1 [c] (flush run ++ found) s
      | d + 1 => tokenizeFrom (position + 1) (d + 2) (c :: run) found s
    else if c == ')' then
      match depth with
      | 0 => .error (.unbalancedParen (.extra position))
      | 1 => tokenizeFrom (position + 1) 0 [] (.text (c :: run).reverse :: found) s
      | d + 2 => tokenizeFrom (position + 1) (d + 1) (c :: run) found s
    else
      match depth with
      | 0 =>
        match Connective.ofChar? c with
        | some k => tokenizeFrom (position + 1) 0 [] (.operator k :: (flush run ++ found)) s
        | none => tokenizeFrom (position + 1) 0 (c :: run) found s
      | d + 1 => tokenizeFrom (position + 1) (d + 1) (c :: run) found s

/-- The tokens of a text, or the first fault in its parentheses. -/
def tokenize (s : List Char) : Except ParseError (List Token) := tokenizeFrom 0 0 [] [] s

/-! ### The tokens of a balanced text -/

/-- The tokens of a text that starts inside `depth` open parentheses and behind
the characters of `run`, which holds them last first.  A `)` that closes nothing
is read as a plain character; in a balanced text there is none. -/
def scan (depth : Nat) (run : List Char) : List Char → List Token
  | [] => flush run
  | c :: s =>
    if c == '(' then
      match depth with
      | 0 => flush run ++ scan 1 [c] s
      | d + 1 => scan (d + 2) (c :: run) s
    else if c == ')' then
      match depth with
      | 0 => scan 0 (c :: run) s
      | 1 => .text (c :: run).reverse :: scan 0 [] s
      | d + 2 => scan (d + 1) (c :: run) s
    else
      match depth with
      | 0 =>
        match Connective.ofChar? c with
        | some k => flush run ++ .operator k :: scan 0 [] s
        | none => scan 0 (c :: run) s
      | d + 1 => scan (d + 1) (c :: run) s

@[simp] theorem scan_nil (depth : Nat) (run : List Char) : scan depth run [] = flush run := rfl

@[simp] theorem scan_open_zero (run s : List Char) :
    scan 0 run ('(' :: s) = flush run ++ scan 1 ['('] s := rfl

@[simp] theorem scan_open_succ (depth : Nat) (run s : List Char) :
    scan (depth + 1) run ('(' :: s) = scan (depth + 2) ('(' :: run) s := rfl

@[simp] theorem scan_close_one (run s : List Char) :
    scan 1 run (')' :: s) = .text (')' :: run).reverse :: scan 0 [] s := rfl

@[simp] theorem scan_close_add_two (depth : Nat) (run s : List Char) :
    scan (depth + 2) run (')' :: s) = scan (depth + 1) (')' :: run) s := rfl

/-- Inside parentheses, a character that is none itself joins the run. -/
theorem scan_inside {c : Char} (hopen : c ≠ '(') (hclose : c ≠ ')') (depth : Nat)
    (run s : List Char) : scan (depth + 1) run (c :: s) = scan (depth + 1) (c :: run) s := by
  simp [scan, hopen, hclose]

/-- Outside parentheses, a connective ends the run and is a token. -/
@[simp] theorem scan_symbol (k : Connective) (run s : List Char) :
    scan 0 run (k.symbol :: s) = flush run ++ .operator k :: scan 0 [] s := by
  rcases k with _ | _ | _ | _ | _ <;> rfl

/-- Outside parentheses, a plain character joins the run. -/
theorem scan_plain {c : Char} (hplain : isSpecial c = false) (run s : List Char) :
    scan 0 run (c :: s) = scan 0 (c :: run) s := by
  simp only [isSpecial, isConnective, isParen, Bool.or_eq_false_iff, beq_eq_false_iff_ne,
    Option.isSome_eq_false_iff, Option.isNone_iff_eq_none] at hplain
  obtain ⟨hk, hopen, hclose⟩ := hplain
  simp [scan, hk, hopen, hclose]

theorem reverse_flush (run : List Char) : (flush run).reverse = flush run := by
  unfold flush
  split <;> rfl

/-- What the walk makes of the rest of a text, told from the fault in it and from its tokens. -/
theorem tokenizeFrom_eq (s : List Char) :
    ∀ (position depth : Nat) (run : List Char) (found : List Token),
      tokenizeFrom position depth run found s =
        match bracketFault? position depth s with
        | some fault => .error (.unbalancedParen fault)
        | none => .ok (found.reverse ++ scan depth run s) := by
  induction s with
  | nil =>
    intro position depth run found
    cases depth with
    | zero => rfl
    | succ d => rfl
  | cons c s ih =>
    intro position depth run found
    by_cases hopen : c = '('
    · subst hopen
      cases depth with
      | zero => simp [tokenizeFrom, ih, reverse_flush]
      | succ d => exact ih _ _ _ _
    by_cases hclose : c = ')'
    · subst hclose
      match depth with
      | 0 => rfl
      | 1 => simp [tokenizeFrom, ih]
      | d + 2 => exact ih _ _ _ _
    · rw [bracketFault?_cons_of_ne hopen hclose]
      cases depth with
      | zero => cases hk : Connective.ofChar? c <;>
          simp [tokenizeFrom, scan, hopen, hclose, hk, ih, reverse_flush]
      | succ d => simp [tokenizeFrom, scan_inside hopen hclose, hopen, hclose, ih]

/-- **A text is cut unless there is a fault in its parentheses.** -/
theorem tokenize_eq (s : List Char) :
    tokenize s =
      match bracketFault? 0 0 s with
      | some fault => .error (.unbalancedParen fault)
      | none => .ok (scan 0 [] s) :=
  tokenizeFrom_eq s 0 0 [] []

/-! ### Splitting at the main connective -/

/-- The level of the connective a token is, and zero for a run or group. -/
def level : Token → Nat
  | .operator k => k.level
  | .text _ => 0

/-- The connective a text is split at: the loosest that stands among its tokens. -/
def mainConnective? (tokens : List Token) : Option Connective :=
  Connective.loosestFirst.find? fun k => tokens.contains (.operator k)

/-- The text before the first `k`. -/
def before (k : Connective) (tokens : List Token) : List Char :=
  join (tokens.takeWhile (· != .operator k))

/-- The text behind the first `k`. -/
def after (k : Connective) (tokens : List Token) : List Char :=
  join ((tokens.dropWhile (· != .operator k)).drop 1)

/-- Whether more than one connective has the level of `k`. -/
def isAmbiguous (k : Connective) (tokens : List Token) : Bool :=
  1 < tokens.countP (·.level == k.level)

end Token

end Sentential
