import Sentential.Proofs.TreeOrder

/-!
# Reading a formula off its tableau

A tableau keeps all of the formula that it was built from.  Its leaves give back the atoms
and negated atoms, and the kinds of its branches the connectives between them; the texts at
its nodes are not needed for that, and can be told from it.

## Main definitions

* `NodeTable.Reads` — the formula that a node stands for, told from all but the texts.
* `Formula.isNegatedAtom` — the formulas of two nodes that are built into one leaf.

## Main results

* `NodeTable.Reads.unique` — a node stands for one formula at most.
* `LaidOut.reads` — the root of the block of a formula stands for the formula.
* `LaidOut.length_add_count` — the number of nodes of a block.
* `Tableau.reads_of_tableau` — **a tableau loses nothing of its formula.**
-/

namespace Sentential

/-- Whether a formula is the negation of an atom. -/
def Formula.isNegatedAtom : Formula → Bool
  | .neg a => a.isAtom
  | _ => false

namespace NodeTable

/-- `t.Reads id f` says that the node `id` stands for the formula `f`, where the texts at the
nodes play no part. -/
inductive Reads (t : NodeTable) : Nat → Formula → Prop where
  /-- A leaf stands for its atom if it asserts the value true, and else for the negation of
  its atom. -/
  | leaf {id : Nat} {claim : Assertion} (h : t.assertion? id = some claim) :
      Reads t id claim.formula
  /-- A branch stands for the `⋁` of what its two children stand for if they are alternatives,
  and else for their `∧`. -/
  | branch {id first second : Nat} {n : Node} {disjunctive : Bool} {a b : Formula}
      (h : t.node? id = some n) (hn : n.content = .branch disjunctive [first, second])
      (ha : Reads t first a) (hb : Reads t second b) :
      Reads t id (.bin (if disjunctive then .or else .and) a b)

/-- A node that asserts something is no branch. -/
theorem content_ne_branch {t : NodeTable} {id : Nat} {n : Node} {claim : Assertion}
    (hclaim : t.assertion? id = some claim) (hn : t.node? id = some n) {disjunctive : Bool}
    {children : List Nat} : n.content ≠ .branch disjunctive children := by
  intro hc
  rw [assertion?, hn, Option.bind_some, Node.assertion?, hc] at hclaim
  cases hclaim

/-- **A node stands for one formula at most.** -/
theorem Reads.unique {t : NodeTable} {id : Nat} {f : Formula} (hf : t.Reads id f) :
    ∀ {g : Formula}, t.Reads id g → g = f := by
  induction hf with
  | leaf h =>
    intro g hg
    cases hg with
    | leaf h' => rw [Option.some.inj (h.symm.trans h')]
    | branch h' hn' => exact absurd hn' (content_ne_branch h h')
  | branch h hn _ _ iha ihb =>
    intro g hg
    cases hg with
    | leaf h' => exact absurd hn (content_ne_branch h' h)
    | branch h' hn' ha' hb' =>
      obtain rfl := Option.some.inj (h.symm.trans h')
      cases hn.symm.trans hn'
      rw [iha ha', ihb hb']

end NodeTable

/-! ### Blocks -/

/-- The kind of a branch gives back the connective that it was built from. -/
theorem BinaryOp.eq_of_branching? {op : BinaryOp} {disjunctive : Bool}
    (h : op.branching? = some disjunctive) : (if disjunctive then .or else .and) = op := by
  cases op <;> cases h <;> rfl

namespace LaidOut

variable {seen : List Assertion} {parent? : Option Nat} {next : Nat} {f : Formula}
  {ns : List Node} {t : NodeTable}

/-- **The root of the block of a formula stands for the formula.** -/
theorem reads (h : LaidOut seen parent? next f ns) : t.Holds next ns → t.Reads next f := by
  induction h with
  | @leaf seen parent? next f claim h =>
    intro ht
    have hclaim : t.assertion? next = some claim := by
      rw [NodeTable.assertion?, ht.head]
      rfl
    rw [← Assertion.formula_of_assertion? h]
    exact .leaf hclaim
  | @branch seen parent? next op disjunctive a b left right h ha hb iha ihb =>
    intro ht
    rw [← BinaryOp.eq_of_branching? h]
    exact .branch ht.head rfl (iha ht.tail.left) (ihb ht.tail.right)

/-- Its text is the text of the formula. -/
theorem text_root (h : LaidOut seen parent? next f ns) (ht : t.Holds next ns) {n : Node}
    (hn : t.node? next = some n) : n.text = f.text := by
  cases h with
  | leaf => rw [← Option.some.inj (ht.head.symm.trans hn)]
  | branch => rw [← Option.some.inj (ht.head.symm.trans hn)]

/-- **The block of a formula has one node for each of the formula**, where a negated atom counts
as one. -/
theorem length_add_count (h : LaidOut seen parent? next f ns) :
    ns.length + f.count Formula.isNegatedAtom = f.size := by
  induction h with
  | @leaf _ _ _ f claim h =>
    obtain rfl := Assertion.formula_of_assertion? h
    rcases claim with ⟨_ | _, _ | _⟩ <;> rfl
  | @branch seen parent? next op disjunctive a b left right h ha hb iha ihb =>
    have hcount : (Formula.bin op a b).count Formula.isNegatedAtom
        = a.count Formula.isNegatedAtom + b.count Formula.isNegatedAtom := Nat.zero_add _
    rw [hcount, Formula.size_bin, ← iha, ← ihb, List.length_cons, List.length_append]
    omega

end LaidOut

/-! ### Tableaux -/

namespace Tableau

/-- **A tableau loses nothing of its formula.**  Its root stands for the formula and for no
other.  Each of its nodes stands for one formula, the canonical text of which is the text at
the node.  There is one node for each of the formula, where a negated atom counts as one.  And
no other formula has the same tableau. -/
theorem reads_of_tableau {f : Formula} {t : Tableau} (h : f.tableau = .ok t) :
    (∀ g, t.Reads t.root g ↔ g = f) ∧
    (∀ id n, t.node? id = some n → ∃ g, (∀ g', t.Reads id g' ↔ g' = g) ∧ n.text = g.text) ∧
    t.size + f.count Formula.isNegatedAtom = f.size ∧
    ∀ g, g.tableau = .ok t → g = f := by
  -- the root of a tableau stands for any formula that the tableau was built from
  have hreads : ∀ g : Formula, g.tableau = .ok t → t.Reads t.root g := by
    intro g hg
    obtain ⟨-, ms, hlaid, -, hholds⟩ := Formula.exists_laidOut_of_tableau hg
    rw [Formula.root_of_tableau hg]
    exact hlaid.reads hholds
  have hiff : ∀ {id : Nat} {f : Formula}, t.Reads id f → ∀ g, t.Reads id g ↔ g = f :=
    fun hf g => ⟨hf.unique, fun hg => hg ▸ hf⟩
  obtain ⟨-, ns, hlaid, hnodes, -⟩ := Formula.exists_laidOut_of_tableau h
  refine ⟨hiff (hreads f h), fun id n hn => ?_, ?_, fun g hg => (hreads f h).unique (hreads g hg)⟩
  · obtain ⟨_, _, g, _, hblock, hblockHolds⟩ := exists_block_of_tableau h hn
    exact ⟨g, hiff (hblock.reads hblockHolds), hblock.text_root hblockHolds hn⟩
  · rw [NodeTable.size_of_nodes_eq hnodes]
    exact hlaid.length_add_count

/-- The tableau of `¬T ∧ (F ⋁ ¬x)` has five nodes, two less than the formula.  The leaf number
1 says that `T` is false and is read as `¬T`, and not as `F`; the branch number 2 is read as
`F ⋁ ¬x`. -/
theorem reads_of_tableau_negated_literal :
    ∃ t, (Formula.conj (.neg (.lit true)) (.disj (.lit false) (.neg (.var "x")))).tableau = .ok t ∧
      (∀ g, t.Reads 0 g ↔
        g = .conj (.neg (.lit true)) (.disj (.lit false) (.neg (.var "x")))) ∧
      t.Reads 1 (.neg (.lit true)) ∧ ¬ t.Reads 1 (.lit false) ∧
      (t.node? 2).map Node.text = some "(F⋁¬x)" ∧ t.size + 2 = 7 := by
  obtain ⟨t, ht, hclaim, htext⟩ : ∃ t,
      (Formula.conj (.neg (.lit true)) (.disj (.lit false) (.neg (.var "x")))).tableau = .ok t ∧
      t.assertion? 1 = some ⟨.lit true, false⟩ ∧ (t.node? 2).map Node.text = some "(F⋁¬x)" :=
    ⟨_, rfl, by cbv, by cbv⟩
  obtain ⟨hroot, -, hsize, -⟩ := reads_of_tableau ht
  rw [Formula.root_of_tableau ht] at hroot
  have hone : t.Reads 1 (.neg (.lit true)) := .leaf hclaim
  exact ⟨t, ht, hroot, hone, fun hF => Formula.noConfusion (hone.unique hF), htext, hsize⟩

end Tableau

end Sentential
