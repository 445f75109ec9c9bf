import Sentential.Proofs.Layout

/-!
# Closed leaves

A leaf is marked when it is made, by a scan of a table that is not finished.  On the
finished tableau the mark can be told from the links alone: a leaf is closed if it is in
the second part of some branch whose first part is nothing but the opposite assertion.
That branch may be of either kind.

## Main definitions

* `NodeTable.Sees` — a node has a leaf beside its way up to the root.
* `Formula.conjoin` — a formula with `∧` in the place of each `⋁`.

## Main results

* `NodeTable.Linked.sees_iff` — what a node sees, told from what its parent sees.
* `LaidOut.closed?_iff` — the marks in a block.
* `LaidOut.map_closed?_congr` — the marks do not depend on the kinds of the branches.
* `Tableau.closed?_iff_sees` — **which leaves of a tableau are closed**.
-/

namespace Sentential

/-! ### What a node sees -/

namespace NodeTable

/-- A node sees what the first child of one of its ancestors asserts, if the node is in
the subtree of the second child. -/
def Sees (t : NodeTable) (id : Nat) (claim : Assertion) : Prop :=
  ∃ a ∈ t.ancestors id, ∃ first second,
    t.children a = [first, second] ∧ t.Below id second ∧ t.assertion? first = some claim

variable {t : NodeTable}

theorem not_sees_of_parent? {id : Nat} (h : t.parent? id = none) (claim : Assertion) :
    ¬ t.Sees id claim := by
  rintro ⟨a, ha, -⟩
  rw [ancestors, h] at ha
  exact List.not_mem_nil ha

/-- A node is in the subtree of a child of its parent only if it is that child. -/
theorem Linked.below_sibling_iff (h : t.Linked) {id a child : Nat} (hp : t.parent? id = some a)
    (hchild : child ∈ t.children a) : t.Below id child ↔ id = child := by
  refine ⟨fun hbelow => hbelow.resolve_right fun hmem => ?_, Or.inl⟩
  have hlt : a < child := h.parent_lt (h.parent?_child hchild)
  rw [h.ancestors_of_parent? hp] at hmem
  rcases List.mem_cons.mp hmem with rfl | hmem
  · exact Nat.lt_irrefl _ hlt
  · exact Nat.lt_asymm hlt (lt_of_mem_ancestors hmem)

/-- A node is in the subtree of a child of a further ancestor exactly if its parent is. -/
theorem Linked.below_child_iff (h : t.Linked) {id parent a child : Nat}
    (hp : t.parent? id = some parent) (ha : a ∈ t.ancestors parent)
    (hchild : child ∈ t.children a) : t.Below id child ↔ t.Below parent child := by
  have hne : id ≠ child := by
    rintro rfl
    -- it would hang from `a` and from `parent`
    obtain rfl : parent = a := Option.some.inj (hp.symm.trans (h.parent?_child hchild))
    exact Nat.lt_irrefl parent (lt_of_mem_ancestors ha)
  unfold Below
  rw [h.ancestors_of_parent? hp, List.mem_cons, eq_comm (a := child)]
  exact or_iff_right hne

/-- **A node sees what its parent sees**, and if it is a second child also its sibling. -/
theorem Linked.sees_iff (h : t.Linked) {id parent : Nat} (hp : t.parent? id = some parent)
    (claim : Assertion) :
    t.Sees id claim ↔
      (∃ first, t.children parent = [first, id] ∧ t.assertion? first = some claim) ∨
        t.Sees parent claim := by
  constructor
  · rintro ⟨a, ha, first, second, hchildren, hbelow, hclaim⟩
    have hsecond : second ∈ t.children a := by simp [hchildren]
    rw [h.ancestors_of_parent? hp] at ha
    rcases List.mem_cons.mp ha with rfl | ha
    · obtain rfl := (h.below_sibling_iff hp hsecond).mp hbelow
      exact Or.inl ⟨first, hchildren, hclaim⟩
    · exact Or.inr ⟨a, ha, first, second, hchildren,
        (h.below_child_iff hp ha hsecond).mp hbelow, hclaim⟩
  · rintro (⟨first, hchildren, hclaim⟩ | ⟨a, ha, first, second, hchildren, hbelow, hclaim⟩)
    · refine ⟨parent, ?_, first, id, hchildren, Or.inl rfl, hclaim⟩
      rw [h.ancestors_of_parent? hp]
      exact List.mem_cons_self
    · refine ⟨a, ?_, first, second, hchildren, ?_, hclaim⟩
      · rw [h.ancestors_of_parent? hp]
        exact List.mem_cons_of_mem _ ha
      · exact (h.below_child_iff hp ha (by simp [hchildren])).mpr hbelow

/-- A first child sees what its parent sees. -/
theorem Linked.sees_first_iff (h : t.Linked) {id first second : Nat}
    (hchildren : t.children id = [first, second]) (hne : first ≠ second) (claim : Assertion) :
    t.Sees first claim ↔ t.Sees id claim := by
  have hp : t.parent? first = some id := h.parent?_child (by simp [hchildren])
  rw [h.sees_iff hp, hchildren]
  refine or_iff_right ?_
  rintro ⟨_, heq, -⟩
  simp only [List.cons.injEq, and_true] at heq
  exact hne heq.2.symm

/-- A second child sees its sibling as well. -/
theorem Linked.sees_second_iff (h : t.Linked) {id first second : Nat}
    (hchildren : t.children id = [first, second]) (claim : Assertion) :
    t.Sees second claim ↔ t.assertion? first = some claim ∨ t.Sees id claim := by
  have hp : t.parent? second = some id := h.parent?_child (by simp [hchildren])
  rw [h.sees_iff hp, hchildren]
  simp

end NodeTable

/-! ### The marks in a block -/

/-- An assertion is contradicted by what has been seen, if it is about a variable and the
opposite was seen. -/
theorem Assertion.contradictedBy_iff {seen : List Assertion} {claim : Assertion} :
    claim.contradictedBy seen = true ↔ claim.atom.isVariable = true ∧ claim.complement ∈ seen := by
  simp [contradictedBy]

namespace LaidOut

variable {seen : List Assertion} {parent? : Option Nat} {next : Nat} {f : Formula}
  {ns : List Node} {t : NodeTable}

/-- **A leaf of a block is closed if it is about a variable and sees the opposite**, when
`seen` is what the root of the block sees in the finished table. -/
theorem closed?_iff (hlinked : t.Linked) (h : LaidOut seen parent? next f ns) :
    t.Holds next ns → (∀ claim, claim ∈ seen ↔ t.Sees next claim) →
      ∀ id, next ≤ id → id < next + ns.length → ∀ claim, t.assertion? id = some claim →
        ∃ closed, t.closed? id = some closed ∧
          (closed = true ↔ claim.atom.isVariable = true ∧ t.Sees id claim.complement) := by
  induction h with
  | @leaf seen parent? next f own h =>
    intro ht hseen id hge hle claim hclaim
    rw [List.length_singleton] at hle
    obtain rfl : id = next := Nat.le_antisymm (Nat.le_of_lt_succ hle) hge
    have hnode := ht.head
    rw [NodeTable.assertion?, hnode] at hclaim
    obtain rfl : own = claim := Option.some.inj hclaim
    refine ⟨own.contradictedBy seen, by rw [NodeTable.closed?, hnode]; rfl, ?_⟩
    rw [Assertion.contradictedBy_iff, hseen]
  | @branch seen parent? next op disjunctive a b left right h ha hb iha ihb =>
    intro ht hseen id hge hle claim hclaim
    have hleft := ht.tail.left
    have hright := ht.tail.right
    have hchildren : t.children next = [next + 1, next + 1 + left.length] := by
      rw [NodeTable.children, ht.head]
      rfl
    have hpos := ha.length_pos
    have hseen₁ : ∀ claim, claim ∈ seen ↔ t.Sees (next + 1) claim := fun claim =>
      (hseen claim).trans (hlinked.sees_first_iff hchildren (by omega) claim).symm
    have hseen₂ : ∀ claim, claim ∈ a.assertion?.toList ++ seen
        ↔ t.Sees (next + 1 + left.length) claim := by
      intro claim
      rw [hlinked.sees_second_iff hchildren, ← hseen, List.mem_append, Option.mem_toList,
        ha.assertion?_root hleft]
    rw [List.length_cons, List.length_append] at hle
    rcases Nat.eq_or_lt_of_le hge with rfl | hlt
    · rw [NodeTable.assertion?, ht.head] at hclaim
      simp [Node.assertion?] at hclaim
    rcases Nat.lt_or_ge id (next + 1 + left.length) with hid | hid
    · exact iha hleft hseen₁ id hlt hid claim hclaim
    · exact ihb hright hseen₂ id hid (by omega) claim hclaim

end LaidOut

/-! ### The kinds of the branches -/

/-- The formula with `∧` in the place of each `⋁`. -/
def Formula.conjoin : Formula → Formula
  | .lit value => .lit value
  | .var name => .var name
  | .neg a => .neg a.conjoin
  | .bin op a b => .bin (if op = .or then .and else op) a.conjoin b.conjoin

theorem Formula.assertion?_conjoin (f : Formula) : f.conjoin.assertion? = f.assertion? := by
  rcases f with value | name | (value | name | a | ⟨op, a, b⟩) | ⟨op, a, b⟩ <;> rfl

/-- Formulas that differ in `∧` and `⋁` only assert the same, if anything. -/
theorem Formula.assertion?_eq_of_conjoin {f g : Formula} (h : g.conjoin = f.conjoin) :
    g.assertion? = f.assertion? := by
  rw [← assertion?_conjoin g, h, assertion?_conjoin]

/-- **The marks do not depend on the kinds of the branches**: formulas that differ in `∧`
and `⋁` only have the same marks in the same places. -/
theorem LaidOut.map_closed?_congr {seen : List Assertion} {parent? : Option Nat} {next : Nat}
    {f : Formula} {ns : List Node} (h : LaidOut seen parent? next f ns) :
    ∀ {g : Formula} {ms : List Node}, LaidOut seen parent? next g ms → g.conjoin = f.conjoin →
      ms.map Node.closed? = ns.map Node.closed? := by
  induction h with
  | leaf hf =>
    intro g ms h' hfg
    have hclaim := Formula.assertion?_eq_of_conjoin hfg
    cases h' with
    | leaf hg =>
      rw [hg, hf] at hclaim
      obtain rfl := Option.some.inj hclaim
      rfl
    | branch => rw [hf] at hclaim; cases hclaim
  | @branch seen parent? next op disjunctive a b left right _ ha hb iha ihb =>
    intro g ms h' hfg
    cases h' with
    | leaf hg => rw [Formula.assertion?_eq_of_conjoin hfg] at hg; cases hg
    | @branch _ _ _ op' disjunctive' a' b' left' right' _ ha' hb' =>
      simp only [Formula.conjoin, Formula.bin.injEq] at hfg
      obtain ⟨-, hfa, hfb⟩ := hfg
      have hleft := iha ha' hfa
      have hlength : left'.length = left.length := by
        simpa using congrArg List.length hleft
      rw [Formula.assertion?_eq_of_conjoin hfa, hlength] at hb'
      rw [List.map_cons, List.map_cons, List.map_append, List.map_append, hleft, ihb hb' hfb]
      rfl

/-! ### The marks of a tableau -/

namespace NodeTable

theorem exists_assertion?_of_closed? {t : NodeTable} {id : Nat} {closed : Bool}
    (h : t.closed? id = some closed) : ∃ claim, t.assertion? id = some claim := by
  obtain ⟨⟨text, parent?, content⟩, hn, hclosed⟩ := Option.bind_eq_some_iff.mp h
  cases content with
  | leaf claim closed => exact ⟨claim, by rw [assertion?, hn]; rfl⟩
  | branch => simp [Node.closed?] at hclosed

/-- The marks of a table in the order of its nodes. -/
theorem closed?_eq_join {t : NodeTable} {ns : List Node} (h : t.nodes = ns.toArray) (id : Nat) :
    t.closed? id = (ns.map Node.closed?)[id]?.join := by
  unfold closed? node?
  rw [h, List.getElem?_toArray, List.getElem?_map]
  cases ns[id]? <;> rfl

end NodeTable

namespace Tableau

/-- What is closed in the tableau of a formula: the leaves that are about a variable and see
the opposite assertion. -/
theorem closed?_eq_some {f : Formula} {t : Tableau} (h : f.tableau = .ok t) {id : Nat}
    {claim : Assertion} (hclaim : t.assertion? id = some claim) :
    ∃ closed, t.closed? id = some closed ∧
      (closed = true ↔ claim.atom.isVariable = true ∧ t.Sees id claim.complement) := by
  obtain ⟨hlinked, ns, hlaid, hnodes, hholds⟩ := Formula.exists_laidOut_of_tableau h
  have hroot : ∀ claim, claim ∈ [] ↔ t.Sees 0 claim := by
    intro claim
    have := NodeTable.not_sees_of_parent? (hlaid.parent?_root hholds) claim
    simpa using this
  have hid : id < 0 + ns.length := by
    obtain ⟨n, hn, -⟩ := Option.bind_eq_some_iff.mp hclaim
    rw [Nat.zero_add]
    simpa [NodeTable.node?, hnodes] using (Array.getElem?_eq_some_iff.mp hn).1
  exact hlaid.closed?_iff hlinked hholds hroot id (Nat.zero_le _) hid claim hclaim

/-- **Which leaves of a tableau are closed**: those that assert a variable to have a value
and are in the subtree of the second child of an ancestor whose first child asserts the
opposite.  A leaf about a truth value is never closed.  That the children of a branch are
alternatives plays no role, so that another choice of `∧` and `⋁` in the formula gives the
same marks. -/
theorem closed?_iff_sees {f : Formula} {t : Tableau} (h : f.tableau = .ok t) :
    (∀ id, t.closed? id = some true ↔
      ∃ name state, t.assertion? id = some ⟨.var name, state⟩ ∧
        t.Sees id ⟨.var name, !state⟩) ∧
    (∀ id value state, t.assertion? id = some ⟨.lit value, state⟩ →
      t.closed? id = some false) ∧
    (∀ (g : Formula) (u : Tableau), g.conjoin = f.conjoin → g.tableau = .ok u →
      ∀ id, u.closed? id = t.closed? id) := by
  refine ⟨fun id => ⟨fun hclosed => ?_, ?_⟩, ?_, ?_⟩
  · obtain ⟨⟨atom, state⟩, hclaim⟩ := NodeTable.exists_assertion?_of_closed? hclosed
    obtain ⟨closed, hmark, hiff⟩ := closed?_eq_some h hclaim
    obtain rfl := Option.some.inj (hclosed.symm.trans hmark)
    obtain ⟨hvar, hsees⟩ := hiff.mp rfl
    cases atom with
    | lit value => simp [Atom.isVariable] at hvar
    | var name => exact ⟨name, state, hclaim, hsees⟩
  · rintro ⟨name, state, hclaim, hsees⟩
    obtain ⟨closed, hmark, hiff⟩ := closed?_eq_some h hclaim
    rw [hmark, hiff.mpr ⟨rfl, hsees⟩]
  · intro id value state hclaim
    obtain ⟨closed, hmark, hiff⟩ := closed?_eq_some h hclaim
    have hopen : closed ≠ true := fun htrue => Bool.false_ne_true (hiff.mp htrue).1
    rw [hmark, Bool.eq_false_iff.mpr hopen]
  · intro g u hconjoin hu id
    obtain ⟨-, ns, hlaid, hnodes, -⟩ := Formula.exists_laidOut_of_tableau h
    obtain ⟨-, ms, hlaid', hnodes', -⟩ := Formula.exists_laidOut_of_tableau hu
    rw [NodeTable.closed?_eq_join hnodes', NodeTable.closed?_eq_join hnodes,
      hlaid.map_closed?_congr hlaid' hconjoin]

/-- In the tableau of `p ∧ (¬T ⋁ ¬p)` the leaf `¬p` sees `p`, so that it is closed, also
when `⋁` is replaced by `∧`.  The leaf `¬T` stays open. -/
theorem closed?_iff_sees_denial_below_branch :
    ∃ t u,
      (Formula.bin .and (.var "p") (.bin .or (.neg (.lit true)) (.neg (.var "p")))).tableau
        = .ok t ∧
      (Formula.bin .and (.var "p") (.bin .and (.neg (.lit true)) (.neg (.var "p")))).tableau
        = .ok u ∧
      t.Sees 4 ⟨.var "p", true⟩ ∧ t.closed? 4 = some true ∧ u.closed? 4 = some true ∧
      t.closed? 3 = some false := by
  obtain ⟨t, ht, hclaim, hlit, hclosed⟩ : ∃ t,
      (Formula.bin .and (.var "p") (.bin .or (.neg (.lit true)) (.neg (.var "p")))).tableau
        = .ok t ∧
      t.assertion? 4 = some ⟨.var "p", false⟩ ∧ t.assertion? 3 = some ⟨.lit true, false⟩ ∧
      t.closed? 4 = some true := ⟨_, rfl, by cbv, by cbv, by cbv⟩
  obtain ⟨u, hu⟩ : ∃ u,
      (Formula.bin .and (.var "p") (.bin .and (.neg (.lit true)) (.neg (.var "p")))).tableau
        = .ok u := ⟨_, rfl⟩
  obtain ⟨hiff, hopen, hcongr⟩ := closed?_iff_sees ht
  obtain ⟨name, state, hclaim', hsees⟩ := (hiff 4).mp hclosed
  obtain ⟨hatom, rfl⟩ : Atom.var "p" = .var name ∧ false = state :=
    Assertion.mk.inj (Option.some.inj (hclaim.symm.trans hclaim'))
  obtain rfl := Atom.var.inj hatom
  have hsame : u.closed? 4 = t.closed? 4 := hcongr _ u (by simp [Formula.conjoin]) hu 4
  exact ⟨t, u, ht, hu, hsees, hclosed, hsame.trans hclosed, hopen 3 _ _ hlit⟩

end Tableau

end Sentential
