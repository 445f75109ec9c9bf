import Mathlib.Data.List.Basic
import Sentential.Proofs.Answers
import Sentential.Proofs.Closure
import Sentential.Proofs.Leaves

/-!
# What a closed leaf refutes

A closed leaf and the assertion that it contradicts hang from the same way up to the root.
If only conjunctions are on that way, a table in which the formula is true makes both of
them true, and so there is none.  Where alternatives are on the way, nothing follows.

A conjunction of assertions about variables, nested to the right, has one leaf for each of
them, which sees all that come before it.  Of two opposite assertions the second one is
closed; and if there are no two opposite ones, the values can be read off the leaves.

## Main definitions

* `Assertion.HoldsIn` — a table makes an assertion true.
* `Formula.chain` — the conjunction of assertions, nested to the right.
* `chainTable` — the values that a list of assertions asks for.

## Main results

* `LaidOut.closed?_ne_of_evaluate` — below conjunctions only, no leaf of a true formula is
  closed.
* `LaidOut.map_content_chain` — the leaves of a chain.
* `Formula.exists_complement_iff` — a chain is false everywhere if two of its assertions are
  opposite, and only then.
* `Tableau.closed_leaf_refutes` — **what a closed leaf says about the values of a formula.**
-/

namespace Sentential

/-! ### Assertions that hold -/

/-- A formula with `∧` at its root is true if both parts are. -/
theorem Formula.evaluate_conj_eq_true_iff {env : SymbolTable} {a b : Formula} :
    (conj a b).evaluate env = .ok true ↔ a.evaluate env = .ok true ∧ b.evaluate env = .ok true := by
  rw [evaluate_bin]
  rcases a.evaluate env with _ | _ | _ <;> rcases b.evaluate env with _ | _ | _ <;>
    simp [Except.bind, Except.map, BinaryOp.apply]

namespace Assertion

/-- A symbol table makes the formula of an assertion true. -/
def HoldsIn (env : SymbolTable) (a : Assertion) : Prop := a.formula.evaluate env = .ok true

theorem isNnf_formula (a : Assertion) : a.formula.isNnf = true := by
  rcases a with ⟨_ | _, _ | _⟩ <;> rfl

/-- An assertion about a variable holds in the tables that give it the asserted value. -/
theorem holdsIn_var_iff {env : SymbolTable} {name : String} {state : Bool} :
    HoldsIn env ⟨.var name, state⟩ ↔ env.lookup? name = some state := by
  cases state with
  | true =>
    show env.get name = .ok true ↔ _
    unfold SymbolTable.get
    cases env.lookup? name <;> simp
  | false =>
    show (Formula.neg (.var name)).evaluate env = .ok true ↔ _
    rw [Formula.evaluate_neg, Formula.evaluate_var]
    unfold SymbolTable.get
    cases env.lookup? name <;> simp [Except.map]

theorem complement_complement (a : Assertion) : a.complement.complement = a := by
  simp [complement]

theorem complement_ne (a : Assertion) : a ≠ a.complement := by
  intro h
  have hstate : a.state = !a.state := congrArg Assertion.state h
  simp at hstate

/-- Two opposite assertions about a variable do not hold together. -/
theorem HoldsIn.not_complement {env : SymbolTable} {a : Assertion}
    (hvar : a.atom.isVariable = true) (h : a.HoldsIn env) : ¬ a.complement.HoldsIn env := by
  obtain ⟨value | name, state⟩ := a
  · cases hvar
  · intro hnot
    have hsame := (holdsIn_var_iff.mp h).symm.trans (holdsIn_var_iff.mp hnot)
    simp at hsame

end Assertion

/-! ### Ways down through conjunctions -/

/-- **Below conjunctions only, no leaf of a true formula is closed**, if what was seen above
is true as well. -/
theorem LaidOut.closed?_ne_of_evaluate {seen : List Assertion} {parent? : Option Nat}
    {next : Nat} {f : Formula} {ns : List Node} {t : NodeTable} {env : SymbolTable}
    (h : LaidOut seen parent? next f ns) : t.Holds next ns →
    f.evaluate env = .ok true → (∀ claim ∈ seen, claim.HoldsIn env) →
      ∀ id, next ≤ id → id < next + ns.length →
        (∀ a ∈ t.ancestors id, next ≤ a → (t.node? a).any Node.isDisjunctive = false) →
          t.closed? id ≠ some true := by
  induction h with
  | @leaf seen parent? next f claim h =>
    intro ht htrue hseen id hge hle _ hclosed
    rw [List.length_singleton] at hle
    obtain rfl : id = next := Nat.le_antisymm (Nat.le_of_lt_succ hle) hge
    rw [NodeTable.closed?, ht.head] at hclosed
    obtain ⟨hvar, hmem⟩ := Assertion.contradictedBy_iff.mp (Option.some.inj hclosed)
    have hclaim : claim.HoldsIn env := by
      rw [Assertion.HoldsIn, Assertion.formula_of_assertion? h]
      exact htrue
    exact hclaim.not_complement hvar (hseen _ hmem)
  | @branch seen parent? next op disjunctive a b left right h ha hb iha ihb =>
    intro ht htrue hseen id hge hle hway
    have hleft := ht.tail.left
    have hright := ht.tail.right
    rcases Nat.eq_or_lt_of_le hge with rfl | hlt
    · rw [NodeTable.closed?, ht.head]
      simp [Node.closed?]
    -- the branch is on the way, so that it is a conjunction, and both its parts are true
    have habove := (LaidOut.branch h ha hb).root_mem_ancestors ht id hlt hle
    have hroot := hway next habove (Nat.le_refl next)
    rw [ht.head] at hroot
    obtain rfl : disjunctive = false := hroot
    obtain rfl : op = .and := by
      cases op with
      | and => rfl
      | _ => simp [BinaryOp.branching?] at h
    obtain ⟨hatrue, hbtrue⟩ := Formula.evaluate_conj_eq_true_iff.mp htrue
    rw [List.length_cons, List.length_append] at hle
    rcases Nat.lt_or_ge id (next + 1 + left.length) with hid | hid
    · exact iha hleft hatrue hseen id hlt hid fun x hx hxge => hway x hx (by omega)
    · refine ihb hright hbtrue ?_ id hid (by omega) fun x hx hxge => hway x hx (by omega)
      intro claim hmem
      rcases List.mem_append.mp hmem with hfirst | hold
      · rw [Assertion.HoldsIn, Assertion.formula_of_assertion? (Option.mem_toList.mp hfirst)]
        exact hatrue
      · exact hseen claim hold

/-! ### Chains -/

/-- The conjunction of an assertion and those behind it, nested to the right. -/
def Formula.chain : Assertion → List Assertion → Formula
  | a, [] => a.formula
  | a, b :: rest => conj a.formula (chain b rest)

namespace Formula

theorem isNnf_chain (a : Assertion) (as : List Assertion) : (chain a as).isNnf = true := by
  induction as generalizing a with
  | nil => exact a.isNnf_formula
  | cons b rest ih => rw [chain, isNnf, a.isNnf_formula, ih b, Bool.and_self]

/-- A chain is true if all its assertions hold. -/
theorem evaluate_chain_eq_true_iff {env : SymbolTable} {a : Assertion} {as : List Assertion} :
    (chain a as).evaluate env = .ok true ↔ ∀ claim ∈ a :: as, claim.HoldsIn env := by
  induction as generalizing a with
  | nil => rw [List.forall_mem_singleton]; rfl
  | cons b rest ih =>
    rw [chain, evaluate_conj_eq_true_iff, ih, List.forall_mem_cons (a := a)]
    rfl

/-- The variables of a chain are those of its assertions. -/
theorem mem_occurrences_chain {name : String} {a : Assertion} {as : List Assertion} :
    name ∈ (chain a as).occurrences ↔ ∃ claim ∈ a :: as, name ∈ claim.formula.occurrences := by
  induction as generalizing a with
  | nil => simp [chain]
  | cons b rest ih => simp only [chain, occurrences, List.mem_append, ih, List.exists_mem_cons_iff]

end Formula

namespace LaidOut

variable {seen : List Assertion} {parent? : Option Nat} {next : Nat} {ns : List Node}

/-- An assertion is a single leaf. -/
theorem eq_of_assertion {a : Assertion} (h : LaidOut seen parent? next a.formula ns) :
    ns = [⟨a.formula.text, parent?, .leaf a (a.contradictedBy seen)⟩] := by
  have hclaim := a.assertion?_formula
  generalize a.formula = f at h hclaim
  cases h with
  | leaf h =>
    obtain rfl := Option.some.inj (h.symm.trans hclaim)
    rfl
  | branch => cases hclaim

/-- **The leaves of a chain** are its assertions, each of which sees those before it. -/
theorem map_content_chain {a : Assertion} {as : List Assertion}
    (h : LaidOut seen parent? next (.chain a as) ns) :
    (ns.filter Node.isLeaf).map Node.content = (a :: as).mapIdx fun i claim =>
      .leaf claim (claim.contradictedBy (((a :: as).take i).reverse ++ seen)) := by
  induction as generalizing a seen parent? next ns with
  | nil =>
    rw [h.eq_of_assertion]
    rfl
  | cons b rest ih =>
    rw [Formula.chain] at h
    cases h with
    | leaf h => cases h
    | branch _ ha hb =>
      rw [a.assertion?_formula] at hb
      rw [ha.eq_of_assertion, List.filter_cons_of_neg Bool.false_ne_true, List.singleton_append,
        List.filter_cons_of_pos rfl, List.map_cons, ih hb, List.mapIdx_cons (a := a)]
      simp only [List.take_succ_cons, List.reverse_cons, List.append_assoc, List.singleton_append,
        Option.toList_some, List.take_zero, List.reverse_nil, List.nil_append]

end LaidOut

/-- The leaf number `i` of a chain is that of its assertion number `i`. -/
theorem Tableau.exists_getElem?_leaves_chain {a : Assertion} {as : List Assertion} {t : Tableau}
    (h : (Formula.chain a as).tableau = .ok t) :
    t.leaves.length = (a :: as).length ∧ ∀ (i : Nat) (claim : Assertion),
      (a :: as)[i]? = some claim → ∃ id, t.leaves[i]? = some id ∧ t.assertion? id = some claim ∧
        t.closed? id = some (claim.contradictedBy ((a :: as).take i).reverse) := by
  obtain ⟨-, ns, hlaid, -, hholds⟩ := Formula.exists_laidOut_of_tableau h
  have hcontents : t.leaves.map (fun id => (t.node? id).map Node.content)
      = ((a :: as).mapIdx fun i claim =>
          Node.Content.leaf claim (claim.contradictedBy ((a :: as).take i).reverse)).map some := by
    have hmap := congrArg (List.map (Option.map Node.content))
      (hlaid.map_node?_leaves hholds (Formula.root_of_tableau h))
    rw [List.map_map, List.map_map] at hmap
    have hchain := hlaid.map_content_chain
    simp only [List.append_nil] at hchain
    rw [← hchain, List.map_map]
    exact hmap
  refine ⟨by simpa using congrArg List.length hcontents, fun i claim hi => ?_⟩
  have hleaf := congrArg (·[i]?) hcontents
  simp only [List.getElem?_map, List.getElem?_mapIdx, hi, Option.map_some] at hleaf
  obtain ⟨id, hid, hcontent⟩ := Option.map_eq_some_iff.mp hleaf
  obtain ⟨⟨text, parent?, content⟩, hnode, rfl⟩ := Option.map_eq_some_iff.mp hcontent
  exact ⟨id, hid, by rw [NodeTable.assertion?, hnode]; rfl,
    by rw [NodeTable.closed?, hnode]; rfl⟩

/-! ### The values that a chain asks for -/

/-- The table that gives each variable of `names` the value true if that is asserted, and else
the value false. -/
def chainTable (names : List String) (claims : List Assertion) : SymbolTable :=
  ⟨names.map fun name => (name, decide (⟨.var name, true⟩ ∈ claims))⟩

theorem lookup?_chainTable {names : List String} {claims : List Assertion} {name : String}
    (h : name ∈ names) :
    (chainTable names claims).lookup? name = some (decide (⟨.var name, true⟩ ∈ claims)) :=
  List.lookup_graph _ h

theorem names_chainTable (names : List String) (claims : List Assertion) :
    (chainTable names claims).names = names := by
  simp [chainTable, SymbolTable.names, Function.comp_def]

namespace Formula

variable {a : Assertion} {as : List Assertion}

/-- If no two assertions about variables are opposite, all of them hold in the table that is
read off them. -/
theorem evaluate_chainTable (hvar : ∀ claim ∈ a :: as, claim.atom.isVariable = true)
    (h : ∀ claim ∈ a :: as, claim.complement ∉ a :: as) :
    (chain a as).evaluate (chainTable (chain a as).variableNames (a :: as)) = .ok true := by
  rw [evaluate_chain_eq_true_iff]
  rintro ⟨value | name, state⟩ hclaim
  · cases hvar _ hclaim
  have hname : name ∈ (chain a as).variableNames := by
    rw [mem_variableNames, mem_occurrences_chain]
    exact ⟨_, hclaim, by cases state <;> exact List.mem_singleton_self name⟩
  rw [Assertion.holdsIn_var_iff, lookup?_chainTable hname, Option.some_inj]
  cases state with
  | true => exact decide_eq_true hclaim
  | false => exact decide_eq_false (h _ hclaim)

/-- A formula that is true in no table is false in those that have its variables. -/
theorem evaluate_eq_false_of_ne_true {f : Formula} {env : SymbolTable}
    (htotal : ∀ name ∈ f.variableNames, env.contains name = true)
    (h : f.evaluate env ≠ .ok true) : f.evaluate env = .ok false := by
  obtain ⟨value, hvalue⟩ := exists_evaluate_eq_ok_iff.mpr fun name hname =>
    SymbolTable.contains_iff_mem_names.mp (htotal name hname)
  rw [hvalue] at h ⊢
  cases value with
  | true => exact absurd rfl h
  | false => rfl

/-- **A chain with two opposite assertions is false in every table that has its variables**,
and one without is true in a table that has no other variables. -/
theorem exists_complement_iff (hvar : ∀ claim ∈ a :: as, claim.atom.isVariable = true) :
    ((∃ claim ∈ a :: as, claim.complement ∈ a :: as) ↔
      ∀ env : SymbolTable, (∀ name ∈ (chain a as).variableNames, env.contains name = true) →
        (chain a as).evaluate env = .ok false) ∧
    ((∃ claim ∈ a :: as, claim.complement ∈ a :: as) ↔
      ∀ env : SymbolTable, env.names = (chain a as).variableNames →
        (chain a as).evaluate env = .ok false) := by
  have hall : (∃ claim ∈ a :: as, claim.complement ∈ a :: as) →
      ∀ env : SymbolTable, (∀ name ∈ (chain a as).variableNames, env.contains name = true) →
        (chain a as).evaluate env = .ok false := by
    rintro ⟨claim, hclaim, hcomplement⟩ env htotal
    refine evaluate_eq_false_of_ne_true htotal fun htrue => ?_
    have hholds := evaluate_chain_eq_true_iff.mp htrue
    exact (hholds _ hclaim).not_complement (hvar _ hclaim) (hholds _ hcomplement)
  have hown : (∀ env : SymbolTable,
        (∀ name ∈ (chain a as).variableNames, env.contains name = true) →
          (chain a as).evaluate env = .ok false) →
      ∀ env : SymbolTable, env.names = (chain a as).variableNames →
        (chain a as).evaluate env = .ok false := fun h env hnames =>
    h env fun name hname => SymbolTable.contains_iff_mem_names.mpr (hnames ▸ hname)
  have hread : (∀ env : SymbolTable, env.names = (chain a as).variableNames →
        (chain a as).evaluate env = .ok false) →
      ∃ claim ∈ a :: as, claim.complement ∈ a :: as := by
    intro hfalse
    by_contra hnone
    have htrue := evaluate_chainTable hvar fun claim hclaim hcomplement =>
      hnone ⟨claim, hclaim, hcomplement⟩
    rw [hfalse _ (names_chainTable _ _)] at htrue
    cases htrue
  exact ⟨⟨hall, fun h => hread (hown h)⟩, ⟨fun h => hown (hall h), hread⟩⟩

end Formula

/-! ### Closed leaves -/

/-- An assertion about a variable is contradicted by those before it, if the opposite is one
of them. -/
theorem Assertion.contradictedBy_take_iff {claims : List Assertion} {claim : Assertion} {i : Nat}
    (hvar : claim.atom.isVariable = true) :
    claim.contradictedBy (claims.take i).reverse = true ↔
      ∃ j < i, claims[j]? = some claim.complement := by
  rw [contradictedBy_iff, and_iff_right hvar, List.mem_reverse, List.mem_iff_getElem?]
  refine exists_congr fun j => ?_
  rw [List.getElem?_take]
  split <;> simp [*]

namespace Tableau

variable {a : Assertion} {as : List Assertion} {t : Tableau}

/-- A chain of assertions about variables has a closed leaf if two of them are opposite. -/
theorem exists_closed_leaf_chain_iff (hvar : ∀ claim ∈ a :: as, claim.atom.isVariable = true)
    (h : (Formula.chain a as).tableau = .ok t) :
    (∃ id ∈ t.leaves, t.closed? id = some true) ↔
      ∃ claim ∈ a :: as, claim.complement ∈ a :: as := by
  obtain ⟨hlength, hleaf⟩ := exists_getElem?_leaves_chain h
  constructor
  · rintro ⟨id, hid, hclosed⟩
    obtain ⟨i, hi⟩ := List.mem_iff_getElem?.mp hid
    have hlt : i < (a :: as).length := hlength ▸ (List.getElem?_eq_some_iff.mp hi).1
    obtain ⟨id', hi', -, hclosed'⟩ := hleaf i _ (List.getElem?_eq_getElem hlt)
    obtain rfl : id = id' := Option.some.inj (hi.symm.trans hi')
    have hmark := Option.some.inj (hclosed'.symm.trans hclosed)
    have hmem := List.getElem_mem hlt
    obtain ⟨j, -, hj⟩ := (Assertion.contradictedBy_take_iff (hvar _ hmem)).mp hmark
    exact ⟨_, hmem, List.mem_of_getElem? hj⟩
  · rintro ⟨claim, hclaim, hcomplement⟩
    -- the later of the two opposite assertions is closed
    have hlater : ∀ {i j : Nat} {claim : Assertion}, j < i → (a :: as)[i]? = some claim →
        (a :: as)[j]? = some claim.complement → ∃ id ∈ t.leaves, t.closed? id = some true := by
      intro i j claim hlt hi hj
      obtain ⟨id, hid, -, hclosed⟩ := hleaf i claim hi
      have hmark := (Assertion.contradictedBy_take_iff (hvar _ (List.mem_of_getElem? hi))).mpr
        ⟨j, hlt, hj⟩
      exact ⟨id, List.mem_of_getElem? hid, by rw [hclosed, hmark]⟩
    obtain ⟨i, hi⟩ := List.mem_iff_getElem?.mp hclaim
    obtain ⟨j, hj⟩ := List.mem_iff_getElem?.mp hcomplement
    rcases Nat.lt_trichotomy j i with hlt | rfl | hlt
    · exact hlater hlt hi hj
    · exact absurd (Option.some.inj (hi.symm.trans hj)) claim.complement_ne
    · exact hlater hlt hj (by rwa [claim.complement_complement])

/-- **What a closed leaf says about the values of a formula.**  If there are only conjunctions
on the way from the leaf up to the root, the formula is true in no table at all.  And a chain
of assertions about variables has one leaf for each of them, in their order, which is closed
exactly if the opposite comes before it; the chain is false in every table that has its
variables exactly if it has a closed leaf, where it makes no difference whether the tables
may have further variables. -/
theorem closed_leaf_refutes :
    (∀ (f : Formula) (t : Tableau), f.tableau = .ok t → ∀ id, t.closed? id = some true →
      (∀ above ∈ t.ancestors id, (t.node? above).any Node.isDisjunctive = false) →
        ∀ env : SymbolTable, f.evaluate env ≠ .ok true) ∧
    ∀ (a : Assertion) (as : List Assertion), (∀ claim ∈ a :: as, claim.atom.isVariable = true) →
      ∃ t, (Formula.chain a as).tableau = .ok t ∧ t.leaves.length = as.length + 1 ∧
        (∀ (i : Nat) (claim : Assertion), (a :: as)[i]? = some claim →
          ∃ id, t.leaves[i]? = some id ∧ t.assertion? id = some claim ∧
            (t.closed? id = some true ↔ ∃ j < i, (a :: as)[j]? = some claim.complement)) ∧
        ((∃ id ∈ t.leaves, t.closed? id = some true) ↔
          ∀ env : SymbolTable,
            (∀ name ∈ (Formula.chain a as).variableNames, env.contains name = true) →
              (Formula.chain a as).evaluate env = .ok false) ∧
        ((∃ id ∈ t.leaves, t.closed? id = some true) ↔
          ∀ env : SymbolTable, env.names = (Formula.chain a as).variableNames →
            (Formula.chain a as).evaluate env = .ok false) := by
  constructor
  · intro f t h id hclosed hway env htrue
    obtain ⟨-, ns, hlaid, hnodes, hholds⟩ := Formula.exists_laidOut_of_tableau h
    obtain ⟨n, hn, -⟩ := Option.bind_eq_some_iff.mp hclosed
    have hid : id < 0 + ns.length := by
      simpa [NodeTable.size, hnodes] using NodeTable.lt_size_of_node? hn
    exact hlaid.closed?_ne_of_evaluate hholds htrue (List.forall_mem_nil _) id (Nat.zero_le id)
      hid (fun above habove _ => hway above habove) hclosed
  · intro a as hvar
    obtain ⟨t, ht⟩ := Formula.exists_tableau_eq_ok (Formula.isNnf_chain a as)
    obtain ⟨hlength, hleaf⟩ := exists_getElem?_leaves_chain ht
    obtain ⟨htotal, hown⟩ := Formula.exists_complement_iff hvar
    have hclosed := exists_closed_leaf_chain_iff hvar ht
    refine ⟨t, ht, hlength, fun i claim hi => ?_, hclosed.trans htotal, hclosed.trans hown⟩
    obtain ⟨id, hid, hclaim, hmark⟩ := hleaf i claim hi
    refine ⟨id, hid, hclaim, ?_⟩
    rw [hmark, Option.some_inj,
      Assertion.contradictedBy_take_iff (hvar _ (List.mem_of_getElem? hi))]

/-- In `p ∧ ((q ⋁ r) ∧ ¬p)` only conjunctions are above the closed leaf `¬p`, so that it is
true in no table.  The last leaf of the chain `p ∧ (q ∧ ¬p)` is closed as well, and the chain
is false wherever `p` and `q` have values. -/
theorem closed_leaf_refutes_denial :
    (∃ t, (Formula.conj (.var "p")
        (.conj (.disj (.var "q") (.var "r")) (.neg (.var "p")))).tableau = .ok t ∧
      t.closed? 6 = some true ∧ t.ancestors 6 = [2, 0] ∧
      ∀ env : SymbolTable, (Formula.conj (.var "p")
        (.conj (.disj (.var "q") (.var "r")) (.neg (.var "p")))).evaluate env ≠ .ok true) ∧
    ∃ t, (Formula.conj (.var "p") (.conj (.var "q") (.neg (.var "p")))).tableau = .ok t ∧
      t.leaves.length = 3 ∧ (∃ id ∈ t.leaves, t.closed? id = some true) ∧
      ∀ env : SymbolTable, (∀ name ∈ ["p", "q"], env.contains name = true) →
        (Formula.conj (.var "p") (.conj (.var "q") (.neg (.var "p")))).evaluate env
          = .ok false := by
  obtain ⟨hway, hchain⟩ := closed_leaf_refutes
  constructor
  · obtain ⟨t, ht, hclosed, habove, hkinds⟩ : ∃ t, (Formula.conj (.var "p")
        (.conj (.disj (.var "q") (.var "r")) (.neg (.var "p")))).tableau = .ok t ∧
      t.closed? 6 = some true ∧ t.ancestors 6 = [2, 0] ∧
      ∀ above ∈ [2, 0], (t.node? above).any Node.isDisjunctive = false :=
        ⟨_, rfl, by cbv, by cbv, by decide⟩
    exact ⟨t, ht, hclosed, habove, hway _ t ht 6 hclosed (habove ▸ hkinds)⟩
  · obtain ⟨t, ht, hlength, hleaf, htotal, -⟩ :=
      hchain ⟨.var "p", true⟩ [⟨.var "q", true⟩, ⟨.var "p", false⟩] (by decide)
    obtain ⟨id, hid, -, hclosed⟩ := hleaf 2 ⟨.var "p", false⟩ rfl
    have hex : ∃ id ∈ t.leaves, t.closed? id = some true :=
      ⟨id, List.mem_of_getElem? hid, hclosed.mpr ⟨0, by decide, rfl⟩⟩
    exact ⟨t, ht, hlength, hex, htotal.mp hex⟩

end Tableau

end Sentential
