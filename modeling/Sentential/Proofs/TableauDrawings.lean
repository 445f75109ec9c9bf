import Sentential.Proofs.Answers
import Sentential.Proofs.FormulaDrawings
import Sentential.Proofs.Recovery
import Sentential.Proofs.RoundTrip
import Mathlib.Data.List.Sigma

/-!
# Reading a formula off the drawing of its tableau

In a drawing of a tableau the lines of all nodes come first, in the order of their numbers, and
then those of all edges.  A leaf is labelled with its text, from which the negations in front are
dropped.  If no name begins with `¬` this leaves the atom.  Then a leaf tells its atom and the
value that is asserted, and a branch its text.  So two formulas with equal drawings have leaves in
the same places with the same assertions; and when the parts of a branch are known, so is its
connective, as it stands between them in the text.

## Main definitions

* `Formula.NamesBare` — no variable has the name of a truth value or one that begins with `¬`.
* `Tableau.links` — the pairs of a node and a child of it.
* `leafLine`, `branchLine`, `edgeLine` — the lines of a drawing.

## Main results

* `LaidOut.chars_statement` — the lines of the nodes in a block.
* `LaidOut.blockChars_inj` — a formula can be told from any text that begins with the nodes of its
  block.
* `Tableau.drawing_of_tableau` — **what is in a drawing, and that it tells the formula.**
-/

namespace Sentential

open Dot

/-! ### Names -/

namespace Formula

/-- No variable of a formula has the name of a truth value or one that begins with `¬`. -/
structure NamesBare (f : Formula) : Prop where
  /-- They are not the names of truth values. -/
  namesNoLiteral : f.NamesNoLiteral
  /-- Nor do they begin with `¬`. -/
  head?_ne : ∀ name ∈ f.variableNames, name.toList.head? ≠ some Connective.not.symbol

theorem NamesBare.left {op : BinaryOp} {a b : Formula} (h : (bin op a b).NamesBare) :
    a.NamesBare :=
  ⟨h.namesNoLiteral.left, fun name hname => h.head?_ne name (mem_variableNames_bin.mpr (.inl hname))⟩

theorem NamesBare.right {op : BinaryOp} {a b : Formula} (h : (bin op a b).NamesBare) :
    b.NamesBare :=
  ⟨h.namesNoLiteral.right,
    fun name hname => h.head?_ne name (mem_variableNames_bin.mpr (.inr hname))⟩

/-- Names that can be typed are bare. -/
theorem HasCleanNames.namesBare {f : Formula} (h : f.HasCleanNames) : f.NamesBare := by
  refine ⟨fun name hname => ?_, fun name hname hhead => ?_⟩
  · obtain ⟨⟨-, hT, hF⟩, -⟩ := isCleanName_iff.mp (h name hname)
    exact ⟨hT, hF⟩
  · obtain ⟨-, hchars⟩ := isCleanName_iff.mp (h name hname)
    have hspecial := (hchars _ (List.mem_of_mem_head? hhead)).1
    rw [isSpecial_symbol] at hspecial
    cases hspecial

end Formula

/-! ### Lines -/

/-- The line of a leaf: its atom, the value that is asserted, and a cross if it is closed. -/
def leafLine (s : DrawingStyle) (id : Nat) (claim : Assertion) (closed : Bool) : List Char :=
  Nat.toDigits 10 id ++ " [shape=".toList ++ s.leafShape.toList
    ++ (if closed then ", style=filled, fillcolor=".toList ++ s.closedColour.toList else [])
    ++ ", label=\"".toList ++ escapePasses claim.atom.formula.chars ++ " = ".toList
    ++ (if claim.state then "T".toList else "F".toList)
    ++ (if closed then " ✗".toList else []) ++ "\"];\n".toList

/-- The line of a branch: its text. -/
def branchLine (id : Nat) (text : String) : List Char :=
  Nat.toDigits 10 id ++ " [label=\"".toList ++ escapePasses text.toList ++ "\"];\n".toList

/-- The line of a node. -/
def Node.line (s : DrawingStyle) (id : Nat) (n : Node) : List Char :=
  match n.content with
  | .leaf claim closed => leafLine s id claim closed
  | .branch .. => branchLine id n.text

/-- The line of an edge, in the style of the branch that it comes from. -/
def edgeLine (s : DrawingStyle) (disjunctive : Bool) (parent child : Nat) : List Char :=
  Nat.toDigits 10 parent ++ " -> ".toList ++ Nat.toDigits 10 child ++ " [style=".toList
    ++ (if disjunctive then s.disjunctiveEdge.toList else s.conjunctiveEdge.toList)
    ++ "];\n".toList

namespace Tableau

/-- The pairs of a node and a child of it, by the numbers of the nodes and then from left to
right. -/
def links (t : Tableau) : List (Nat × Nat) :=
  t.nodes.toList.zipIdx.flatMap fun (n, id) => n.children.map (id, ·)

/-- The lines of the nodes of a tableau. -/
def nodeLines (s : DrawingStyle) (t : Tableau) : List (List Char) :=
  t.nodes.toList.zipIdx.map fun (n, id) => n.line s id

/-- The lines of the edges of a tableau. -/
def edgeLines (s : DrawingStyle) (t : Tableau) : List (List Char) :=
  t.links.map fun (parent, child) =>
    edgeLine s ((t.node? parent).any Node.isDisjunctive) parent child

/-- The text of a drawing of a tableau, told from its nodes and links. -/
def drawingChars (s : DrawingStyle) (t : Tableau) : List Char :=
  "digraph \x7b\nnode [shape=".toList ++ s.nodeShape.toList ++ "];\n".toList
    ++ (t.nodeLines s).flatten ++ (t.edgeLines s).flatten ++ "\x7d\n".toList

end Tableau

/-! ### Labels of leaves -/

/-- No atom with a bare name begins with `¬`. -/
theorem Atom.dropWhile_chars {a : Atom} (h : a.formula.NamesBare) :
    a.formula.chars.dropWhile (· == Connective.not.symbol) = a.formula.chars := by
  cases a with
  | lit value => cases value <;> rfl
  | var name =>
    have hhead := h.head?_ne name (Formula.mem_variableNames.mpr List.mem_cons_self)
    show name.toList.dropWhile _ = name.toList
    cases hname : name.toList with
    | nil => rfl
    | cons c rest =>
      rw [hname, List.head?_cons, ne_eq, Option.some.injEq] at hhead
      exact List.dropWhile_cons_of_neg (by simpa using hhead)

/-- The atom of an assertion has the names of the formula that makes it. -/
theorem Formula.NamesBare.atom {f : Formula} {claim : Assertion} (hnames : f.NamesBare)
    (h : f.assertion? = some claim) : claim.atom.formula.NamesBare := by
  obtain rfl := Assertion.formula_of_assertion? h
  obtain ⟨atom, state⟩ := claim
  cases state with
  | true => exact hnames
  | false => exact ⟨hnames.namesNoLiteral, hnames.head?_ne⟩

/-- **Dropping the negations in front of a leaf leaves its atom.** -/
theorem Formula.dropWhile_chars_of_assertion? {f : Formula} {claim : Assertion}
    (h : f.assertion? = some claim) (hnames : f.NamesBare) :
    f.chars.dropWhile (· == Connective.not.symbol) = claim.atom.formula.chars := by
  have hatom := Atom.dropWhile_chars (hnames.atom h)
  obtain rfl := Assertion.formula_of_assertion? h
  obtain ⟨atom, state⟩ := claim
  cases state with
  | true => exact hatom
  | false =>
    show (Connective.not.symbol :: atom.formula.chars).dropWhile _ = atom.formula.chars
    rw [List.dropWhile_cons_of_pos (by simp)]
    exact hatom

theorem Node.leafLabel_eq {f : Formula} {claim : Assertion} (h : f.assertion? = some claim)
    (hnames : f.NamesBare) (parent? : Option Nat) (content : Node.Content) (closed : Bool) :
    (⟨f.text, parent?, content⟩ : Node).leafLabel claim.state closed
      = claim.atom.formula.chars ++ ([' ', '=', ' ', Formula.valueChar claim.state]
          ++ if closed then [' ', '✗'] else []) := by
  rw [leafLabel, Formula.toList_text, Formula.dropWhile_chars_of_assertion? h hnames,
    List.append_assoc]

/-- An atom can be told from its text. -/
theorem Atom.eq_of_chars {a b : Atom} (ha : a.formula.NamesNoLiteral)
    (hb : b.formula.NamesNoLiteral) (h : a.formula.chars = b.formula.chars) : a = b := by
  have hatom : ∀ a : Atom, a.formula.isAtom = true ∧ a.formula.rootLabel = a.formula.chars := by
    rintro (_ | _) <;> exact ⟨rfl, rfl⟩
  have hformula : a.formula = b.formula :=
    Formula.eq_of_rootLabel_of_isAtom (hatom a).1 (hatom b).1 ha hb
      ((hatom a).2.trans (h.trans (hatom b).2.symm))
  cases a <;> cases b <;> cases hformula <;> rfl

/-- An assertion can be told from its label, up to a mark behind it. -/
theorem Assertion.eq_of_label {claim claim' : Assertion} {mark : List Char}
    (hnames : claim.atom.formula.NamesBare) (hnames' : claim'.atom.formula.NamesBare)
    (h : claim.atom.formula.chars ++ ([' ', '=', ' ', Formula.valueChar claim.state] ++ mark)
      = claim'.atom.formula.chars ++ ([' ', '=', ' ', Formula.valueChar claim'.state] ++ mark)) :
    claim = claim' := by
  obtain ⟨hatom, hstate⟩ := List.append_inj' h (by simp)
  obtain ⟨atom, state⟩ := claim
  obtain ⟨atom', state'⟩ := claim'
  obtain rfl := Atom.eq_of_chars hnames.namesNoLiteral hnames'.namesNoLiteral hatom
  cases state <;> cases state' <;> first | rfl | simp [Formula.valueChar] at hstate

/-! ### The lines of a drawing -/

/-- The line of a leaf shows its atom, whatever negations its text begins with. -/
theorem chars_statement_leaf {f : Formula} {claim : Assertion} (h : f.assertion? = some claim)
    (hnames : f.NamesBare) (s : DrawingStyle) (id : Nat) (parent? : Option Nat) (closed : Bool) :
    ((⟨f.text, parent?, .leaf claim closed⟩ : Node).statement s id).chars
      = leafLine s id claim closed := by
  have hlabel : ∀ content : Node.Content,
      escape ((⟨f.text, parent?, content⟩ : Node).leafLabel claim.state closed)
        = escapePasses claim.atom.formula.chars ++ (" = ".toList
            ++ (if claim.state then "T".toList else "F".toList)
            ++ (if closed then " ✗".toList else [])) := by
    intro content
    rw [Node.leafLabel_eq h hnames, escape_append, escapePasses_eq]
    cases claim.state <;> cases closed <;> rfl
  cases closed <;>
    simp [Node.statement, hlabel, Statement.chars, idChars, attributeChars, shape, style,
      fillColour, label, Attribute.chars, Value.chars, leafLine, List.intercalate]

theorem chars_statement_branch (s : DrawingStyle) (id : Nat) (text : String)
    (parent? : Option Nat) (disjunctive : Bool) (children : List Nat) :
    ((⟨text, parent?, .branch disjunctive children⟩ : Node).statement s id).chars
      = branchLine id text := by
  rw [branchLine, escapePasses_eq]
  simp [Node.statement, Statement.chars, idChars, attributeChars, label, Attribute.chars,
    Value.chars, List.intercalate]

theorem flatMap_chars_edges (s : DrawingStyle) (id : Nat) (n : Node) :
    (n.edges s id).flatMap Statement.chars
      = (n.children.map (edgeLine s n.isDisjunctive id)).flatten := by
  rw [Node.edges, List.flatMap_map, ← List.flatMap_def]
  refine List.flatMap_congr fun child _ => ?_
  cases n.isDisjunctive <;>
    simp [Statement.chars, idChars, attributeChars, style, Attribute.chars, Value.chars, edgeLine,
      List.intercalate]

/-- **The lines of the nodes in a block.** -/
theorem LaidOut.chars_statement {seen : List Assertion} {parent? : Option Nat} {next : Nat}
    {f : Formula} {ns : List Node} (h : LaidOut seen parent? next f ns) (hnames : f.NamesBare)
    (s : DrawingStyle) (id : Nat) : ∀ n ∈ ns, (n.statement s id).chars = n.line s id := by
  induction h with
  | leaf h =>
    intro n hn
    obtain rfl := List.mem_singleton.mp hn
    exact chars_statement_leaf h hnames s id _ _
  | branch _ _ _ iha ihb =>
    intro n hn
    rcases List.mem_cons.mp hn with rfl | hn
    · exact chars_statement_branch s id _ _ _ _
    rcases List.mem_append.mp hn with hn | hn
    · exact iha hnames.left n hn
    · exact ihb hnames.right n hn

namespace Tableau

/-- The nodes of a table with their numbers. -/
theorem mk_mem_zipIdx_iff {t : Tableau} {id : Nat} {n : Node} :
    (n, id) ∈ t.nodes.toList.zipIdx ↔ t.node? id = some n := by
  rw [List.mk_mem_zipIdx_iff_getElem?, Array.getElem?_toList]
  rfl

section Drawing

variable {f : Formula} {t : Tableau}

/-- **The text of a drawing**, told from the nodes and links. -/
theorem renderChars_drawing (h : f.tableau = .ok t) (hnames : f.NamesBare) (s : DrawingStyle) :
    renderChars (t.drawing s) = t.drawingChars s := by
  obtain ⟨-, ns, hlaid, hnodes, -⟩ := Formula.exists_laidOut_of_tableau h
  have hlist : t.nodes.toList = ns := by rw [hnodes]
  have hnodeLines : (t.nodes.toList.zipIdx.map fun (n, id) => n.statement s id).flatMap
      Statement.chars = (t.nodeLines s).flatten := by
    rw [nodeLines, List.flatMap_map, ← List.flatMap_def]
    refine List.flatMap_congr fun ⟨n, id⟩ hn => ?_
    exact hlaid.chars_statement hnames s id n (hlist ▸ List.fst_mem_of_mem_zipIdx hn)
  have hedgeLines : (t.nodes.toList.zipIdx.flatMap fun (n, id) => n.edges s id).flatMap
      Statement.chars = (t.edgeLines s).flatten := by
    rw [edgeLines, links, List.flatMap_assoc, ← List.flatMap_def, List.flatMap_assoc]
    refine List.flatMap_congr fun ⟨n, id⟩ hn => ?_
    have hnode := mk_mem_zipIdx_iff.mp hn
    show (n.edges s id).flatMap Statement.chars = (n.children.map (id, ·)).flatMap _
    rw [flatMap_chars_edges, List.flatMap_map, ← List.flatMap_def]
    simp only [hnode, Option.any_some]
  unfold renderChars drawing drawingChars
  rw [List.flatMap_cons, List.flatMap_append, hnodeLines, hedgeLines]
  simp [Statement.chars, attributeChars, shape, Attribute.chars, Value.chars, List.intercalate]

/-- The links of a table are the pairs of a node and a child of it. -/
theorem mem_links_iff {parent child : Nat} :
    (parent, child) ∈ t.links ↔ child ∈ t.children parent := by
  rw [links, NodeTable.children, List.mem_flatMap]
  constructor
  · rintro ⟨⟨n, id⟩, hn, hlink⟩
    obtain ⟨c, hc, heq⟩ := List.mem_map.mp hlink
    obtain ⟨rfl, rfl⟩ := Prod.mk.inj heq
    rwa [mk_mem_zipIdx_iff.mp hn]
  · intro hchild
    cases hn : t.node? parent with
    | none => simp [hn] at hchild
    | some n =>
      rw [hn] at hchild
      exact ⟨(n, parent), mk_mem_zipIdx_iff.mpr hn, List.mem_map_of_mem hchild⟩

/-- **The links of a tableau are the pairs of a node and the one that it hangs from.** -/
theorem mem_links_iff_parent? (h : f.tableau = .ok t) {parent child : Nat} :
    (parent, child) ∈ t.links ↔ t.parent? child = some parent := by
  obtain ⟨hlinked, -⟩ := Formula.exists_laidOut_of_tableau h
  have hwf := wellFormed_of_tableau h
  rw [mem_links_iff]
  refine ⟨hlinked.parent?_child, fun hp => ?_⟩
  have hsize := NodeTable.lt_size_of_parent? hp
  have hne : child ≠ t.root := by
    rintro rfl
    rw [(hwf.parent?_eq_none_iff _ hsize).mpr rfl] at hp
    cases hp
  obtain ⟨_, -, hp', hcount, -⟩ := hwf.parent_of_ne_root child hsize hne
  obtain rfl := Option.some.inj (hp.symm.trans hp')
  exact List.count_pos_iff.mp (by omega)

/-- No link is there twice. -/
theorem nodup_links (h : f.tableau = .ok t) : t.links.Nodup := by
  have hwf := wellFormed_of_tableau h
  refine List.nodup_flatMap.mpr ⟨fun ⟨n, id⟩ hn => ?_, ?_⟩
  · have hchildren : n.children.Nodup := by
      rcases content_of_tableau h (mk_mem_zipIdx_iff.mp hn) with
        ⟨_, _, hc⟩ | ⟨_, _, _, hc, hlt⟩
      · simp [Node.children, hc]
      · simp [Node.children, hc, Nat.ne_of_lt hlt]
    exact hchildren.map fun _ _ heq => (Prod.mk.inj heq).2
  · -- links from different nodes are different
    have hids := List.nodup_zipIdx_map_snd t.nodes.toList
    rw [List.Nodup, List.pairwise_map] at hids
    refine hids.imp fun {x y} hne link hx hy => ?_
    obtain ⟨_, -, rfl⟩ := List.mem_map.mp hx
    obtain ⟨_, -, heq⟩ := List.mem_map.mp hy
    exact hne (Prod.mk.inj heq).1.symm

end Drawing

end Tableau

/-! ### Reading the nodes -/

/-- The text of nodes that are numbered from `next` on. -/
def Node.blockChars (s : DrawingStyle) (next : Nat) (ns : List Node) : List Char :=
  (ns.zipIdx next).flatMap fun (n, id) => (n.statement s id).chars

@[simp] theorem Node.blockChars_nil (s : DrawingStyle) (next : Nat) :
    Node.blockChars s next [] = [] := rfl

@[simp] theorem Node.blockChars_cons (s : DrawingStyle) (next : Nat) (n : Node)
    (ns : List Node) :
    Node.blockChars s next (n :: ns)
      = (n.statement s next).chars ++ Node.blockChars s (next + 1) ns := rfl

theorem Node.blockChars_append (s : DrawingStyle) (next : Nat) (ns ms : List Node) :
    Node.blockChars s next (ns ++ ms)
      = Node.blockChars s next ns ++ Node.blockChars s (next + ns.length) ms := by
  rw [blockChars, List.zipIdx_append, List.flatMap_append]
  rfl

section Reading

variable {s : DrawingStyle} {id : Nat} {parent? parent?' : Option Nat} {rest rest' : List Char}

/-- **A leaf can be told from its line**, and so can the end of the line. -/
theorem chars_leaf_inj {f g : Formula} {claim claim' : Assertion} {closed closed' : Bool}
    (hf : f.assertion? = some claim) (hg : g.assertion? = some claim') (hfnames : f.NamesBare)
    (hgnames : g.NamesBare)
    (h : ((⟨f.text, parent?, .leaf claim closed⟩ : Node).statement s id).chars ++ rest
      = ((⟨g.text, parent?', .leaf claim' closed'⟩ : Node).statement s id).chars ++ rest') :
    f = g ∧ rest = rest' := by
  have hclaim : ∀ closed : Bool,
      (⟨f.text, parent?, .leaf claim closed⟩ : Node).leafLabel claim.state closed
        = (⟨g.text, parent?', .leaf claim' closed⟩ : Node).leafLabel claim'.state closed →
      f = g := by
    intro closed hlabel
    rw [Node.leafLabel_eq hf hfnames, Node.leafLabel_eq hg hgnames] at hlabel
    have heq := Assertion.eq_of_label (hfnames.atom hf) (hgnames.atom hg) hlabel
    rw [← Assertion.formula_of_assertion? hf, heq, Assertion.formula_of_assertion? hg]
  -- behind the shape a closed leaf goes on with its style, and an open one with its label
  cases closed <;> cases closed' <;> simp only [Node.statement] at h
  case true.true =>
    obtain ⟨hlabel, hrest⟩ :=
      chars_node_label_inj [shape s.leafShape, style "filled", fillColour s.closedColour] h
    exact ⟨hclaim true hlabel, hrest⟩
  case false.false =>
    obtain ⟨hlabel, hrest⟩ := chars_node_label_inj [shape s.leafShape] h
    exact ⟨hclaim false hlabel, hrest⟩
  case true.false =>
    exact absurd (head?_chars_eq_of_chars_node [shape s.leafShape] h)
      (by simp [label, style, Attribute.chars])
  case false.true =>
    exact absurd (head?_chars_eq_of_chars_node [shape s.leafShape] h)
      (by simp [label, style, Attribute.chars])

/-- The text of a branch can be told from its line, and so can the end of the line. -/
theorem chars_branch_inj {text text' : String} {disjunctive disjunctive' : Bool}
    {children children' : List Nat}
    (h : ((⟨text, parent?, .branch disjunctive children⟩ : Node).statement s id).chars ++ rest
      = ((⟨text', parent?', .branch disjunctive' children'⟩ : Node).statement s id).chars
        ++ rest') :
    text = text' ∧ rest = rest' := by
  obtain ⟨htext, hrest⟩ := chars_node_label_inj [] h
  exact ⟨String.toList_injective htext, hrest⟩

/-- The line of a leaf is not that of a branch. -/
theorem chars_leaf_ne_branch {text text' : String} {claim : Assertion} {closed disjunctive : Bool}
    {children : List Nat} :
    ((⟨text, parent?, .leaf claim closed⟩ : Node).statement s id).chars ++ rest
      ≠ ((⟨text', parent?', .branch disjunctive children⟩ : Node).statement s id).chars
        ++ rest' := by
  intro h
  cases closed <;>
    exact absurd (head?_chars_eq_of_chars_node [] h) (by simp [label, shape, Attribute.chars])

end Reading

/-- **A formula can be told from any text that begins with the nodes of its block**, and so can
the rest of the text. -/
theorem LaidOut.blockChars_inj {s : DrawingStyle} {seen : List Assertion} {parent? : Option Nat}
    {next : Nat} {f : Formula} {ns : List Node} (h : LaidOut seen parent? next f ns) :
    f.NamesBare → ∀ {seen' : List Assertion} {parent?' : Option Nat} {g : Formula}
      {ms : List Node}, LaidOut seen' parent?' next g ms → g.NamesBare →
      ∀ {rest rest' : List Char},
        Node.blockChars s next ns ++ rest = Node.blockChars s next ms ++ rest' →
        f = g ∧ rest = rest' := by
  induction h with
  | leaf hf =>
    intro hfnames seen' parent?' g ms h' hgnames rest rest' htext
    cases h' with
    | leaf hg =>
      simp only [Node.blockChars_cons, Node.blockChars_nil, List.append_nil] at htext
      exact chars_leaf_inj hf hg hfnames hgnames htext
    | branch =>
      simp only [Node.blockChars_cons, List.append_assoc, Node.blockChars_nil,
        List.nil_append] at htext
      exact absurd htext chars_leaf_ne_branch
  | @branch seen parent? next op disjunctive a b left right _ ha hb iha ihb =>
    intro hfnames seen' parent?' g ms h' hgnames rest rest' htext
    cases h' with
    | leaf =>
      simp only [Node.blockChars_cons, List.append_assoc, Node.blockChars_nil,
        List.nil_append] at htext
      exact absurd htext.symm chars_leaf_ne_branch
    | @branch _ _ _ op' disjunctive' a' b' left' right' _ ha' hb' =>
      simp only [Node.blockChars_cons, Node.blockChars_append, List.append_assoc] at htext
      obtain ⟨hlabel, hparts⟩ := chars_branch_inj htext
      obtain ⟨rfl, hsecond⟩ := iha hfnames.left ha' hgnames.left hparts
      have hlength : left'.length = left.length := by
        have hcount := ha.length_add_count
        have hcount' := ha'.length_add_count
        omega
      rw [hlength] at hsecond hb'
      obtain ⟨rfl, hend⟩ := ihb hfnames.right hb' hgnames.right hsecond
      -- the connective stands in the text, behind the first part
      have hchars := congrArg String.toList hlabel
      simp only [Formula.toList_text, Formula.chars_bin, List.cons.injEq, true_and] at hchars
      obtain rfl := BinaryOp.symbol_injective (List.cons.inj (List.append_cancel_left hchars)).1
      exact ⟨rfl, hend⟩

/-! ### Tableaux -/

namespace Tableau

/-- A formula can be told from a drawing of its tableau, in any style. -/
theorem eq_of_render_drawing {f g : Formula} {t u : Tableau} (ht : f.tableau = .ok t)
    (hu : g.tableau = .ok u) (hfnames : f.NamesBare) (hgnames : g.NamesBare) {s : DrawingStyle}
    (h : render (t.drawing s) = render (u.drawing s)) : f = g := by
  obtain ⟨-, ns, hlaid, hnodes, -⟩ := Formula.exists_laidOut_of_tableau ht
  obtain ⟨-, ms, hlaid', hnodes', -⟩ := Formula.exists_laidOut_of_tableau hu
  have hblock : ∀ ns : List Node, (ns.zipIdx.map fun (n, id) => n.statement s id).flatMap
      Statement.chars = Node.blockChars s 0 ns := fun _ => List.flatMap_map ..
  have htext := render_cons_inj h
  rw [hnodes, hnodes', List.flatMap_append, List.flatMap_append, hblock, hblock,
    List.append_assoc, List.append_assoc] at htext
  exact (hlaid.blockChars_inj hfnames hlaid' hgnames htext).1

/-- **What is in a drawing of a tableau.**  There is one line for each node, in the order of the
numbers.  That of a leaf shows its atom as it is, the value that is asserted, and a cross if it is
closed.  There is one line for each pair of a node and the one that it hangs from, in the style of
the branch.  And formulas with equal drawings are equal.  This holds of all formulas in normal form
with bare names, and the names in a formula that was read are bare. -/
theorem drawing_of_tableau :
    (∀ {limit : Nat} {text : List Char} {f : Formula}, parse limit text = .ok f → f.NamesBare) ∧
    ∀ {f : Formula}, f.isNnf = true → f.NamesBare → ∃ t, f.tableau = .ok t ∧
      (∀ s, render (t.drawing s) = String.ofList (t.drawingChars s)) ∧
      t.links.Nodup ∧
      (∀ parent child, (parent, child) ∈ t.links ↔ t.parent? child = some parent) ∧
      ∀ {g : Formula} {u : Tableau}, g.NamesBare → g.tableau = .ok u →
        ∀ s, render (t.drawing s) = render (u.drawing s) → f = g := by
  refine ⟨fun hf => (hasCleanNames_of_parse hf).namesBare, fun {f} hnnf hnames => ?_⟩
  obtain ⟨t, ht⟩ := f.exists_tableau_eq_ok hnnf
  refine ⟨t, ht, fun s => ?_, nodup_links ht, fun _ _ => mem_links_iff_parent? ht, ?_⟩
  · rw [render, renderChars_drawing ht hnames]
  · exact fun hgnames hu s h => eq_of_render_drawing ht hu hnames hgnames h

/-- Names that look like the end of a label of a closed leaf, or like a line, are not taken for
these, and the second leaf of a contradiction is marked. -/
theorem drawing_of_tableau_forged :
    let forged := "p = F ✗\"];\n3 [label=\""
    ∃ t u, (Formula.conj (.var forged) (.neg (.var forged))).tableau = .ok t ∧
      (Formula.disj (.var "") (.neg (.var "p"))).tableau = .ok u ∧
      t.closed? 2 = some true ∧ t.links = [(0, 1), (0, 2)] ∧
      render (t.drawing {}) = String.ofList (t.drawingChars {}) ∧
      render (t.drawing {}) ≠ render (u.drawing {}) := by
  intro forged
  have hforged : (Formula.conj (.var forged) (.neg (.var forged))).NamesBare := by
    constructor <;> simp [Formula.NamesNoLiteral, Formula.mem_variableNames, Formula.occurrences,
      forged, Connective.symbol]
  have hplain : (Formula.disj (.var "") (.neg (.var "p"))).NamesBare := by
    constructor <;> simp [Formula.NamesNoLiteral, Formula.mem_variableNames, Formula.occurrences,
      Connective.symbol]
  obtain ⟨t, ht, hrender, -, -, htells⟩ := drawing_of_tableau.2 rfl hforged
  obtain ⟨u, hu, -⟩ := drawing_of_tableau.2 rfl hplain
  obtain ⟨hclosed, hlinks⟩ : t.closed? 2 = some true ∧ t.links = [(0, 1), (0, 2)] := by
    cases ht
    exact ⟨by rfl, by rfl⟩
  refine ⟨t, u, ht, hu, hclosed, hlinks, hrender {}, fun h => ?_⟩
  have heq := htells hplain hu {} h
  cases heq

end Tableau

end Sentential
