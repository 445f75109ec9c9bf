import Sentential.Proofs.Escaping
import Sentential.Proofs.Numbering

/-!
# The texts of numbered trees

A formula is drawn, its evaluation tree is drawn, and the tree is printed line by line.  All three
texts have one part for each place of the formula, in the order of the places, and what is in a
part can be told from the place, its number and the subformula that stands there.  So the number
of a place means the same subformula in all of them, and the same parent.

## Main definitions

* `Formula.parentNumber?` — the number of the place that a place hangs from.
* `Formula.placesText` — a text with one part for each place.
* `Formula.nodeText`, `Formula.valuedNodeText`, `edgeText` — what is in the parts of a drawing.
* `Formula.NumberedAlike` — two drawings and the lines of text agree on the numbers.

## Main results

* `Formula.getElem?_outline_of_places` — what the outline says of a place.
* `Formula.render_drawing`, `Formula.render_drawing_evaluateTree`, `Formula.treeText_evaluateTree`
  — the three texts, told from the places.
* `Formula.numberedAlike_of_evaluateTree` — **a number means the same subformula everywhere.**
-/

namespace Sentential

open Dot

/-! ### What stands in the texts -/

/-- The edge to the node `k` of a drawing from its parent, if it has one, as a line of text. -/
def edgeText (parent? : Option Nat) (k : Nat) : String :=
  match parent? with
  | none => ""
  | some p => toString p ++ " -> " ++ toString k ++ ";\n"

namespace Formula

/-- What is shown of the root of a formula in a drawing: its connective, or the atom itself. -/
def sign : Formula → List Char
  | .lit true => ['T']
  | .lit false => ['F']
  | .var name => name.toList
  | .neg _ => ['¬']
  | .bin .and _ _ => ['∧']
  | .bin .or _ _ => ['⋁']
  | .bin .cond _ _ => ['→']
  | .bin .iff _ _ => ['↔']

/-- The node `k` of the drawing of a formula, with the root of `g`, as a line of text. -/
def nodeText (s : DrawingStyle) (k : Nat) (g : Formula) : String :=
  toString k ++ " [" ++ (if g.isAtom then "shape=" ++ s.leafShape ++ ", " else "") ++
    "label=\"" ++ String.ofList (escapePasses g.sign) ++ "\"];\n"

/-- The node `k` of the drawing of an evaluation tree, with `g` and its value, as a line of
text. -/
def valuedNodeText (s : DrawingStyle) (env : SymbolTable) (k : Nat) (g : Formula) : String :=
  toString k ++ " [shape=" ++ (if g.isAtom then s.leafShape else s.nodeShape) ++
    ", fillcolor=" ++ (if g.evaluate env = .ok true then s.trueColour else s.falseColour) ++
    ", label=\"" ++ String.ofList (escapePasses g.chars) ++
    (if g.evaluate env = .ok true then " [T]" else " [F]") ++ "\"];\n"

/-- A formula with its value as a line of text at a level. -/
def valuedText (env : SymbolTable) (level : Nat) (g : Formula) : String :=
  String.ofList (List.replicate (2 * level) ' ') ++ g.text ++
    (if g.evaluate env = .ok true then " [T]" else " [F]") ++ "\n"

/-- The number of the place that a place hangs from, which is the place without its last step. -/
def parentNumber? (f : Formula) (place : List Nat) : Option Nat :=
  if place = [] then none else some (f.places.idxOf place.dropLast)

/-- The text that has one part for each place of a formula, told from the number of the place, the
place and the subformula that stands there. -/
def placesText (f : Formula) (part : Nat → List Nat → Formula → String) : String :=
  String.join (f.places.mapIdx fun k place => (f.at? place).elim "" (part k place))

/-! ### Outlines and places -/

/-- Two texts with equal parts are equal. -/
theorem join_mapIdx_congr {α β : Type} {xs : List α} {ys : List β} {part : Nat → α → String}
    {part' : Nat → β → String} (hlength : xs.length = ys.length)
    (h : ∀ k x y, xs[k]? = some x → ys[k]? = some y → part k x = part' k y) :
    String.join (xs.mapIdx part) = String.join (ys.mapIdx part') := by
  refine congrArg String.join (List.ext_getElem (by simp [hlength]) fun k hk hk' => ?_)
  rw [List.length_mapIdx] at hk hk'
  simpa using h k xs[k] ys[k] (List.getElem?_eq_getElem hk) (List.getElem?_eq_getElem hk')

/-- The text of the places begins with the part of the root. -/
theorem exists_placesText_eq (f : Formula) (part : Nat → List Nat → Formula → String) :
    ∃ below, f.placesText part = part 0 [] f ++ below := by
  obtain ⟨rest, hplaces⟩ : ∃ rest, f.places = [] :: rest := by cases f <;> exact ⟨_, rfl⟩
  rw [placesText, hplaces, List.mapIdx_cons, String.join_cons]
  exact ⟨_, rfl⟩

/-- **What the outline of a formula says of a place.** -/
theorem getElem?_outline_of_places {f : Formula} {k : Nat} {place : List Nat}
    (h : f.places[k]? = some place) :
    ∃ g, f.at? place = some g ∧ f.outline[k]? = some ⟨place.length, f.parentNumber? place, g⟩ := by
  obtain ⟨⟨level, parent?, g⟩, he, hitem, hlevel, hparent⟩ := exists_entry_of_places h
  refine ⟨g, hitem, ?_⟩
  have hparent? : parent? = f.parentNumber? place := by
    rcases hparent with ⟨rfl, hnone⟩ | ⟨q, i, p, rfl, hp, hsome⟩
    · exact hnone
    · obtain ⟨hlt, hq⟩ := List.getElem?_eq_some_iff.mp hp
      rw [parentNumber?, if_neg (by simp), List.dropLast_concat, ← hq,
        f.nodup_places.idxOf_getElem p hlt]
      exact hsome
  rw [he, ← hparent?, ← show level = place.length from hlevel]

/-- A text told from the outline of a formula is one told from its places. -/
theorem join_outline (f : Formula) (part : Nat → Nat → Option Nat → Formula → String) :
    String.join (f.outline.mapIdx fun k e => part k e.level e.parent? e.item)
      = f.placesText fun k place g => part k place.length (f.parentNumber? place) g := by
  refine join_mapIdx_congr ?_ fun k e place he hplace => ?_
  · rw [outline, length_outlineFrom, length_places]
  · obtain ⟨g, hg, he'⟩ := getElem?_outline_of_places hplace
    obtain rfl := Option.some.inj (he.symm.trans he')
    rw [hg, Option.elim_some]

/-- So is one told from the outline of its evaluation tree, if the trees give the parts that the
subformulas give. -/
theorem join_outline_evaluateTree {env : SymbolTable} {f : Formula} {tree : EvalTree}
    (h : f.evaluateTree env = .ok tree) (treePart : Nat → Nat → Option Nat → EvalTree → String)
    (part : Nat → Nat → Option Nat → Formula → String)
    (hpart : ∀ {g u}, g.evaluateTree env = .ok u →
      ∀ k level parent?, treePart k level parent? u = part k level parent? g) :
    String.join (tree.outline.mapIdx fun k e => treePart k e.level e.parent? e.item)
      = f.placesText fun k place g => part k place.length (f.parentNumber? place) g := by
  rw [← join_outline]
  refine join_mapIdx_congr ?_ fun k e e' he he' => ?_
  · rw [length_outline_evaluateTree h, outline, length_outlineFrom]
  · obtain ⟨u, hu, htree⟩ := exists_entry_evaluateTree h he'
    obtain rfl := Option.some.inj (he.symm.trans hu)
    exact hpart htree k e'.level e'.parent?

/-! ### The text of a drawing -/

theorem rootLabel_eq_sign (f : Formula) : f.rootLabel = f.sign := by
  rcases f with (_ | _) | _ | _ | ⟨_ | _ | _ | _, _, _⟩ <;> rfl

theorem ofList_chars_rootStatement (s : DrawingStyle) (k : Nat) (f : Formula) :
    String.ofList (f.rootStatement s k).chars = nodeText s k f := by
  apply String.toList_injective
  unfold rootStatement nodeText
  rw [rootLabel_eq_sign, escapePasses_eq]
  split <;> simp [Statement.chars, idChars, attributeChars, shape, label, Attribute.chars,
    Value.chars, List.intercalate, *]

theorem ofList_flatMap {α : Type} (xs : List α) (chars : α → List Char) :
    String.ofList (xs.flatMap chars) = String.join (xs.map fun x => String.ofList (chars x)) := by
  apply String.toList_injective
  rw [String.toList_ofList, String.toList_join, List.flatMap_map]
  simp only [String.toList_ofList]

theorem ofList_chars_edgeFrom (parent? : Option Nat) (k : Nat) :
    String.ofList ((edgeFrom parent? k).flatMap Statement.chars) = edgeText parent? k := by
  apply String.toList_injective
  cases parent? <;> simp [edgeFrom, edgeText, Statement.chars, idChars, attributeChars]

/-- The text of a drawing: its first line, and then one part for each entry of the outline. -/
theorem render_drawn {α : Type} (first : Statement) (statement : Nat → α → Statement)
    (outline : List (OutlineEntry α)) :
    render (first :: drawn statement 0 outline) = "digraph \x7b\n" ++ String.ofList first.chars ++
      String.join (outline.mapIdx fun k e =>
        String.ofList (statement k e.item).chars ++ edgeText e.parent? k) ++ "\x7d\n" := by
  have hparts : String.ofList ((drawn statement 0 outline).flatMap Statement.chars)
      = String.join (outline.mapIdx fun k e =>
        String.ofList (statement k e.item).chars ++ edgeText e.parent? k) := by
    rw [drawn, List.flatMap_assoc, ofList_flatMap, List.mapIdx_eq_zipIdx_map]
    refine congrArg String.join (List.map_congr_left fun entry _ => ?_)
    rw [List.flatMap_cons, String.ofList_append, ofList_chars_edgeFrom]
  unfold render renderChars
  rw [List.flatMap_cons, String.ofList_append, String.ofList_append, String.ofList_append, hparts,
    String.ofList_toList, String.ofList_toList, ← String.append_assoc]

/-- **The drawing of a formula**, told from its places. -/
theorem render_drawing (s : DrawingStyle) (f : Formula) :
    render (f.drawing s) = "digraph \x7b\nnode [shape=" ++ s.nodeShape ++ "];\n" ++
      f.placesText (fun k place g => nodeText s k g ++ edgeText (f.parentNumber? place) k) ++
      "\x7d\n" := by
  have hfirst : "digraph \x7b\n" ++ String.ofList (Statement.defaults [shape s.nodeShape]).chars
      = "digraph \x7b\nnode [shape=" ++ s.nodeShape ++ "];\n" := by
    apply String.toList_injective
    simp [Statement.chars, attributeChars, shape, Attribute.chars, Value.chars, List.intercalate]
  have hparts := join_outline f fun k _ parent? g => nodeText s k g ++ edgeText parent? k
  simp only [drawing_eq_drawn, render_drawn, hfirst, ofList_chars_rootStatement, hparts]

/-- The node of an evaluation tree shows the value of the formula. -/
theorem ofList_chars_rootStatement_evaluateTree {env : SymbolTable} {g : Formula} {u : EvalTree}
    (h : g.evaluateTree env = .ok u) (s : DrawingStyle) (k : Nat) :
    String.ofList (u.rootStatement s k).chars = valuedNodeText s env k g := by
  obtain ⟨-, hvalue, -⟩ := root_of_evaluateTree h
  apply String.toList_injective
  rw [rootStatement_evaluateTree h, valuedNodeText, escapePasses_eq, hvalue]
  cases u.value <;>
    simp [Statement.chars, idChars, attributeChars, shape, fillColour, label, Attribute.chars,
      Value.chars, List.intercalate, EvalTree.valueMark, valueChar, escapeChar]

/-- **The drawing of an evaluation tree**, told from the places of the formula. -/
theorem render_drawing_evaluateTree {env : SymbolTable} {f : Formula} {tree : EvalTree}
    (h : f.evaluateTree env = .ok tree) (s : DrawingStyle) :
    render (tree.drawing s) = "digraph \x7b\nnode [shape=" ++ s.nodeShape ++ ", style=filled];\n" ++
      f.placesText (fun k place g =>
        valuedNodeText s env k g ++ edgeText (f.parentNumber? place) k) ++ "\x7d\n" := by
  have hfirst : "digraph \x7b\n"
        ++ String.ofList (Statement.defaults [shape s.nodeShape, style "filled"]).chars
      = "digraph \x7b\nnode [shape=" ++ s.nodeShape ++ ", style=filled];\n" := by
    apply String.toList_injective
    simp [Statement.chars, attributeChars, shape, style, Attribute.chars, Value.chars,
      List.intercalate]
  have hparts := join_outline_evaluateTree h
    (fun k _ parent? u => String.ofList (u.rootStatement s k).chars ++ edgeText parent? k)
    (fun k _ parent? g => valuedNodeText s env k g ++ edgeText parent? k)
    fun hu k _ _ => by rw [ofList_chars_rootStatement_evaluateTree hu]
  rw [EvalTree.drawing_eq_drawn, render_drawn, hfirst, hparts]

/-! ### The text of the lines -/

/-- **The lines that show an evaluation tree**, told from the places of the formula. -/
theorem treeText_evaluateTree {env : SymbolTable} {f : Formula} {tree : EvalTree}
    (h : f.evaluateTree env = .ok tree) :
    Report.treeText false tree
      = f.placesText fun _ place g => valuedText env place.length g := by
  have hline : ∀ {g u}, g.evaluateTree env = .ok u → ∀ level : Nat,
      Report.treeLine level u ++ "\n" = valuedText env level g := by
    intro g u hu level
    obtain ⟨htext, hvalue, -⟩ := root_of_evaluateTree hu
    apply String.toList_injective
    rw [Report.treeLine, valuedText, htext, hvalue]
    cases u.value <;> simp [indent, Report.valueText, valueChar]
  have hparts := join_outline_evaluateTree h (fun _ level _ u => Report.treeLine level u ++ "\n")
    (fun _ level _ g => valuedText env level g) fun hu _ level _ => hline hu level
  rw [← hparts]
  show String.join ((Report.treeLines tree).map (· ++ "\n")) = _
  refine congrArg String.join (List.ext_getElem? fun k => ?_)
  simp [Report.treeLines, Report.treeLine, Function.comp_def]

/-! ### Two drawings and a text -/

/-- The drawing of a formula, the drawing of its evaluation tree and the lines that show the tree
as text agree on the numbers of the subformulas. -/
structure NumberedAlike (s : DrawingStyle) (env : SymbolTable) (f : Formula) (tree : EvalTree) :
    Prop where
  /-- The places of the formula are numbered in preorder. -/
  pairwise_lt_places : f.places.Pairwise (· < ·)
  /-- They are all places at which something stands. -/
  mem_places_iff : ∀ place, place ∈ f.places ↔ (f.at? place).isSome = true
  /-- The loop that draws the formula ends after one step for each node, with the drawing. -/
  drawStack_formula : ∀ steps,
    drawStack Formula.children (fun id g => g.rootStatement s id) steps 0 [(f, none)]
      = if f.size ≤ steps then some (f.drawing s).tail else none
  /-- So does the loop that draws the tree. -/
  drawStack_tree : ∀ steps,
    drawStack EvalTree.children (fun id t => t.rootStatement s id) steps 0 [(tree, none)]
      = if f.size ≤ steps then some (tree.drawing s).tail else none
  /-- The lines of text are printed by the recursion. -/
  treeLines_eq : Report.treeLines tree = Report.linesFrom 0 tree
  /-- There are as many nodes in the first drawing as subformulas, -/
  length_nodes_formula : (nodes (f.drawing s)).length = f.size
  /-- in the second drawing, -/
  length_nodes_tree : (nodes (tree.drawing s)).length = f.size
  /-- and among the lines of text. -/
  length_treeLines : (Report.treeLines tree).length = f.size
  /-- The number of a place belongs to the subformula there: it is the number in the list of the
  subformulas, the number of the node in either drawing, where the node stands at this number
  among the nodes, and the number of the line with its text and its value, which is set in by two
  blanks for each step of the place. -/
  numbered : ∀ k place, f.places[k]? = some place → ∃ g value,
    f.at? place = some g ∧ f.subformulas[k]? = some g ∧ g.evaluate env = .ok value ∧
      (nodes (f.drawing s))[k]? = some (Statement.node k
        (if g.isAtom then [shape s.leafShape, label g.sign] else [label g.sign])) ∧
      (nodes (tree.drawing s))[k]? = some (Statement.node k [
        shape (if g.isAtom then s.leafShape else s.nodeShape),
        fillColour (if value then s.trueColour else s.falseColour),
        label (g.chars ++ [' ', '[', if value then 'T' else 'F', ']'])]) ∧
      (Report.treeLines tree)[k]? = some (String.ofList (List.replicate (2 * place.length) ' ') ++
        (g.text ++ " [" ++ (if value then "T" else "F") ++ "]"))
  /-- The drawings have the same edges. -/
  edges_tree : edges (tree.drawing s) = edges (f.drawing s)
  /-- There is one less than there are nodes. -/
  length_edges : (edges (f.drawing s)).length = f.count (fun _ => true) - 1
  /-- They lead to all nodes but the root, to each once. -/
  map_snd_edges : (edges (f.drawing s)).map Prod.snd = List.range' 1 (f.size - 1)
  /-- They lead from the place of a subformula to the same place with one step more, -/
  mem_edges_iff : ∀ p k, (p, k) ∈ edges (f.drawing s) ↔
    ∃ q i, f.places[p]? = some q ∧ f.places[k]? = some (q ++ [i])
  /-- where a child of the subformula stands. -/
  at?_child : ∀ q i, f.at? (q ++ [i]) = (f.at? q).bind (·.children[i]?)
  /-- The text of the first drawing has, for each place in turn, a line for the node with the
  number of the place and a line for the edge to it. -/
  render_formula : render (f.drawing s) = "digraph \x7b\nnode [shape=" ++ s.nodeShape ++ "];\n" ++
    f.placesText (fun k place g => nodeText s k g ++ edgeText (f.parentNumber? place) k) ++
    "\x7d\n"
  /-- So has that of the second one. -/
  render_tree : render (tree.drawing s)
    = "digraph \x7b\nnode [shape=" ++ s.nodeShape ++ ", style=filled];\n" ++
      f.placesText (fun k place g =>
        valuedNodeText s env k g ++ edgeText (f.parentNumber? place) k) ++ "\x7d\n"
  /-- The lines that are printed are those of the places in turn. -/
  treeText_eq : Report.treeText false tree
    = f.placesText fun _ place g => valuedText env place.length g

/-- **A number means the same subformula everywhere.**  For every formula that has an evaluation
tree, its drawing, the drawing of the tree and the lines that show the tree agree. -/
theorem numberedAlike_of_evaluateTree (s : DrawingStyle) {env : SymbolTable} {f : Formula}
    {tree : EvalTree} (h : f.evaluateTree env = .ok tree) : NumberedAlike s env f tree where
  pairwise_lt_places := f.pairwise_lt_places
  mem_places_iff := fun _ => mem_places
  drawStack_formula := fun steps => by
    rw [isOutline.drawStack_singleton, length_outlineFrom]
    rfl
  drawStack_tree := fun steps => by
    rw [EvalTree.isOutline.drawStack_singleton, ← EvalTree.outline, length_outline_evaluateTree h]
    rfl
  treeLines_eq := Report.treeLines_eq_linesFrom tree
  length_nodes_formula := by
    rw [length_nodes_drawing, outline, length_outlineFrom]
  length_nodes_tree := by
    rw [length_nodes_evalTree_drawing, length_outline_evaluateTree h]
  length_treeLines := by rw [Report.treeLines, List.length_map, length_outline_evaluateTree h]
  numbered := fun k place hk => by
    obtain ⟨e, he, hitem, hlevel, -⟩ := exists_entry_of_places hk
    obtain ⟨u, hu, htree⟩ := exists_entry_evaluateTree h he
    obtain ⟨htext, hvalue, -⟩ := root_of_evaluateTree htree
    refine ⟨e.item, u.value, hitem, ?_, hvalue, ?_, ?_, ?_⟩
    · rw [← f.map_item_outlineFrom 0 none 0, List.getElem?_map, ← outline, he, Option.map_some]
    · rw [getElem?_nodes_drawing, he, Option.map_some, rootStatement, rootLabel_eq_sign]
      cases e.item.isAtom <;> rfl
    · rw [getElem?_nodes_evalTree_drawing, hu, Option.map_some, rootStatement_evaluateTree htree]
      rfl
    · rw [Report.treeLines, List.getElem?_map, hu, Option.map_some, hlevel, htext]
      cases u.value <;> rfl
  edges_tree := by
    rw [edges_evalTree_drawing, edges_drawing, map_parent?_outline_evaluateTree h]
  length_edges := by
    have hlength := congrArg List.length (map_snd_edges_drawing s f)
    rwa [List.length_map, List.length_range'] at hlength
  map_snd_edges := map_snd_edges_drawing s f
  mem_edges_iff := fun _ _ => mem_edges_drawing s
  at?_child := fun q i => itemAt?_append_singleton children q i f
  render_formula := render_drawing s f
  render_tree := render_drawing_evaluateTree h s
  treeText_eq := treeText_evaluateTree h

/-- In `¬p∧¬p` the equal subformulas have different numbers.  Those of the right one are 3 and 4,
in both drawings and among the lines of text, and 3 hangs from the root. -/
theorem numberedAlike_twice :
    ∃ tree, (conj (neg (var "p")) (neg (var "p"))).evaluateTree ⟨[("p", true)]⟩ = .ok tree ∧
      (nodes ((conj (neg (var "p")) (neg (var "p"))).drawing {}))[3]?
        = some (Statement.node 3 [label ['¬']]) ∧
      (Report.treeLines tree)[4]? = some "    p [T]" ∧
      edges (tree.drawing {}) = edges ((conj (neg (var "p")) (neg (var "p"))).drawing {}) ∧
      (0, 3) ∈ edges (tree.drawing {}) ∧ (1, 3) ∉ edges (tree.drawing {}) ∧
      render ((conj (neg (var "p")) (neg (var "p"))).drawing {})
        = "digraph \x7b\nnode [shape=box];\n0 [label=\"∧\"];\n1 [label=\"¬\"];\n0 -> 1;\n" ++
          "2 [shape=ellipse, label=\"p\"];\n1 -> 2;\n3 [label=\"¬\"];\n0 -> 3;\n" ++
          "4 [shape=ellipse, label=\"p\"];\n3 -> 4;\n\x7d\n" ∧
      Report.treeText false tree
        = "(¬p∧¬p) [F]\n  ¬p [F]\n    p [T]\n  ¬p [F]\n    p [T]\n" := by
  obtain ⟨tree, htree⟩ : ∃ tree,
      (conj (neg (var "p")) (neg (var "p"))).evaluateTree ⟨[("p", true)]⟩ = .ok tree := ⟨_, rfl⟩
  have halike := numberedAlike_of_evaluateTree {} htree
  obtain ⟨g, -, hg, -, -, hnode, -, -⟩ := halike.numbered 3 [1] rfl
  obtain ⟨g', value, hg', -, hvalue, -, -, hline⟩ := halike.numbered 4 [1, 0] rfl
  obtain rfl := Option.some.inj hg
  obtain rfl := Option.some.inj hg'
  obtain rfl := Except.ok.inj hvalue
  refine ⟨tree, htree, hnode, hline, halike.edges_tree, ?_, ?_, ?_, ?_⟩
  · rw [halike.edges_tree, halike.mem_edges_iff]
    exact ⟨[], 1, rfl, rfl⟩
  · rw [halike.edges_tree, halike.mem_edges_iff]
    rintro ⟨q, i, hq, hk⟩
    obtain rfl : [0] = q := Option.some.inj hq
    have hplace : [1] = [0, i] := Option.some.inj hk
    cases hplace
  · rw [halike.render_formula]
    rfl
  · rw [halike.treeText_eq]
    rfl

end Formula

end Sentential
