import Sentential.Diagram.Drawing
import Sentential.Proofs.Escaping
import Sentential.Proofs.Places
import Sentential.Proofs.Variables

/-!
# Reading a formula off its drawing

The drawing of a formula is a list of lines, and the names of the variables stand in it as
labels.  A name can be any text, also one with quotes, with ends of lines or with something that
looks like another line of the drawing.  But a label ends at the first quote that is not escaped,
so it can be told where the line of a node ends, and the nodes come in preorder.  So two formulas
with the same drawing have the same root, and when its line is taken off their parts are drawn
alike.

The only names that are taken for something else are those of the truth values.

## Main definitions

* `Formula.NamesNoLiteral` — no variable has the name of a truth value.
* `Formula.statements` — the lines of the nodes of a formula in a drawing.
* `Formula.nodeChars` — the text of the nodes.

## Main results

* `Dot.chars_node_label_inj` — the last label of a node can be told from its line.
* `Formula.nodeChars_inj` — a formula can be told from any text that begins with its nodes.
* `Formula.render_drawing_inj` — **different formulas are drawn differently.**
-/

namespace Sentential

namespace Dot

/-! ### Lines of nodes -/

/-- What stands in front of an attribute in the text of a list depends on the attributes before
it only. -/
theorem exists_intercalate_eq (before : List Attribute) : ∃ front : List Char,
    ∀ (a : Attribute) (after : List Attribute), ∃ back : List Char,
      List.intercalate [',', ' '] ((before ++ a :: after).map Attribute.chars)
        = front ++ (a.chars ++ back) ∧ (after = [] → back = []) := by
  induction before with
  | nil =>
    refine ⟨[], fun a after => ?_⟩
    cases after with
    | nil => exact ⟨[], by simp, fun _ => rfl⟩
    | cons b after =>
      refine ⟨[',', ' '] ++ List.intercalate [',', ' '] ((b :: after).map Attribute.chars), ?_,
        fun h => by cases h⟩
      rw [List.nil_append, List.map_cons, List.map_cons, List.intercalate_cons_cons]
      simp
  | cons p before ih =>
    obtain ⟨front, hfront⟩ := ih
    refine ⟨p.chars ++ ([',', ' '] ++ front), fun a after => ?_⟩
    obtain ⟨back, hback, hlast⟩ := hfront a after
    refine ⟨back, ?_, hlast⟩
    rw [List.cons_append, List.map_cons, List.intercalate_cons_of_ne_nil (by simp), hback]
    simp

/-- The same of the line of a node. -/
theorem exists_chars_node_eq (id : Nat) (before : List Attribute) : ∃ front : List Char,
    ∀ (a : Attribute) (after : List Attribute), ∃ back : List Char,
      (Statement.node id (before ++ a :: after)).chars = front ++ (a.chars ++ back) ∧
        (after = [] → back = [']', ';', '\n']) := by
  obtain ⟨front, hfront⟩ := exists_intercalate_eq before
  refine ⟨idChars id ++ ([' ', '['] ++ front), fun a after => ?_⟩
  obtain ⟨back, hback, hlast⟩ := hfront a after
  refine ⟨back ++ [']', ';', '\n'], ?_, fun h => by rw [hlast h]; rfl⟩
  have hne : (before ++ a :: after).isEmpty = false := by simp
  rw [Statement.chars, attributeChars, hne, hback]
  simp

/-- **The last label of a node can be told from its line**, and so can the end of the line. -/
theorem chars_node_label_inj {id : Nat} (before : List Attribute) {s s' rest rest' : List Char}
    (h : (Statement.node id (before ++ [label s])).chars ++ rest
      = (Statement.node id (before ++ [label s'])).chars ++ rest') :
    s = s' ∧ rest = rest' := by
  obtain ⟨front, hfront⟩ := exists_chars_node_eq id before
  obtain ⟨back, hline, hback⟩ := hfront (label s) []
  obtain ⟨back', hline', hback'⟩ := hfront (label s') []
  rw [hline, hline', hback rfl, hback' rfl, List.append_assoc front, List.append_assoc front] at h
  have hlabel := List.append_cancel_left h
  simp only [label, Attribute.chars, Value.chars, List.append_assoc, List.cons_append] at hlabel
  replace hlabel := List.append_cancel_left hlabel
  simp only [List.cons.injEq, true_and, List.nil_append] at hlabel
  obtain ⟨hs, hrest⟩ := escape_append_quote_inj hlabel
  exact ⟨hs, by simpa using hrest⟩

/-- Behind the same attributes, equal lines go on with the same character. -/
theorem head?_chars_eq_of_chars_node {id : Nat} (before : List Attribute) {a a' : Attribute}
    {after after' : List Attribute} {rest rest' : List Char}
    (h : (Statement.node id (before ++ a :: after)).chars ++ rest
      = (Statement.node id (before ++ a' :: after')).chars ++ rest') :
    a.chars.head? = a'.chars.head? := by
  have hhead : ∀ (a : Attribute) (back : List Char), (a.chars ++ back).head? = a.chars.head? := by
    intro a back
    cases hkey : a.key.toList <;> simp [Attribute.chars, hkey]
  obtain ⟨front, hfront⟩ := exists_chars_node_eq id before
  obtain ⟨back, hline, -⟩ := hfront a after
  obtain ⟨back', hline', -⟩ := hfront a' after'
  rw [hline, hline', List.append_assoc front, List.append_assoc front] at h
  have hsame := congrArg List.head? (List.append_cancel_left h)
  rwa [List.append_assoc, List.append_assoc, hhead, hhead] at hsame

/-! ### Texts of drawings -/

/-- Drawings that begin with the same line have the same text only if what follows it has. -/
theorem render_cons_inj {first : Statement} {lines lines' : List Statement}
    (h : render (first :: lines) = render (first :: lines')) :
    lines.flatMap Statement.chars ++ "\x7d\n".toList
      = lines'.flatMap Statement.chars ++ "\x7d\n".toList := by
  have hchars : renderChars (first :: lines) = renderChars (first :: lines') :=
    String.ofList_injective h
  unfold renderChars at hchars
  rw [List.append_assoc, List.append_assoc] at hchars
  have hlines := List.append_cancel_left hchars
  rw [List.flatMap_cons, List.flatMap_cons, List.append_assoc, List.append_assoc] at hlines
  exact List.append_cancel_left hlines

end Dot

open Dot

namespace Formula

/-! ### Roots -/

/-- No variable of a formula has the name of a truth value. -/
def NamesNoLiteral (f : Formula) : Prop := ∀ name ∈ f.variableNames, name ≠ "T" ∧ name ≠ "F"

theorem NamesNoLiteral.operand {a : Formula} (h : (neg a).NamesNoLiteral) : a.NamesNoLiteral := h

theorem NamesNoLiteral.left {op : BinaryOp} {a b : Formula} (h : (bin op a b).NamesNoLiteral) :
    a.NamesNoLiteral :=
  fun name hname => h name (mem_variableNames_bin.mpr (.inl hname))

theorem NamesNoLiteral.right {op : BinaryOp} {a b : Formula} (h : (bin op a b).NamesNoLiteral) :
    b.NamesNoLiteral :=
  fun name hname => h name (mem_variableNames_bin.mpr (.inr hname))

/-- The letter of a truth value is the name of no variable. -/
theorem NamesNoLiteral.toList_ne {name : String} (h : (var name).NamesNoLiteral) (value : Bool) :
    name.toList ≠ [valueChar value] := by
  obtain ⟨hT, hF⟩ := h name (mem_variableNames.mpr List.mem_cons_self)
  intro heq
  have hname : name = String.ofList [valueChar value] := by rw [← heq, String.ofList_toList]
  cases value with
  | true => exact hT hname
  | false => exact hF hname

/-- An atom can be told from its label. -/
theorem eq_of_rootLabel_of_isAtom {f g : Formula} (hf : f.isAtom = true) (hg : g.isAtom = true)
    (hfnames : f.NamesNoLiteral) (hgnames : g.NamesNoLiteral) (h : f.rootLabel = g.rootLabel) :
    f = g := by
  rcases isAtom_iff.mp hf with ⟨value, rfl⟩ | ⟨name, rfl⟩ <;>
    rcases isAtom_iff.mp hg with ⟨value', rfl⟩ | ⟨name', rfl⟩
  · cases value <;> cases value' <;> first | rfl | cases h
  · exact absurd h.symm (hgnames.toList_ne value)
  · exact absurd h (hfnames.toList_ne value')
  · rw [String.toList_injective h]

/-- **The kind and the label of a node can be told from its line.** -/
theorem chars_rootStatement_inj {s : DrawingStyle} {id : Nat} {f g : Formula}
    {rest rest' : List Char}
    (h : (f.rootStatement s id).chars ++ rest = (g.rootStatement s id).chars ++ rest') :
    f.isAtom = g.isAtom ∧ f.rootLabel = g.rootLabel ∧ rest = rest' := by
  unfold rootStatement at h
  cases hf : f.isAtom <;> cases hg : g.isAtom <;> simp only [hf, hg] at h
  · exact ⟨rfl, chars_node_label_inj [] h⟩
  · exact absurd (head?_chars_eq_of_chars_node [] h) (by simp [label, shape, Attribute.chars])
  · exact absurd (head?_chars_eq_of_chars_node [] h) (by simp [label, shape, Attribute.chars])
  · exact ⟨rfl, chars_node_label_inj [shape s.leafShape] h⟩

/-! ### Nodes in preorder -/

/-- The lines of the nodes of a formula, the root of which gets the number `next` and hangs from
`parent?` at a level. -/
def statements (s : DrawingStyle) (level : Nat) (parent? : Option Nat) (next : Nat)
    (f : Formula) : List Statement :=
  ((f.outlineFrom level parent? next).zipIdx next).flatMap fun (entry, id) =>
    entry.item.rootStatement s id :: edgeFrom entry.parent? id

/-- The lines of the nodes below the root, which has the number `next`. -/
def partStatements (s : DrawingStyle) (level next : Nat) : Formula → List Statement
  | .lit _ => []
  | .var _ => []
  | .neg a => a.statements s (level + 1) (some next) (next + 1)
  | .bin _ a b => a.statements s (level + 1) (some next) (next + 1)
      ++ b.statements s (level + 1) (some next) (next + 1 + a.size)

/-- **The root comes first**, then the edge to it, then what is below. -/
theorem statements_eq (s : DrawingStyle) (level : Nat) (parent? : Option Nat) (next : Nat)
    (f : Formula) :
    f.statements s level parent? next
      = f.rootStatement s next :: (edgeFrom parent? next ++ f.partStatements s level next) := by
  cases f with
  | lit value => simp [statements, outlineFrom, partStatements]
  | var name => simp [statements, outlineFrom, partStatements]
  | neg a => simp [statements, outlineFrom, partStatements]
  | bin op a b =>
    simp [statements, outlineFrom, partStatements, List.zipIdx_append, length_outlineFrom]

/-! ### Reading the nodes -/

/-- The text of the nodes of a formula. -/
def nodeChars (s : DrawingStyle) (level : Nat) (parent? : Option Nat) (next : Nat)
    (f : Formula) : List Char :=
  (f.statements s level parent? next).flatMap Statement.chars

/-- The text of the nodes below the root. -/
def partChars (s : DrawingStyle) (level next : Nat) (f : Formula) : List Char :=
  (f.partStatements s level next).flatMap Statement.chars

theorem nodeChars_eq (s : DrawingStyle) (level : Nat) (parent? : Option Nat) (next : Nat)
    (f : Formula) :
    f.nodeChars s level parent? next = (f.rootStatement s next).chars
      ++ ((edgeFrom parent? next).flatMap Statement.chars ++ f.partChars s level next) := by
  rw [nodeChars, statements_eq, List.flatMap_cons, List.flatMap_append]
  rfl

theorem partChars_neg (s : DrawingStyle) (level next : Nat) (a : Formula) :
    (neg a).partChars s level next = a.nodeChars s (level + 1) (some next) (next + 1) := rfl

theorem partChars_bin (s : DrawingStyle) (level next : Nat) (op : BinaryOp) (a b : Formula) :
    (bin op a b).partChars s level next = a.nodeChars s (level + 1) (some next) (next + 1)
      ++ b.nodeChars s (level + 1) (some next) (next + 1 + a.size) :=
  List.flatMap_append

theorem partChars_of_isAtom {f : Formula} (h : f.isAtom = true) (s : DrawingStyle)
    (level next : Nat) : f.partChars s level next = [] := by
  rcases isAtom_iff.mp h with ⟨value, rfl⟩ | ⟨name, rfl⟩ <;> rfl

/-- Negation is not labelled like a binary connective. -/
theorem rootLabel_neg_ne (a b c : Formula) (op : BinaryOp) :
    (neg a).rootLabel ≠ (bin op b c).rootLabel := by
  cases op <;> simp [rootLabel, Connective.symbol, BinaryOp.symbol]

section Reading

variable {s : DrawingStyle} {level next : Nat} {parent? : Option Nat} {f g : Formula}
  {rest rest' : List Char}

/-- The root can be told from the text of the nodes, and below equal roots the texts are equal. -/
theorem nodeChars_root
    (h : f.nodeChars s level parent? next ++ rest = g.nodeChars s level parent? next ++ rest') :
    f.isAtom = g.isAtom ∧ f.rootLabel = g.rootLabel ∧
      f.partChars s level next ++ rest = g.partChars s level next ++ rest' := by
  rw [nodeChars_eq, nodeChars_eq] at h
  simp only [List.append_assoc] at h
  obtain ⟨hatom, hlabel, hrest⟩ := chars_rootStatement_inj h
  exact ⟨hatom, hlabel, List.append_cancel_left hrest⟩

/-- An atom can be told from the text of its node. -/
theorem nodeChars_inj_of_isAtom (hf : f.isAtom = true) (hfnames : f.NamesNoLiteral)
    (hgnames : g.NamesNoLiteral)
    (h : f.nodeChars s level parent? next ++ rest = g.nodeChars s level parent? next ++ rest') :
    f = g ∧ rest = rest' := by
  obtain ⟨hatom, hlabel, hrest⟩ := nodeChars_root h
  have hg : g.isAtom = true := hatom.symm.trans hf
  rw [partChars_of_isAtom hf, partChars_of_isAtom hg] at hrest
  exact ⟨eq_of_rootLabel_of_isAtom hf hg hfnames hgnames hlabel, hrest⟩

/-- **A formula can be told from any text that begins with its nodes**, and so can the rest of
the text. -/
theorem nodeChars_inj (hfnames : f.NamesNoLiteral) (hgnames : g.NamesNoLiteral)
    (h : f.nodeChars s level parent? next ++ rest = g.nodeChars s level parent? next ++ rest') :
    f = g ∧ rest = rest' := by
  induction f generalizing g level parent? next rest rest' with
  | lit value => exact nodeChars_inj_of_isAtom rfl hfnames hgnames h
  | var name => exact nodeChars_inj_of_isAtom rfl hfnames hgnames h
  | neg a ih =>
    obtain ⟨hatom, hlabel, hrest⟩ := nodeChars_root h
    cases g with
    | lit value => cases hatom
    | var name => cases hatom
    | neg b =>
      rw [partChars_neg, partChars_neg] at hrest
      obtain ⟨rfl, hend⟩ := ih hfnames.operand hgnames.operand hrest
      exact ⟨rfl, hend⟩
    | bin op b c => exact absurd hlabel (rootLabel_neg_ne a b c op)
  | bin op a b iha ihb =>
    obtain ⟨hatom, hlabel, hrest⟩ := nodeChars_root h
    cases g with
    | lit value => cases hatom
    | var name => cases hatom
    | neg c => exact absurd hlabel.symm (rootLabel_neg_ne c a b op)
    | bin op' a' b' =>
      obtain rfl := BinaryOp.symbol_injective (List.cons.inj hlabel).1
      rw [partChars_bin, partChars_bin, List.append_assoc, List.append_assoc] at hrest
      -- the number of the second part depends on the first one
      obtain ⟨rfl, hsecond⟩ := iha hfnames.left hgnames.left hrest
      obtain ⟨rfl, hend⟩ := ihb hfnames.right hgnames.right hsecond
      exact ⟨rfl, hend⟩

end Reading

theorem drawing_eq_statements (s : DrawingStyle) (f : Formula) :
    f.drawing s = .defaults [shape s.nodeShape] :: f.statements s 0 none 0 := rfl

/-- **Different formulas are drawn differently**, in every style and whatever the names of their
variables are, but for the names of the truth values. -/
theorem render_drawing_inj (s : DrawingStyle) {f g : Formula} (hf : f.NamesNoLiteral)
    (hg : g.NamesNoLiteral) : render (f.drawing s) = render (g.drawing s) ↔ f = g := by
  refine ⟨fun h => ?_, fun h => by rw [h]⟩
  rw [drawing_eq_statements, drawing_eq_statements] at h
  exact (nodeChars_inj hf hg (render_cons_inj h)).1

/-- A name that looks like the end of a line and the beginning of the next node is not taken for
these, also when the other operand has a backslash or nothing for its name. -/
theorem render_drawing_inj_forged :
    let forged := "p\"];\n2 [shape=ellipse, label=\""
    (Formula.conj (.var forged) (.var "\\")).NamesNoLiteral ∧
      (Formula.conj (.var "p") (.var "")).NamesNoLiteral ∧
      render ((Formula.conj (.var forged) (.var "\\")).drawing {})
        ≠ render ((Formula.conj (.var "p") (.var "")).drawing {}) := by
  intro forged
  have hforged : (Formula.conj (.var forged) (.var "\\")).NamesNoLiteral := by
    simp [NamesNoLiteral, mem_variableNames, occurrences, forged]
  have hplain : (Formula.conj (.var "p") (.var "")).NamesNoLiteral := by
    simp [NamesNoLiteral, mem_variableNames, occurrences]
  refine ⟨hforged, hplain, fun h => ?_⟩
  have heq := (render_drawing_inj {} hforged hplain).mp h
  simp [forged] at heq

end Formula

end Sentential
