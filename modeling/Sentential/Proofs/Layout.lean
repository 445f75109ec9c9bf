import Sentential.Proofs.Answers
import Sentential.Proofs.Links

/-!
# The layout of a tableau

Building a formula into a table adds one block of nodes behind those that are there: the
node of the formula, the block of its first part and the block of its second part.
The block depends on the table only through the next free number, the number of the
parent and what a scan from the parent finds.  The scan itself can be told from the
formula: the leaves of the second part find the first part if it is a single leaf, and
else what the whole formula finds.

## Main definitions

* `LaidOut seen parent? next f ns` — the block of a formula.
* `NodeTable.Holds` — a table holds a block of nodes from some number on.

## Main results

* `LaidOut.exists_block` — every node of a block is the root of a block.
* `LaidOut.links` — the links of a block stay in the block, but for that of its root.
* `LaidOut.root_mem_ancestors` — all of them lead up to its root.
* `NodeTable.exists_laidOut_of_build` — **building adds the block of a formula to a table**.
* `Formula.exists_laidOut_of_tableau` — a tableau is the block of its formula.
* `Formula.root_of_tableau` — its root is the first node.
-/

namespace Sentential

/-- `LaidOut seen parent? next f ns` says that `ns` are the nodes of the formula `f` in
preorder, if the first of them has the number `next`, hangs from `parent?` and finds the
assertions `seen` on its way up. -/
inductive LaidOut : List Assertion → Option Nat → Nat → Formula → List Node → Prop where
  /-- An atom or a negated atom is a leaf. -/
  | leaf {seen : List Assertion} {parent? : Option Nat} {next : Nat} {f : Formula}
      {claim : Assertion} (h : f.assertion? = some claim) :
      LaidOut seen parent? next f [⟨f.text, parent?, .leaf claim (claim.contradictedBy seen)⟩]
  /-- A `∧` or `⋁` is a branch with the blocks of its parts behind it.  The second part
  finds what the first one asserts. -/
  | branch {seen : List Assertion} {parent? : Option Nat} {next : Nat} {op : BinaryOp}
      {disjunctive : Bool} {a b : Formula} {left right : List Node}
      (h : op.branching? = some disjunctive) (ha : LaidOut seen (some next) (next + 1) a left)
      (hb : LaidOut (a.assertion?.toList ++ seen) (some next) (next + 1 + left.length) b right) :
      LaidOut seen parent? next (.bin op a b)
        (⟨(Formula.bin op a b).text, parent?,
          .branch disjunctive [next + 1, next + 1 + left.length]⟩ :: (left ++ right))

/-! ### Blocks of nodes in a table -/

namespace NodeTable

/-- A table holds the nodes `ns` from the number `next` on. -/
def Holds (t : NodeTable) (next : Nat) (ns : List Node) : Prop :=
  ∀ (i : Nat) (n : Node), ns[i]? = some n → t.node? (next + i) = some n

theorem holds_append_size (t : NodeTable) (ns : List Node) : (t.append ns).Holds t.size ns := by
  intro i n h
  rw [node?_append_size_add, h]

variable {t : NodeTable} {next : Nat} {n : Node} {ns ms : List Node}

theorem size_of_nodes_eq (h : t.nodes = ns.toArray) : t.size = ns.length := by
  rw [size, h, List.size_toArray]

theorem Holds.head (h : t.Holds next (n :: ns)) : t.node? next = some n := h 0 n rfl

theorem Holds.tail (h : t.Holds next (n :: ns)) : t.Holds (next + 1) ns := by
  intro i m hm
  rw [Nat.add_assoc, Nat.add_comm 1 i]
  exact h (i + 1) m hm

theorem Holds.left (h : t.Holds next (ns ++ ms)) : t.Holds next ns := by
  intro i m hm
  have hi : i < ns.length := (List.getElem?_eq_some_iff.mp hm).1
  exact h i m (by rw [List.getElem?_append_left hi, hm])

theorem Holds.right (h : t.Holds next (ns ++ ms)) : t.Holds (next + ns.length) ms := by
  intro i m hm
  rw [Nat.add_assoc]
  refine h (ns.length + i) m ?_
  rw [List.getElem?_append_right (Nat.le_add_right _ _), Nat.add_sub_cancel_left, hm]

end NodeTable

/-! ### The links of a block -/

namespace LaidOut

variable {seen : List Assertion} {parent? : Option Nat} {next : Nat} {f : Formula}
  {ns : List Node} {t : NodeTable}

theorem length_pos (h : LaidOut seen parent? next f ns) : 0 < ns.length := by
  cases h <;> simp

theorem parent?_root (h : LaidOut seen parent? next f ns) (ht : t.Holds next ns) :
    t.parent? next = parent? := by
  cases h with
  | leaf => unfold NodeTable.parent?; rw [ht.head]; rfl
  | branch => unfold NodeTable.parent?; rw [ht.head]; rfl

theorem assertion?_root (h : LaidOut seen parent? next f ns) (ht : t.Holds next ns) :
    t.assertion? next = f.assertion? := by
  cases h with
  | leaf h => unfold NodeTable.assertion?; rw [ht.head, h]; rfl
  | branch => unfold NodeTable.assertion?; rw [ht.head]; rfl

/-- **Every node of a block is the root of a block**, that of a subformula. -/
theorem exists_block (h : LaidOut seen parent? next f ns) : t.Holds next ns → ∀ id, next ≤ id →
    id < next + ns.length →
      ∃ seen' up? g ms, LaidOut seen' up? id g ms ∧ t.Holds id ms := by
  induction h with
  | @leaf seen parent? next f claim h =>
    intro ht id hge hle
    rw [List.length_singleton] at hle
    obtain rfl : id = next := Nat.le_antisymm (Nat.le_of_lt_succ hle) hge
    exact ⟨_, _, _, _, .leaf h, ht⟩
  | @branch seen parent? next op disjunctive a b left right h ha hb iha ihb =>
    intro ht id hge hle
    rw [List.length_cons, List.length_append] at hle
    rcases Nat.eq_or_lt_of_le hge with rfl | hlt
    · exact ⟨_, _, _, _, .branch h ha hb, ht⟩
    rcases Nat.lt_or_ge id (next + 1 + left.length) with hid | hid
    · exact iha ht.tail.left id hlt hid
    · exact ihb ht.tail.right id hid (by omega)

/-- **The other nodes of a block hang from earlier ones of it.** -/
theorem links (h : LaidOut seen parent? next f ns) : t.Holds next ns → ∀ id, next < id →
    id < next + ns.length → ∃ parent, t.parent? id = some parent ∧ next ≤ parent ∧ parent < id := by
  induction h with
  | leaf =>
    intro _ id hlt hle
    rw [List.length_singleton] at hle
    omega
  | @branch seen parent? next op disjunctive a b left right h ha hb iha ihb =>
    intro ht id hlt hle
    have hleft := ht.tail.left
    have hright := ht.tail.right
    rw [List.length_cons, List.length_append] at hle
    -- the node is the root of the first part, another node of it, the root of the second
    -- part, or another node of that
    rcases Nat.lt_or_ge id (next + 1 + left.length) with hid | hid
    · rcases Nat.eq_or_lt_of_le hlt with rfl | hlt
      · exact ⟨next, ha.parent?_root hleft, Nat.le_refl _, Nat.lt_succ_self _⟩
      · obtain ⟨parent, hp, hge, hplt⟩ := iha hleft id hlt hid
        exact ⟨parent, hp, by omega, hplt⟩
    · rcases Nat.eq_or_lt_of_le hid with rfl | hid
      · exact ⟨next, hb.parent?_root hright, Nat.le_refl _, by omega⟩
      · obtain ⟨parent, hp, hge, hplt⟩ := ihb hright id hid (by omega)
        exact ⟨parent, hp, by omega, hplt⟩

/-- The root of a block is above all its other nodes. -/
theorem root_mem_ancestors (h : LaidOut seen parent? next f ns) (ht : t.Holds next ns) :
    ∀ id, next < id → id < next + ns.length → next ∈ t.ancestors id := by
  intro id
  induction id using Nat.strongRecOn with
  | _ id ih =>
    intro hlt hle
    obtain ⟨parent, hp, hge, hplt⟩ := h.links ht id hlt hle
    rw [NodeTable.ancestors_eq_lineage fun p hp' => by rwa [← Option.some.inj (hp.symm.trans hp')],
      hp, NodeTable.lineage, List.mem_cons]
    rcases Nat.eq_or_lt_of_le hge with rfl | hgt
    · exact .inl rfl
    · exact .inr (ih parent hplt hgt (Nat.lt_trans hplt hle))

/-- **The children of the nodes of a block hang from these.** -/
theorem parent?_child (h : LaidOut seen parent? next f ns) (ht : t.Holds next ns) :
    ∀ id, next ≤ id → id < next + ns.length → ∀ child ∈ t.children id,
      t.parent? child = some id := by
  intro id hge hle child hc
  obtain ⟨_, _, _, _, hblock, hholds⟩ := h.exists_block ht id hge hle
  rw [NodeTable.children] at hc
  cases hblock with
  | leaf => simp [hholds.head, Node.children] at hc
  | branch _ ha hb =>
    simp only [hholds.head, Option.map_some, Option.getD_some, Node.children, List.mem_cons,
      List.not_mem_nil, or_false] at hc
    rcases hc with rfl | rfl
    · exact ha.parent?_root hholds.tail.left
    · exact hb.parent?_root hholds.tail.right

end LaidOut

/-- A block can be added below any node of a table. -/
theorem NodeTable.Linked.append {t : NodeTable} (h : t.Linked) {seen : List Assertion}
    {parent? : Option Nat} {f : Formula} {ns : List Node}
    (hlaid : LaidOut seen parent? t.size f ns)
    (hparent : ∀ parent, parent? = some parent → parent < t.size) : (t.append ns).Linked := by
  have hholds := t.holds_append_size ns
  have hsize : ∀ {id parent}, (t.append ns).parent? id = some parent → id < t.size + ns.length :=
    fun hp => by simpa using lt_size_of_parent? hp
  constructor
  · intro id parent hp
    rcases Nat.lt_trichotomy id t.size with hid | rfl | hid
    · exact h.parent_lt (by rwa [parent?_append_of_lt hid] at hp)
    · exact hparent parent (by rwa [hlaid.parent?_root hholds] at hp)
    · obtain ⟨p, hp', -, hlt⟩ := hlaid.links hholds id hid (hsize hp)
      rw [hp] at hp'
      exact (Option.some.inj hp') ▸ hlt
  · intro id child hc
    rcases Nat.lt_or_ge id t.size with hid | hid
    · have hold := h.parent?_child (by rwa [children_append_of_lt hid] at hc)
      rwa [parent?_append_of_lt (lt_size_of_parent? hold)]
    · refine hlaid.parent?_child hholds id hid ?_ child hc
      by_contra hge
      have hnode : (t.append ns).node? id = none := by
        obtain ⟨i, rfl⟩ := Nat.exists_eq_add_of_le hid
        rw [node?_append_size_add, List.getElem?_eq_none]
        omega
      simp [children, hnode] at hc

/-! ### Building -/

namespace NodeTable

/-- What a scan from a new node finds: the leaves among its children, then what a scan from
the node it hangs from has found before. -/
theorem Linked.assertedAbove_append_cons {t : NodeTable} (h : t.Linked) {n : Node} {ns : List Node}
    (hnew : (t.append (n :: ns)).Linked)
    (hparent : ∀ parent, n.parent? = some parent → parent < t.size) :
    (t.append (n :: ns)).assertedAbove (some t.size)
      = n.children.filterMap (t.append (n :: ns)).assertion? ++ t.assertedAbove n.parent? := by
  have hnode := node?_append_cons_size t n ns
  have hchildren : (t.append (n :: ns)).children t.size = n.children := by
    rw [children, hnode]
    rfl
  have hup : (t.append (n :: ns)).parent? t.size = n.parent? := by
    rw [parent?, hnode]
    rfl
  rw [hnew.assertedAbove_some, hchildren, hup, h.assertedAbove_append hparent]

/-- From a new branch a scan finds what it does from the node that the branch hangs from. -/
theorem Linked.append_branch {t : NodeTable} (h : t.Linked) {n : Node} (hn : n.children = [])
    (hparent : ∀ parent, n.parent? = some parent → parent < t.size) :
    (t.append [n]).Linked ∧
      (t.append [n]).assertedAbove (some t.size) = t.assertedAbove n.parent? := by
  have hnew := h.push hn hparent
  rw [push_eq_append] at hnew
  refine ⟨hnew, ?_⟩
  rw [h.assertedAbove_append_cons hnew hparent, hn]
  rfl

/-- When the first part is attached to the branch, a scan finds what it asserts as well. -/
theorem Linked.append_branch_left {t : NodeTable} (h : t.Linked) {n : Node} {disjunctive : Bool}
    (hn : n.content = .branch disjunctive [])
    (hparent : ∀ parent, n.parent? = some parent → parent < t.size) {seen : List Assertion}
    {a : Formula} {left : List Node} (hleft : LaidOut seen (some t.size) (t.size + 1) a left) :
    (t.append (n.attach (t.size + 1) :: left)).Linked ∧
      (t.append (n.attach (t.size + 1) :: left)).assertedAbove (some t.size)
        = a.assertion?.toList ++ t.assertedAbove n.parent? := by
  have hnil : n.children = [] := by rw [Node.children, hn]
  have hone : (n.attach (t.size + 1)).children = [t.size + 1] := by
    rw [Node.attach, hn]
    rfl
  have hsize : (t.append [n]).size = t.size + 1 := size_append t [n]
  have hholds := (t.append [n]).holds_append_size left
  rw [← hsize] at hleft
  have hnew := (h.append_branch hnil hparent).1.append hleft fun parent hp => by
    rw [← Option.some.inj hp, hsize]
    exact Nat.lt_succ_self _
  have hlinked := hnew.attach (hleft.parent?_root hholds)
  have hassertion := hleft.assertion?_root hholds
  rw [append_append, List.singleton_append, hsize] at hassertion
  rw [append_append, List.singleton_append, hsize, attach_append] at hlinked
  refine ⟨hlinked, ?_⟩
  rw [h.assertedAbove_append_cons hlinked (by rwa [Node.parent?_attach]), Node.parent?_attach, hone,
    List.filterMap_cons, ← attach_append, assertion?_attach, hassertion]
  cases a.assertion? <;> rfl

/-- **The number that is returned is the next free one**, which the node of the formula gets. -/
theorem number_of_build {f : Formula} {t t' : NodeTable} {parent? : Option Nat} {id : Nat}
    (h : t.build parent? f = .ok (t', id)) : id = t.size := by
  cases f with
  | bin op a b =>
    cases hop : op.branching? with
    | none => rw [build_of_not_branching hop] at h; cases h
    | some disjunctive =>
      rw [build_of_branching hop] at h
      obtain ⟨built, -, h⟩ := exists_of_bind_eq_ok h
      obtain ⟨built', -, h⟩ := exists_of_map_eq_ok h
      exact (Prod.mk.inj h).2.symm
  | _ =>
    simp only [build] at h
    split at h
    · exact (Prod.mk.inj (Except.ok.inj h)).2.symm
    · cases h

/-- An atom or negated atom is built into the block of a leaf, and nothing else without
binary root is built. -/
theorem exists_laidOut_of_build_of_not_isBinary {f : Formula} (hf : f.isBinary = false)
    {t t' : NodeTable} {parent? : Option Nat} {id : Nat} (h : t.build parent? f = .ok (t', id)) :
    ∃ ns, LaidOut (t.assertedAbove parent?) parent? t.size f ns ∧ t' = t.append ns := by
  cases hclaim : f.assertion? with
  | some claim =>
    rw [build_of_assertion hclaim, push_eq_append] at h
    exact ⟨_, .leaf hclaim, (Prod.mk.inj (Except.ok.inj h)).1.symm⟩
  | none =>
    cases f with
    | bin op a b => simp [Formula.isBinary, Formula.mainConnective?] at hf
    | _ => simp [build, hclaim] at h

/-- Building a branch is building its first part below the new node, and with that attached
its second part. -/
theorem exists_of_build_branching {op : BinaryOp} {disjunctive : Bool}
    (hop : op.branching? = some disjunctive) {t t' : NodeTable} {parent? : Option Nat} {id : Nat}
    {a b : Formula} (h : t.build parent? (.bin op a b) = .ok (t', id)) :
    ∃ n t₁ t₂, n = ⟨(Formula.bin op a b).text, parent?, .branch disjunctive []⟩ ∧
      (t.append [n]).build (some t.size) a = .ok (t₁, t.size + 1) ∧
      (t₁.attach t.size (t.size + 1)).build (some t.size) b = .ok (t₂, t₁.size) ∧
      t' = t₂.attach t.size t₁.size := by
  rw [build_of_branching hop, push_eq_append] at h
  obtain ⟨⟨t₁, left⟩, ha, h⟩ := exists_of_bind_eq_ok h
  obtain ⟨⟨t₂, right⟩, hb, h⟩ := exists_of_map_eq_ok h
  have hleft := number_of_build ha
  rw [size_append, List.length_singleton] at hleft
  have hright := number_of_build hb
  rw [size_attach] at hright
  subst hleft hright
  exact ⟨_, t₁, t₂, rfl, ha, hb, (Prod.mk.inj h).1.symm⟩

/-- **Building adds the block of a formula**, which finds on its way up what a scan from
the parent finds at the start. -/
theorem exists_laidOut_of_build {f : Formula} :
    ∀ {t t' : NodeTable} {parent? : Option Nat} {id : Nat},
      t.Linked → (∀ parent, parent? = some parent → parent < t.size) →
      t.build parent? f = .ok (t', id) →
      ∃ ns, LaidOut (t.assertedAbove parent?) parent? t.size f ns ∧ t' = t.append ns := by
  induction f with
  | lit value => exact fun _ _ h => exists_laidOut_of_build_of_not_isBinary rfl h
  | var name => exact fun _ _ h => exists_laidOut_of_build_of_not_isBinary rfl h
  | neg a => exact fun _ _ h => exists_laidOut_of_build_of_not_isBinary rfl h
  | bin op a b iha ihb =>
    intro t t' parent? id hlinked hparent h
    cases hop : op.branching? with
    | none => rw [build_of_not_branching hop] at h; cases h
    | some disjunctive =>
      obtain ⟨n, t₁, t₂, hn, ha, hb, rfl⟩ := exists_of_build_branching hop h
      have hcontent : n.content = .branch disjunctive [] := by rw [hn]
      have hup : n.parent? = parent? := by rw [hn]
      have hbelow : ∀ {s : NodeTable} (k : Nat), s.size = t.size + (k + 1) →
          ∀ parent, some t.size = some parent → parent < s.size := by
        intro s k hs parent hp
        rw [← Option.some.inj hp, hs]
        omega
      -- the first part is built below the new branch, where it finds what the formula does
      obtain ⟨hlinked₁, hseen₁⟩ := hlinked.append_branch (n := n)
        (by rw [Node.children, hcontent]) (by rwa [hup])
      have hsize₁ : (t.append [n]).size = t.size + 1 := size_append t [n]
      obtain ⟨left, hleft, rfl⟩ := iha hlinked₁ (hbelow 0 hsize₁) ha
      rw [hseen₁, hup, hsize₁] at hleft
      -- the second part is built when the first one is attached, and finds that as well
      obtain ⟨hlinked₂, hseen₂⟩ := hlinked.append_branch_left hcontent (by rwa [hup]) hleft
      have hsize₂ : (t.append (n.attach (t.size + 1) :: left)).size
          = t.size + (left.length + 1) := size_append t _
      rw [append_append, List.singleton_append, attach_append] at hb
      obtain ⟨right, hright, rfl⟩ := ihb hlinked₂ (hbelow _ hsize₂) hb
      rw [hseen₂, hup, hsize₂, Nat.add_left_comm, Nat.add_comm left.length] at hright
      have hroot : (n.attach (t.size + 1)).attach (t.append (n :: left)).size
          = ⟨(Formula.bin op a b).text, parent?,
              .branch disjunctive [t.size + 1, t.size + 1 + left.length]⟩ := by
        rw [hn, size_append, List.length_cons, ← Nat.add_right_comm]
        rfl
      refine ⟨_, .branch hop hleft hright, ?_⟩
      rw [append_append, append_append, List.singleton_append, List.cons_append, attach_append,
        hroot]

end NodeTable

/-- **A tableau is the block of its formula**, in a table with good links. -/
theorem Formula.exists_laidOut_of_tableau {f : Formula} {t : Tableau} (h : f.tableau = .ok t) :
    t.Linked ∧ ∃ ns, LaidOut [] none 0 f ns ∧ t.nodes = ns.toArray ∧ t.Holds 0 ns := by
  obtain ⟨⟨nodes, root⟩, hbuild, h⟩ := exists_of_bind_eq_ok h
  obtain rfl := Except.ok.inj h
  have hroot : ∀ parent, (none : Option Nat) = some parent → parent < NodeTable.size ⟨#[]⟩ := by
    intro parent hp
    cases hp
  obtain ⟨ns, hlaid, rfl⟩ := NodeTable.exists_laidOut_of_build .empty hroot hbuild
  refine ⟨NodeTable.Linked.empty.append hlaid hroot, ns, hlaid, ?_,
    NodeTable.holds_append_size ⟨#[]⟩ ns⟩
  simp [NodeTable.append]

/-- **The root of a tableau is its first node.** -/
theorem Formula.root_of_tableau {f : Formula} {t : Tableau} (h : f.tableau = .ok t) :
    t.root = 0 := by
  obtain ⟨⟨nodes, root⟩, hbuild, h⟩ := exists_of_bind_eq_ok h
  obtain rfl := Except.ok.inj h
  exact NodeTable.number_of_build hbuild

end Sentential
