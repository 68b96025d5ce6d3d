import Shorthand.Forest.Printer

/-!
# Forests branch by branch

A forest is listed and written branch by branch, so its listing, its size and its abbreviation follow
the structure of the list.
-/

namespace Shorthand.Forest

theorem preorder_eq_flatMap (depth : Nat) (f : Forest) :
    preorder depth f = f.flatMap (Branch.preorder depth) := by
  induction f with
  | nil => simp [preorder]
  | cons b f ih => simp [preorder, ih]

@[simp] theorem preorder_append (depth : Nat) (f g : Forest) :
    preorder depth (f ++ g) = preorder depth f ++ preorder depth g := by
  simp [preorder_eq_flatMap]

@[simp] theorem size_append (f g : Forest) : size (f ++ g) = size f + size g := by
  induction f with
  | nil => simp [size]
  | cons b f ih => simp [size, ih, Nat.add_assoc]

@[simp] theorem size_reverse (f : Forest) : size f.reverse = size f := by
  induction f with
  | nil => rfl
  | cons b f ih => simp [size, ih, Nat.add_comm]

mutual

theorem length_branch_preorder (depth : Nat) : ∀ b : Branch, (b.preorder depth).length = b.size
  | .mk node children => by
      rw [Branch.preorder, Branch.size, List.length_cons, length_preorder (depth + 1) children]

/-- A listing has an entry for each node. -/
theorem length_preorder (depth : Nat) : ∀ f : Forest, (preorder depth f).length = size f
  | [] => by simp [preorder, size]
  | b :: bs => by
      rw [preorder, size, List.length_append, length_branch_preorder depth b, length_preorder depth bs]

end

mutual

theorem map_branch_preorder (depth : Nat) : ∀ b : Branch,
    (b.preorder (depth + 1)) = (b.preorder depth).map fun e => (e.1, e.2 + 1)
  | .mk node children => by
      rw [Branch.preorder, Branch.preorder, List.map_cons, map_preorder (depth + 1) children]

/-- A listing starts at the given depth, which makes no other difference. -/
theorem map_preorder (depth : Nat) : ∀ f : Forest,
    preorder (depth + 1) f = (preorder depth f).map fun e => (e.1, e.2 + 1)
  | [] => by simp [preorder]
  | b :: bs => by
      rw [preorder, preorder, List.map_append, map_branch_preorder depth b, map_preorder depth bs]

end

/-! ### Nodes alone -/

/-- The nodes of a forest, parents before children and siblings in order. -/
def nodes (f : Forest) : List Node :=
  (preorder 0 f).map Prod.fst

@[simp] theorem nodes_nil : nodes [] = [] := by
  simp [nodes, preorder]

@[simp] theorem nodes_append (f g : Forest) : nodes (f ++ g) = nodes f ++ nodes g := by
  simp [nodes]

@[simp] theorem nodes_cons (node : Node) (children bs : Forest) :
    nodes (.mk node children :: bs) = node :: (nodes children ++ nodes bs) := by
  have hshift : (preorder 1 children).map Prod.fst = nodes children := by
    rw [map_preorder, List.map_map]
    rfl
  rw [nodes, preorder, Branch.preorder, List.cons_append, List.map_cons, List.map_append, hshift]
  rfl

theorem nodes_eq_flatMap (f : Forest) : nodes f = f.flatMap fun b => nodes [b] := by
  induction f with
  | nil => simp
  | cons b f ih =>
      rw [List.flatMap_cons, ← ih, ← nodes_append]
      rfl

@[simp] theorem mem_nodes_reverse {node : Node} {f : Forest} :
    node ∈ nodes f.reverse ↔ node ∈ nodes f := by
  rw [nodes_eq_flatMap, nodes_eq_flatMap f]
  simp only [List.mem_flatMap, List.mem_reverse]

/-- Every node of the forest has the property. -/
def Every (P : Node → Prop) (f : Forest) : Prop :=
  ∀ node ∈ nodes f, P node

section

variable {P : Node → Prop}

theorem every_mk {node : Node} {children : Forest} :
    Every P [.mk node children] ↔ P node ∧ Every P children := by
  rw [Every, nodes_cons, nodes_nil, List.append_nil, List.forall_mem_cons, Every]

theorem every_append {f g : Forest} : Every P (f ++ g) ↔ Every P f ∧ Every P g := by
  simp only [Every, nodes_append, List.forall_mem_append]

theorem every_cons {b : Branch} {bs : Forest} : Every P (b :: bs) ↔ Every P [b] ∧ Every P bs := by
  rw [← every_append]
  rfl

theorem every_flatMap {α : Type} {l : List α} {f : α → Forest} (h : ∀ a ∈ l, Every P (f a)) :
    Every P (l.flatMap f) := by
  induction l with
  | nil => simp [Every]
  | cons a l ih =>
      obtain ⟨ha, hl⟩ := List.forall_mem_cons.1 h
      rw [List.flatMap_cons, every_append]
      exact ⟨ha, ih hl⟩

theorem Every.mk {node : Node} {children : Forest} (h : Every P [.mk node children]) :
    P node ∧ Every P children :=
  every_mk.1 h

theorem Every.cons {b : Branch} {bs : Forest} (h : Every P (b :: bs)) : Every P [b] ∧ Every P bs :=
  every_cons.1 h

end

/-! ### Abbreviations -/

theorem render_element (stamps : Bool) {node : Node} (h : node.isGroup = false) (children : Forest) :
    Branch.render stamps (.mk node children) =
      if children.isEmpty then node.write stamps
      else node.write stamps ++ ">" ++ render stamps children := by
  rw [Branch.render, if_neg (by simp [h])]

theorem render_cons_cons (stamps : Bool) (b b' : Branch) (bs : Forest) :
    render stamps (b :: b' :: bs) =
      (if b.needsParens then "(" ++ b.render stamps ++ ")" else b.render stamps) ++ "+" ++
        render stamps (b' :: bs) := by
  rw [render]
  simp

end Shorthand.Forest
