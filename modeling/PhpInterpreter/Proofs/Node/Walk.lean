import PhpInterpreter.Node.Walk

/-!
Children of nodes, and the walk over a tree, taken apart: a node is visited before what is below it,
and that before the nodes that come after it.
-/

namespace PhpInterpreter

theorem Datum.nodes_append (items items' : List Datum) :
    nodes (items ++ items') = nodes items ++ nodes items' := by
  induction items with
  | nil => rfl
  | cons d items ih => cases d <;> simp [nodes, ih]

theorem Datum.nodes_map_node (ns : List Node) : nodes (ns.map .node) = ns := by
  induction ns with
  | nil => rfl
  | cons n ns ih => exact congrArg (n :: ·) ih

namespace Node

theorem walkPending_append (ms ns : List Node) :
    walkPending (ms ++ ns) = walkPending ms ++ walkPending ns := by
  fun_induction walkPending ms with
  | case1 => rfl
  | case2 m rest ih =>
    rw [List.cons_append, walkPending, ← List.append_assoc, ih]
    rfl

theorem walkPending_singleton (n : Node) : walkPending [n] = n :: walkPending n.children := by
  rw [walkPending, List.append_nil]

/-- A field that holds no node may be given another value of that sort. -/
theorem children_replace {n : Node} {name : String} {v : Scalar}
    (h : ∀ d, Assoc.get? name n.fields = some d → ∃ w, d = .scalar w) :
    (n.replace name (.scalar v)).children = n.children := by
  obtain ⟨kind, fields, line, column⟩ := n
  simp only [children, replace, Node.fields] at h ⊢
  induction fields with
  | nil => rfl
  | cons entry rest ih =>
    obtain ⟨other, d⟩ := entry
    rw [Assoc.get?] at h
    rw [Assoc.insert]
    split at h
    · rename_i heq
      obtain ⟨w, rfl⟩ := h d rfl
      rw [if_pos heq]
      rfl
    · rename_i hne
      rw [if_neg hne]
      cases d <;> simp only [childrenIn, ih h]

end Node

end PhpInterpreter
