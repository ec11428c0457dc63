import PhpInterpreter.Node

/-!
Walks over the nodes of a tree, each node before its children. The walk keeps the nodes still to
be visited in a list; `Node.preorder` gives the same order by recursion.
-/

namespace PhpInterpreter

/-- The nodes among the data of a list. -/
def Datum.nodes : List Datum → List Node
  | [] => []
  | .node n :: rest => n :: Datum.nodes rest
  | _ :: rest => Datum.nodes rest

/-- The nodes directly in fields, or in lists in fields, in order. -/
def Node.childrenIn : List (String × Datum) → List Node
  | [] => []
  | (_, .node n) :: rest => n :: Node.childrenIn rest
  | (_, .list items) :: rest => Datum.nodes items ++ Node.childrenIn rest
  | _ :: rest => Node.childrenIn rest

def Node.children (n : Node) : List Node := Node.childrenIn n.fields

mutual

/-- The number of nodes reached from a datum, nodes in lists of lists included. -/
def Datum.size : Datum → Nat
  | .scalar _ => 0
  | .list items => Datum.sizeItems items
  | .dict _ => 0
  | .node n => Node.size n

def Node.size : Node → Nat
  | .mk _ fields _ _ => Node.sizeFields fields + 1

def Datum.sizeItems : List Datum → Nat
  | [] => 0
  | v :: rest => Datum.size v + Datum.sizeItems rest

def Node.sizeFields : List (String × Datum) → Nat
  | [] => 0
  | (_, v) :: rest => Datum.size v + Node.sizeFields rest

end

/-- The sizes of several nodes together. -/
def Node.sizes : List Node → Nat
  | [] => 0
  | n :: rest => Node.size n + Node.sizes rest

theorem Node.sizes_append (ms ns : List Node) :
    Node.sizes (ms ++ ns) = Node.sizes ms + Node.sizes ns := by
  induction ms with
  | nil => simp [Node.sizes]
  | cons m ms ih => simp [Node.sizes, ih, Nat.add_assoc]

theorem Datum.sizes_nodes_le (items : List Datum) :
    Node.sizes (Datum.nodes items) ≤ Datum.sizeItems items := by
  induction items with
  | nil => simp [Datum.nodes, Node.sizes]
  | cons v rest ih =>
    cases v with
    | node n => simpa [Datum.nodes, Node.sizes, Datum.sizeItems, Datum.size] using ih
    | _ =>
      simp only [Datum.nodes, Datum.sizeItems]
      omega

theorem Node.sizes_childrenIn_le (fields : List (String × Datum)) :
    Node.sizes (Node.childrenIn fields) ≤ Node.sizeFields fields := by
  induction fields with
  | nil => simp [Node.childrenIn, Node.sizes]
  | cons f rest ih =>
    obtain ⟨name, v⟩ := f
    cases v with
    | scalar _ => simpa [Node.childrenIn, Node.sizeFields, Datum.size] using ih
    | dict _ => simpa [Node.childrenIn, Node.sizeFields, Datum.size] using ih
    | node n => simpa [Node.childrenIn, Node.sizes, Node.sizeFields, Datum.size] using ih
    | list items =>
      have h := Datum.sizes_nodes_le items
      simp only [Node.childrenIn, Node.sizes_append, Node.sizeFields, Datum.size]
      omega

theorem Node.sizes_children_lt (n : Node) : Node.sizes n.children < n.size := by
  obtain ⟨k, fs, l, c⟩ := n
  have h := Node.sizes_childrenIn_le fs
  simp only [Node.children, Node.fields, Node.size]
  omega

/-- Visits the first pending node and puts its children in front of the others. -/
def Node.walkPending : List Node → List Node
  | [] => []
  | n :: rest => n :: Node.walkPending (n.children ++ rest)
termination_by pending => Node.sizes pending
decreasing_by
  have h := Node.sizes_children_lt n
  simp only [Node.sizes_append, Node.sizes]
  omega

/-- All nodes of a tree, parents first. -/
def Node.walk (n : Node) : List Node := Node.walkPending [n]

/-- The first node of the walk whose kind is listed. -/
def Node.find? (n : Node) (kinds : List String) : Option Node :=
  n.walk.find? fun m => kinds.contains m.kind

mutual

/-- A node, then the walks of its children. -/
def Node.preorder : Node → List Node
  | .mk kind fields line column => .mk kind fields line column :: Node.preorderFields fields

def Node.preorderFields : List (String × Datum) → List Node
  | [] => []
  | (_, .node n) :: rest => Node.preorder n ++ Node.preorderFields rest
  | (_, .list items) :: rest => Node.preorderItems items ++ Node.preorderFields rest
  | (_, _) :: rest => Node.preorderFields rest

def Node.preorderItems : List Datum → List Node
  | [] => []
  | .node n :: rest => Node.preorder n ++ Node.preorderItems rest
  | _ :: rest => Node.preorderItems rest

end

end PhpInterpreter
