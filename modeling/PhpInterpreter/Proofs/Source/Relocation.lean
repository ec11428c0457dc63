import PhpInterpreter.Fault
import PhpInterpreter.Proofs.Source.Position
import PhpInterpreter.Source.Tree

/-!
Trees of moved programs. Moving all positions of an expression or a statement moves the places of
its tree and changes nothing else.
-/

namespace PhpInterpreter

variable (f : Place → Place)

mutual

/-- The node with every place moved. -/
def Node.mapPlace : Node → Node
  | .mk kind fields line column =>
    .mk kind (Node.mapPlaces fields) (f ⟨line, column⟩).line (f ⟨line, column⟩).column

def Datum.mapPlace : Datum → Datum
  | .scalar v => .scalar v
  | .list items => .list (Datum.mapPlaces items)
  | .dict members => .dict members
  | .node n => .node n.mapPlace

def Datum.mapPlaces : List Datum → List Datum
  | [] => []
  | d :: rest => d.mapPlace :: Datum.mapPlaces rest

def Node.mapPlaces : List (String × Datum) → List (String × Datum)
  | [] => []
  | (name, d) :: rest => (name, d.mapPlace) :: Node.mapPlaces rest

end

theorem Datum.mapPlaces_eq_map (ds : List Datum) :
    Datum.mapPlaces f ds = ds.map (Datum.mapPlace f) := by
  induction ds with
  | nil => rfl
  | cons d rest ih => rw [Datum.mapPlaces, ih, List.map_cons]

theorem Node.mapPlaces_eq_map (fields : List (String × Datum)) :
    Node.mapPlaces f fields = fields.map fun p => (p.1, p.2.mapPlace f) := by
  induction fields with
  | nil => rfl
  | cons p rest ih => rw [Node.mapPlaces, ih, List.map_cons]

theorem Node.mapPlaces_insert (name : String) (d : Datum) (fields : List (String × Datum)) :
    Node.mapPlaces f (Assoc.insert name d fields) =
      Assoc.insert name (d.mapPlace f) (Node.mapPlaces f fields) := by
  induction fields with
  | nil => rfl
  | cons field rest ih =>
    obtain ⟨k, v⟩ := field
    simp only [Assoc.insert, Node.mapPlaces]
    split
    · rfl
    · rw [Node.mapPlaces, ih]

theorem Node.mapPlace_replace (n : Node) (name : String) (d : Datum) :
    (n.replace name d).mapPlace f = (n.mapPlace f).replace name (d.mapPlace f) := by
  obtain ⟨kind, fields, line, column⟩ := n
  simp [Node.replace, Node.mapPlace, Node.mapPlaces_insert, Node.kind, Node.fields, Node.line,
    Node.column]

namespace Source

/-- The place of a position. -/
def Position.place (pos : Position) : Place := ⟨.scalar (.number (.int pos.line)), some pos.column⟩

def SourceError.mapPos (g : Position → Position) : SourceError → SourceError
  | unreadable (.unexpected text pos) => unreadable (.unexpected text (g pos))
  | unreadable (.unexpectedEnd pos) => unreadable (.unexpectedEnd (g pos))
  | literal fault pos => literal fault (g pos)

section

variable {f} {g : Position → Position}

/-- The result of building a tree, moved. -/
def relocate {α : Type} (g : Position → Position) (move : α → α) :
    Except SourceError α → Except SourceError α
  | .ok a => .ok (move a)
  | .error e => .error (e.mapPos g)

theorem relocate_bind {α β : Type} {move : α → α} {move' : β → β} (x : Except SourceError α)
    {k k' : α → Except SourceError β} (h : ∀ a, k' (move a) = relocate g move' (k a)) :
    (relocate g move x >>= k') = relocate g move' (x >>= k) := by
  cases x with
  | ok a => exact h a
  | error e => rfl

theorem ok_nodeAt (hf : ∀ pos : Position, f pos.place = (g pos).place) (pos : Position)
    (kind : String) {fields moved : List (String × Datum)}
    (h : moved = Node.mapPlaces f fields) :
    Except.ok (nodeAt (g pos) kind moved) =
      relocate g (Node.mapPlace f) (.ok (nodeAt pos kind fields)) := by
  have hplace := hf pos
  simp only [Position.place] at hplace
  simp [relocate, nodeAt, Node.mapPlace, hplace, h]

theorem literalText_mapPos (pos : Position) (raw : String) :
    literalText (g pos) raw = relocate g id (literalText pos raw) := by
  unfold literalText
  split
  · cases StringLiteral.decodeDouble raw <;> rfl
  · rfl

mutual

/-- The tree of a moved expression is its tree, moved. -/
theorem Expr.toNode_mapPos (hf : ∀ pos : Position, f pos.place = (g pos).place) :
    ∀ e : Expr, (e.mapPos g).toNode = relocate g (Node.mapPlace f) e.toNode
  | .variable pos _ => ok_nodeAt hf pos _ rfl
  | .number pos _ => ok_nodeAt hf pos _ rfl
  | .string pos raw => by
    rw [Expr.mapPos, Expr.toNode, Expr.toNode, literalText_mapPos]
    exact relocate_bind _ fun text => ok_nodeAt hf pos _ rfl
  | .boolean pos _ => ok_nodeAt hf pos _ rfl
  | .null pos => ok_nodeAt hf pos _ rfl
  | .array pos short entries => by
    rw [Expr.mapPos, Expr.toNode, Expr.toNode, Entry.toNodes_mapPos hf entries]
    exact relocate_bind _ fun items => ok_nodeAt hf pos _ rfl
  | .subscript pos base key => by
    rw [Expr.mapPos, Expr.toNode, Expr.toNode, Expr.toNode_mapPos hf base,
      Expr.toNode_mapPos hf key]
    refine relocate_bind _ fun b => ?_
    exact relocate_bind _ fun k => ok_nodeAt hf pos _ rfl
  | .append pos base => by
    rw [Expr.mapPos, Expr.toNode, Expr.toNode, Expr.toNode_mapPos hf base]
    exact relocate_bind _ fun b => ok_nodeAt hf pos _ rfl
  | .unary pos op operand => by
    rw [Expr.mapPos, Expr.toNode, Expr.toNode, Expr.toNode_mapPos hf operand]
    exact relocate_bind _ fun v => ok_nodeAt hf pos _ rfl
  | .binary pos op left right => by
    rw [Expr.mapPos, Expr.toNode, Expr.toNode, Expr.toNode_mapPos hf left,
      Expr.toNode_mapPos hf right]
    refine relocate_bind _ fun l => ?_
    exact relocate_bind _ fun r => ok_nodeAt hf pos _ rfl
  | .assign pos op target value => by
    rw [Expr.mapPos, Expr.toNode, Expr.toNode, Expr.toNode_mapPos hf target,
      Expr.toNode_mapPos hf value]
    refine relocate_bind _ fun l => ?_
    exact relocate_bind _ fun r => ok_nodeAt hf pos _ rfl
  | .reference pos target source => by
    rw [Expr.mapPos, Expr.toNode, Expr.toNode, Expr.toNode_mapPos hf target,
      Expr.toNode_mapPos hf source]
    refine relocate_bind _ fun l => ?_
    refine relocate_bind _ fun r => ok_nodeAt hf pos _ ?_
    simp [Node.mapPlaces, Datum.mapPlace, Node.mapPlace_replace, Datum.string, Datum.bool]

theorem Entry.toNode_mapPos (hf : ∀ pos : Position, f pos.place = (g pos).place) :
    ∀ e : Entry, (e.mapPos g).toNode = relocate g (Node.mapPlace f) e.toNode
  | .item pos value byRef => by
    rw [Entry.mapPos, Entry.toNode, Entry.toNode, Expr.toNode_mapPos hf value]
    exact relocate_bind _ fun v => ok_nodeAt hf pos _ rfl
  | .keyed pos key value byRef => by
    rw [Entry.mapPos, Entry.toNode, Entry.toNode, Expr.toNode_mapPos hf key,
      Expr.toNode_mapPos hf value]
    refine relocate_bind _ fun k => ?_
    exact relocate_bind _ fun v => ok_nodeAt hf pos _ rfl

theorem Entry.toNodes_mapPos (hf : ∀ pos : Position, f pos.place = (g pos).place) :
    ∀ entries : List Entry,
      Entry.toNodes (Entry.mapPosAll g entries) =
        relocate g (Datum.mapPlaces f) (Entry.toNodes entries)
  | [] => rfl
  | e :: rest => by
    rw [Entry.mapPosAll, Entry.toNodes, Entry.toNodes, Entry.toNode_mapPos hf e,
      Entry.toNodes_mapPos hf rest]
    refine relocate_bind _ fun n => ?_
    exact relocate_bind _ fun ns => rfl

end

theorem relocate_mapM {α : Type} {move : α → α} {build : α → Except SourceError Node}
    (h : ∀ a, build (move a) = relocate g (Node.mapPlace f) (build a)) (as : List α) :
    (as.map move).mapM build = relocate g (List.map (Node.mapPlace f)) (as.mapM build) := by
  induction as with
  | nil => rfl
  | cons a as ih =>
    rw [List.map_cons, List.mapM_cons, List.mapM_cons, h, ih]
    refine relocate_bind _ fun n => ?_
    exact relocate_bind _ fun ns => rfl

theorem mapPlaces_nodes (ns : List Node) :
    Datum.mapPlaces f (ns.map .node) = (ns.map (Node.mapPlace f)).map .node := by
  simp [Datum.mapPlaces_eq_map, Function.comp_def, Datum.mapPlace]

theorem mapPlaces_names (hf : ∀ pos : Position, f pos.place = (g pos).place) (names : List Name) :
    Datum.mapPlaces f (names.map Name.toDatum) =
      (names.map (Name.mapPos g)).map Name.toDatum := by
  rw [Datum.mapPlaces_eq_map, List.map_map, List.map_map]
  apply List.map_congr_left
  intro n _
  have hnode : Except.ok (variableNode (g n.pos) n.name) =
      relocate g (Node.mapPlace f) (.ok (variableNode n.pos n.name)) := ok_nodeAt hf n.pos _ rfl
  exact congrArg Datum.node (Except.ok.inj hnode).symm

/-- The tree of a moved statement is its tree, moved. -/
theorem Stmt.toNode_mapPos (hf : ∀ pos : Position, f pos.place = (g pos).place) (s : Stmt) :
    (s.mapPos g).toNode = relocate g (Node.mapPlace f) s.toNode := by
  cases s with
  | expression pos e =>
    rw [Stmt.mapPos, Stmt.toNode, Stmt.toNode, Expr.toNode_mapPos hf e]
    exact relocate_bind _ fun n => ok_nodeAt hf pos _ rfl
  | echo pos operands =>
    rw [Stmt.mapPos, Stmt.toNode, Stmt.toNode, relocate_mapM (Expr.toNode_mapPos hf)]
    refine relocate_bind _ fun ns => ok_nodeAt hf pos _ ?_
    simp [Node.mapPlaces, Datum.mapPlace, mapPlaces_nodes, Datum.bool]
  | global pos names =>
    refine ok_nodeAt hf pos _ ?_
    simp [Node.mapPlaces, Datum.mapPlace, mapPlaces_names hf]
  | unset pos names =>
    refine ok_nodeAt hf pos _ ?_
    simp [Node.mapPlaces, Datum.mapPlace, mapPlaces_names hf]

end

/-! ## Trees of whole programs -/

theorem exists_of_tree {text : String} {n : Node} (h : tree text = .ok n) :
    ∃ p, parse text = .ok p ∧ p.toNode = .ok n := by
  unfold tree at h
  split at h
  · cases h
  · exact ⟨_, ‹_›, h⟩

theorem Program.exists_toNode (pos? : Option Position) {statements : List Stmt} {ns : List Node}
    (h : statements.mapM Stmt.toNode = .ok ns) : ∃ n, toNode ⟨pos?, statements⟩ = .ok n := by
  cases pos? with
  | none => exact ⟨_, by rw [toNode, h]; rfl⟩
  | some pos => exact ⟨_, by rw [toNode, h]; rfl⟩

end Source

end PhpInterpreter
