import PhpInterpreter.Node.Load
import PhpInterpreter.Proofs.Assoc
import PhpInterpreter.Proofs.Outcome
import PhpInterpreter.Proofs.Source.Relocation

/-!
Trees written as the objects other tools exchange, and read back. A tool is free in a few spellings
at every place of a tree; whatever it chooses, a tree of a source text is read back as it was,
positions included.
-/

namespace PhpInterpreter

/-- How a tool writes at one place of a tree. -/
structure Node.Spelling where
  /-- `byRef` for `byref`. -/
  camelCase : Bool
  /-- `false` for an absent subscript or key. -/
  absentFalse : Bool
  /-- `loc` before the fields. -/
  placeFirst : Bool

inductive Node.Turn
  | inside
  | next

/-- The spelling at every place: the way there turns inside a field or an item, or goes on to the
next one. -/
abbrev Node.Style := List Node.Turn → Node.Spelling

namespace Node.Style

def here (style : Style) : Spelling := style []

def inside (style : Style) : Style := fun way => style (.inside :: way)

def next (style : Style) : Style := fun way => style (.next :: way)

end Node.Style

namespace Node.Spelling

variable (spelling : Spelling)

def fieldName (name : String) : String :=
  if spelling.camelCase && name == "byref" then "byRef" else name

/-- What is written for a field with this value, when nothing is absent. -/
def value (name : String) (d : Datum) (written : Json) : Json :=
  if spelling.absentFalse && d.isNull && (name == "offset" || name == "key") then
    .scalar (.bool false)
  else written

/-- The member `loc`, with columns counted from zero; none for a node without position. -/
def place (line : Json) : Option Int → List (String × Json)
  | none => []
  | some column =>
    [("loc", .object [("start", .object
      [("line", line), ("column", .scalar (.number (.int (column - 1))))])])]

/-- The fields of a node with its place before or after them. -/
def around (line : Json) (column : Option Int) (fields : List (String × Json)) :
    List (String × Json) :=
  if spelling.placeFirst then place line column ++ fields else fields ++ place line column

end Node.Spelling

mutual

/-- The data as a tool writes it. -/
def Datum.encode (style : Node.Style) : Datum → Json
  | .scalar v => .scalar v
  | .list items => .list (Datum.encodeItems style items)
  | .dict members => .object members
  | .node n => n.encode style

def Node.encode (style : Node.Style) : Node → Json
  | .mk kind fields line column =>
    .object (("kind", .scalar (.string kind)) ::
      style.here.around line column (Node.encodeFields style fields))

def Datum.encodeItems (style : Node.Style) : List Datum → List Json
  | [] => []
  | d :: rest => d.encode style.inside :: Datum.encodeItems style.next rest

def Node.encodeFields (style : Node.Style) : List (String × Datum) → List (String × Json)
  | [] => []
  | (name, d) :: rest =>
    (style.here.fieldName name, style.here.value name d (d.encode style.inside)) ::
      Node.encodeFields style.next rest

end

/-! ## Trees that survive the exchange -/

/-- Whether a field of this name and value can be exchanged: its name is read as a field and as
itself, and its value is no `false` that stands for something absent. -/
@[simp] def Node.FieldPortable (name : String) (d : Datum) : Prop :=
  name ∉ Node.notFields ∧ name ≠ "byRef" ∧
    (name = "offset" ∨ name = "key" → d ≠ .bool false)

mutual

def Datum.Portable : Datum → Prop
  | .scalar _ => True
  | .list items => Datum.PortableItems items
  | .dict members => "kind" ∉ Assoc.keys members
  | .node n => n.Portable

/-- Names stand once, every field can be exchanged, and a node without a column has no line. -/
def Node.Portable : Node → Prop
  | .mk _ fields line column =>
    (Assoc.keys fields).Nodup ∧ Node.PortableFields fields ∧ (column = none → line = .null)

def Datum.PortableItems : List Datum → Prop
  | [] => True
  | d :: rest => d.Portable ∧ Datum.PortableItems rest

def Node.PortableFields : List (String × Datum) → Prop
  | [] => True
  | (name, d) :: rest =>
    (Node.FieldPortable name d ∧ d.Portable) ∧ Node.PortableFields rest

end

theorem Datum.portableItems_iff (items : List Datum) :
    Datum.PortableItems items ↔ ∀ d ∈ items, d.Portable := by
  induction items with
  | nil => simp [Datum.PortableItems]
  | cons d rest ih => simp [Datum.PortableItems, ih]

theorem Node.portableFields_iff (fields : List (String × Datum)) :
    Node.PortableFields fields ↔ ∀ p ∈ fields, Node.FieldPortable p.1 p.2 ∧ p.2.Portable := by
  induction fields with
  | nil => simp [Node.PortableFields]
  | cons p rest ih =>
    rw [Node.PortableFields, ih, List.forall_mem_cons]

/-! ## Reading back -/

namespace Node

theorem fieldName_spelling (spelling : Spelling) {name : String} {d : Datum}
    (h : FieldPortable name d) : fieldName (spelling.fieldName name) = name := by
  unfold Spelling.fieldName
  split
  · next hc => simp_all [fieldName]
  · exact if_neg h.2.1

/-- No spelling makes a field's name one that is skipped. -/
theorem spelling_notMem_notFields (spelling : Spelling) {name : String} {d : Datum}
    (h : FieldPortable name d) : spelling.fieldName name ∉ notFields := by
  unfold Spelling.fieldName
  split
  · decide
  · exact h.1

theorem isAbsent_iff {name : String} {json : Json} :
    isAbsent name json = true ↔
      json = .scalar (.bool false) ∧ (name = "offset" ∨ name = "key") := by
  unfold isAbsent
  split
  · simp
  · next h => simpa using fun he => absurd he h

/-- A written value is read as absent only if it was. -/
theorem read_value (spelling : Spelling) {name : String} {d : Datum} {written : Json}
    (h : FieldPortable name d) (hread : Datum.ofJson written = d) :
    (if isAbsent (spelling.fieldName name) (spelling.value name d written) then Datum.null
      else Datum.ofJson (spelling.value name d written)) = d := by
  have hname : spelling.fieldName name = "offset" ∨ spelling.fieldName name = "key" ↔
      name = "offset" ∨ name = "key" := by
    unfold Spelling.fieldName
    split
    · simp_all
    · rfl
  by_cases hv : spelling.absentFalse && d.isNull && (name == "offset" || name == "key")
  · have hnull : d = .null := by
      cases d with
      | scalar v => cases v <;> simp_all [Datum.isNull, Datum.null]
      | _ => simp_all [Datum.isNull]
    have habsent : isAbsent (spelling.fieldName name) (.scalar (.bool false)) = true :=
      isAbsent_iff.2 ⟨rfl, hname.2 (by simp_all)⟩
    rw [Spelling.value, if_pos hv, if_pos habsent, hnull]
  · rw [Spelling.value, if_neg hv]
    split
    · next habsent =>
      obtain ⟨rfl, hn⟩ := isAbsent_iff.1 habsent
      exact absurd hread.symm (h.2.2 (hname.1 hn))
    · exact hread

theorem ofMembers_append (members more : List (String × Json)) (done : List (String × Datum)) :
    ofMembers (members ++ more) done = ofMembers more (ofMembers members done) := by
  induction members generalizing done with
  | nil => rw [List.nil_append, ofMembers]
  | cons m rest ih =>
    rw [List.cons_append, ofMembers, ofMembers]
    split
    · exact ih done
    · exact ih _

theorem ofMembers_place (line : Json) (column : Option Int) (done : List (String × Datum)) :
    ofMembers (Spelling.place line column) done = done := by
  cases column <;> simp [Spelling.place, ofMembers, notFields]

theorem ofMembers_around (spelling : Spelling) (line : Json) (column : Option Int)
    (fields : List (String × Json)) :
    ofMembers (spelling.around line column fields) [] = ofMembers fields [] := by
  unfold Spelling.around
  split
  · rw [ofMembers_append, ofMembers_place]
  · rw [ofMembers_append, ofMembers_place]

theorem member_loc_encodeFields {style : Style} {fields : List (String × Datum)}
    (h : PortableFields fields) (more : List (String × Json)) :
    member (encodeFields style fields ++ more) "loc" = member more "loc" := by
  induction fields generalizing style with
  | nil => rfl
  | cons p rest ih =>
    have hne : style.here.fieldName p.1 ≠ "loc" := by
      intro he
      exact spelling_notMem_notFields style.here h.1.1 (by rw [he]; decide)
    rw [encodeFields, List.cons_append, member, Assoc.get?_cons, if_neg hne]
    exact ih h.2

theorem position_around (spelling : Spelling) {style : Style} (kind : Json) {line : Json}
    {column : Option Int} {fields : List (String × Datum)} (h : PortableFields fields)
    (hline : column = none → line = .null) :
    position (("kind", kind) :: spelling.around line column (encodeFields style fields)) =
      (line, column) := by
  have hloc : member (("kind", kind) :: spelling.around line column (encodeFields style fields))
      "loc" = member (Spelling.place line column) "loc" := by
    rw [member, Assoc.get?_cons, if_neg (by decide), ← member, Spelling.around]
    split
    · cases column with
      | none =>
        have hnone : member (encodeFields style fields ++ []) "loc" = member [] "loc" :=
          member_loc_encodeFields h []
        simpa [member, Spelling.place] using hnone
      | some c => simp [member, Spelling.place]
    · exact member_loc_encodeFields h _
  rw [position, hloc]
  cases column with
  | none => simp [member, Spelling.place, hline rfl, Json.null]
  | some c => simp [member, Spelling.place]

end Node

mutual

theorem Datum.ofJson_encode (style : Node.Style) :
    ∀ d : Datum, d.Portable → Datum.ofJson (d.encode style) = d
  | .scalar v, _ => by rw [Datum.encode, Datum.ofJson]
  | .list items, h => by
    rw [Datum.encode, Datum.ofJson, Datum.ofItems_encodeItems style items h]
  | .dict members, h => by
    rw [Datum.encode, Datum.ofJson, Assoc.get?_eq_none_iff.2 h]
  | .node n, h => by rw [Datum.encode, Node.ofJson_encode style n h]

/-- A tree that can be exchanged is read back as it was, whatever spelling was chosen. -/
theorem Node.ofJson_encode (style : Node.Style) :
    ∀ n : Node, n.Portable → Datum.ofJson (n.encode style) = .node n
  | .mk kind fields line column, ⟨hnames, hfields, hline⟩ => by
    have hread := Node.ofMembers_encodeFields style fields [] hfields (by simpa using hnames)
    rw [Node.encode, Datum.ofJson, Assoc.get?_cons, if_pos rfl]
    simp only [Node.position_around _ _ hfields hline]
    rw [Node.ofMembers, if_pos (by decide), Node.ofMembers_around, hread, List.nil_append]
    rfl

theorem Datum.ofItems_encodeItems (style : Node.Style) :
    ∀ items : List Datum, Datum.PortableItems items →
      Datum.ofItems (Datum.encodeItems style items) = items
  | [], _ => rfl
  | d :: rest, h => by
    rw [Datum.encodeItems, Datum.ofItems, Datum.ofJson_encode style.inside d h.1,
      Datum.ofItems_encodeItems style.next rest h.2]

/-- Fields are read in their order after those already there. -/
theorem Node.ofMembers_encodeFields (style : Node.Style) :
    ∀ (fields done : List (String × Datum)), Node.PortableFields fields →
      (Assoc.keys (done ++ fields)).Nodup →
      Node.ofMembers (Node.encodeFields style fields) done = done ++ fields
  | [], done, _, _ => (List.append_nil done).symm
  | (name, d) :: rest, done, h, hnames => by
    obtain ⟨⟨hfield, hd⟩, hrest⟩ := h
    have hread := Node.read_value style.here hfield (Datum.ofJson_encode style.inside d hd)
    have hnew : name ∉ Assoc.keys done := by
      simp [Assoc.keys, List.nodup_append] at hnames ⊢
      grind
    rw [Node.encodeFields, Node.ofMembers,
      if_neg (by simpa using Node.spelling_notMem_notFields style.here hfield)]
    simp only [hread, Node.fieldName_spelling style.here hfield, Assoc.insert_of_notMem d hnew]
    rw [Node.ofMembers_encodeFields style.next rest _ hrest (by simpa using hnames),
      List.append_assoc, List.singleton_append]

end

/-! ## Trees of source texts -/

@[simp] theorem Datum.portable_null : Datum.null.Portable := trivial

@[simp] theorem Datum.portable_string (s : String) : (Datum.string s).Portable := trivial

@[simp] theorem Datum.portable_bool (b : Bool) : (Datum.bool b).Portable := trivial

@[simp] theorem Datum.null_ne_bool (b : Bool) : Datum.null ≠ .bool b := nofun

@[simp] theorem Datum.node_ne_bool (n : Node) (b : Bool) : Datum.node n ≠ .bool b := nofun

@[simp] theorem Datum.portable_node {n : Node} : (Datum.node n).Portable ↔ n.Portable := .rfl

@[simp] theorem Datum.portable_list {items : List Datum} :
    (Datum.list items).Portable ↔ Datum.PortableItems items := .rfl

@[simp] theorem Node.portableFields_nil : Node.PortableFields [] := trivial

@[simp] theorem Node.portableFields_cons {name : String} {d : Datum}
    {rest : List (String × Datum)} :
    Node.PortableFields ((name, d) :: rest) ↔
      (Node.FieldPortable name d ∧ d.Portable) ∧ Node.PortableFields rest := .rfl

/-- Setting a field keeps a tree exchangeable if the field is. -/
theorem Node.Portable.replace {n : Node} (h : n.Portable) {name : String} {d : Datum}
    (hfield : Node.FieldPortable name d) (hd : d.Portable) : (n.replace name d).Portable := by
  obtain ⟨kind, fields, line, column⟩ := n
  obtain ⟨hnames, hfields, hline⟩ := h
  refine ⟨Assoc.nodup_keys_insert hnames, (Node.portableFields_iff _).2 ?_, hline⟩
  intro p hp
  rcases Assoc.mem_insert hp with rfl | hp
  · exact ⟨hfield, hd⟩
  · exact (Node.portableFields_iff fields).1 hfields p hp

theorem Datum.portableItems_nodes {ns : List Node} (h : ∀ n ∈ ns, n.Portable) :
    Datum.PortableItems (ns.map .node) := by
  rw [Datum.portableItems_iff, List.forall_mem_map]
  exact h

namespace Source

theorem portable_nodeAt (pos : Position) (kind : String) {fields : List (String × Datum)}
    (h : (Assoc.keys fields).Nodup ∧ Node.PortableFields fields) :
    (nodeAt pos kind fields).Portable :=
  ⟨h.1, h.2, nofun⟩

theorem portable_variableNode (pos : Position) (name : String) :
    (variableNode pos name).Portable := by
  apply portable_nodeAt
  simp [Assoc.keys, Node.notFields]

mutual

theorem Expr.portable_of_toNode :
    ∀ (e : Expr) {n : Node}, e.toNode = .ok n → n.Portable
  | .variable pos name, n, h => by
    obtain rfl := Except.ok.inj h
    exact portable_variableNode pos name
  | .number pos text, n, h => by
    obtain rfl := Except.ok.inj h
    apply portable_nodeAt
    simp [Assoc.keys, Node.notFields]
  | .string pos raw, n, h => by
    obtain ⟨text, htext, h⟩ := exists_of_bind_eq_ok h
    obtain rfl := Except.ok.inj h
    apply portable_nodeAt
    simp [Assoc.keys, Node.notFields]
  | .boolean pos b, n, h => by
    obtain rfl := Except.ok.inj h
    apply portable_nodeAt
    simp [Assoc.keys, Node.notFields]
  | .null pos, n, h => by
    obtain rfl := Except.ok.inj h
    apply portable_nodeAt
    simp [Assoc.keys, Node.notFields]
  | .array pos short entries, n, h => by
    obtain ⟨items, hitems, h⟩ := exists_of_bind_eq_ok h
    obtain rfl := Except.ok.inj h
    apply portable_nodeAt
    simp [Assoc.keys, Node.notFields, Entry.portable_of_toNodes entries hitems]
  | .subscript pos base key, n, h => by
    obtain ⟨b, hb, h⟩ := exists_of_bind_eq_ok h
    obtain ⟨k, hk, h⟩ := exists_of_bind_eq_ok h
    obtain rfl := Except.ok.inj h
    apply portable_nodeAt
    simp [Assoc.keys, Node.notFields, base.portable_of_toNode hb,
      key.portable_of_toNode hk]
  | .append pos base, n, h => by
    obtain ⟨b, hb, h⟩ := exists_of_bind_eq_ok h
    obtain rfl := Except.ok.inj h
    apply portable_nodeAt
    simp [Assoc.keys, Node.notFields, base.portable_of_toNode hb]
  | .unary pos op operand, n, h => by
    obtain ⟨e, he, h⟩ := exists_of_bind_eq_ok h
    obtain rfl := Except.ok.inj h
    apply portable_nodeAt
    simp [Assoc.keys, Node.notFields, operand.portable_of_toNode he]
  | .binary pos op left right, n, h => by
    obtain ⟨l, hl, h⟩ := exists_of_bind_eq_ok h
    obtain ⟨r, hr, h⟩ := exists_of_bind_eq_ok h
    obtain rfl := Except.ok.inj h
    apply portable_nodeAt
    simp [Assoc.keys, Node.notFields, left.portable_of_toNode hl, right.portable_of_toNode hr]
  | .assign pos op target value, n, h => by
    obtain ⟨l, hl, h⟩ := exists_of_bind_eq_ok h
    obtain ⟨r, hr, h⟩ := exists_of_bind_eq_ok h
    obtain rfl := Except.ok.inj h
    apply portable_nodeAt
    simp [Assoc.keys, Node.notFields, target.portable_of_toNode hl, value.portable_of_toNode hr]
  | .reference pos target source, n, h => by
    obtain ⟨l, hl, h⟩ := exists_of_bind_eq_ok h
    obtain ⟨r, hr, h⟩ := exists_of_bind_eq_ok h
    obtain rfl := Except.ok.inj h
    have hr' : (r.replace "byref" (.bool true)).Portable :=
      (source.portable_of_toNode hr).replace (by simp [Node.notFields]) trivial
    apply portable_nodeAt
    simp [Assoc.keys, Node.notFields, target.portable_of_toNode hl, hr']

theorem Entry.portable_of_toNode :
    ∀ (e : Entry) {n : Node}, e.toNode = .ok n → n.Portable
  | .item pos value byRef, n, h => by
    obtain ⟨v, hv, h⟩ := exists_of_bind_eq_ok h
    obtain rfl := Except.ok.inj h
    apply portable_nodeAt
    simp [Assoc.keys, Node.notFields, value.portable_of_toNode hv]
  | .keyed pos key value byRef, n, h => by
    obtain ⟨k, hk, h⟩ := exists_of_bind_eq_ok h
    obtain ⟨v, hv, h⟩ := exists_of_bind_eq_ok h
    obtain rfl := Except.ok.inj h
    apply portable_nodeAt
    simp [Assoc.keys, Node.notFields, key.portable_of_toNode hk,
      value.portable_of_toNode hv]

theorem Entry.portable_of_toNodes :
    ∀ (entries : List Entry) {items : List Datum}, Entry.toNodes entries = .ok items →
      Datum.PortableItems items
  | [], items, h => by
    obtain rfl := Except.ok.inj h
    exact trivial
  | e :: rest, items, h => by
    obtain ⟨n, hn, h⟩ := exists_of_bind_eq_ok h
    obtain ⟨ns, hns, h⟩ := exists_of_bind_eq_ok h
    obtain rfl := Except.ok.inj h
    exact ⟨e.portable_of_toNode hn, Entry.portable_of_toNodes rest hns⟩

end

theorem portableItems_of_mapM {α : Type} {build : α → Except SourceError Node}
    (hbuild : ∀ a n, build a = .ok n → n.Portable) {as : List α} {ns : List Node}
    (h : as.mapM build = .ok ns) : Datum.PortableItems (ns.map .node) := by
  apply Datum.portableItems_nodes
  intro n hn
  obtain ⟨a, -, ha⟩ := exists_of_mem_mapM h n hn
  exact hbuild a n ha

theorem portableItems_names (names : List Name) :
    Datum.PortableItems (names.map Name.toDatum) := by
  rw [Datum.portableItems_iff, List.forall_mem_map]
  intro name _
  exact portable_variableNode name.pos name.name

theorem Stmt.portable_of_toNode (s : Stmt) {n : Node} (h : s.toNode = .ok n) : n.Portable := by
  cases s with
  | expression pos e =>
    obtain ⟨v, hv, h⟩ := exists_of_bind_eq_ok h
    obtain rfl := Except.ok.inj h
    apply portable_nodeAt
    simp [Assoc.keys, Node.notFields, e.portable_of_toNode hv]
  | echo pos operands =>
    obtain ⟨ns, hns, h⟩ := exists_of_bind_eq_ok h
    obtain rfl := Except.ok.inj h
    have hitems := portableItems_of_mapM (fun e _ => Expr.portable_of_toNode e) hns
    apply portable_nodeAt
    simp [Assoc.keys, Node.notFields, hitems]
  | global pos names =>
    obtain rfl := Except.ok.inj h
    apply portable_nodeAt
    simp [Assoc.keys, Node.notFields, portableItems_names]
  | unset pos names =>
    obtain rfl := Except.ok.inj h
    apply portable_nodeAt
    simp [Assoc.keys, Node.notFields, portableItems_names]

theorem Program.portable_of_toNode (p : Program) {n : Node} (h : p.toNode = .ok n) :
    n.Portable := by
  obtain ⟨ns, hns, h⟩ := exists_of_bind_eq_ok h
  have hitems := portableItems_of_mapM (fun s _ => Stmt.portable_of_toNode s) hns
  have hfields : Node.PortableFields
      [("children", Datum.list (ns.map .node)), ("errors", Datum.list [])] := by
    simp [Node.notFields, hitems, Datum.PortableItems]
  have hnames : (Assoc.keys
      [("children", Datum.list (ns.map .node)), ("errors", Datum.list [])]).Nodup := by
    simp [Assoc.keys]
  cases hpos : p.pos? with
  | none =>
    rw [hpos] at h
    obtain rfl := Except.ok.inj h
    exact ⟨hnames, hfields, fun _ => rfl⟩
  | some pos =>
    rw [hpos] at h
    obtain rfl := Except.ok.inj h
    exact portable_nodeAt pos _ ⟨hnames, hfields⟩

/-- The tree of a source text, written in any of the spellings, is read back as the same tree,
every node at its line and column, so no run can tell the two apart. -/
theorem ofJson_encode_tree {text : String} {n : Node} (h : tree text = .ok n)
    (style : Node.Style) : Datum.ofJson (n.encode style) = .node n := by
  obtain ⟨p, -, hp⟩ := exists_of_tree h
  exact Node.ofJson_encode style n (p.portable_of_toNode hp)

/-- Fields in another spelling, a false that is a value, and two that are absent. -/
theorem ofJson_encode_spelled :
    ∃ n, tree "$a[] = false; $b = [&$a[0]];" = .ok n ∧
      Datum.ofJson (n.encode fun way => ⟨true, true, way.length % 2 = 0⟩) = .node n := by
  have hok : (tree "$a[] = false; $b = [&$a[0]];").isOk = true := by decide +kernel
  cases hn : tree "$a[] = false; $b = [&$a[0]];" with
  | error e =>
    rw [hn] at hok
    cases hok
  | ok n => exact ⟨n, rfl, ofJson_encode_tree hn _⟩

end Source

end PhpInterpreter
