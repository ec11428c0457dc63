import Mathlib.Data.List.Basic
import PhpInterpreter.Proofs.Node.Walk

/-!
The walk over a tree is its recursive order. Run as a loop, it keeps the nodes still to be visited
on a stack, siblings of several levels at once, and what is to come is always what the walk makes of
the stack from the top down. Nodes that look alike are told apart by the way down to them; the walk
takes the ways in lexicographic order, each of them once.
-/

namespace PhpInterpreter

/-! ## The recursive order -/

theorem Datum.preorderItems_eq (items : List Datum) :
    Node.preorderItems items = (nodes items).flatMap Node.preorder := by
  induction items with
  | nil => rfl
  | cons d rest ih => cases d <;> simp [Node.preorderItems, nodes, ih]

namespace Node

theorem preorderFields_eq (fields : List (String × Datum)) :
    preorderFields fields = (childrenIn fields).flatMap preorder := by
  induction fields with
  | nil => rfl
  | cons field rest ih =>
    obtain ⟨name, d⟩ := field
    cases d <;> simp [preorderFields, childrenIn, Datum.preorderItems_eq, ih]

theorem preorder_eq (n : Node) : n.preorder = n :: n.children.flatMap preorder := by
  obtain ⟨kind, fields, line, column⟩ := n
  rw [preorder, preorderFields_eq]
  rfl

theorem walkPending_eq (ns : List Node) : walkPending ns = ns.flatMap preorder := by
  fun_induction walkPending ns with
  | case1 => rfl
  | case2 n rest ih =>
    rw [ih, List.flatMap_append, List.flatMap_cons, preorder_eq, List.cons_append]

theorem walk_eq_preorder (n : Node) : n.walk = n.preorder := by
  rw [walk, walkPending_eq, List.flatMap_singleton]

/-! ## The loop -/

/-- A walk on its way. The last pending node is visited next. -/
structure Tour where
  pending : List Node
  visited : List Node

namespace Tour

variable {t u : Tour}

def start (n : Node) : Tour := ⟨[n], []⟩

/-- Visits the last pending node and pushes its children, the first of them on top. -/
def round (t : Tour) : Option Tour :=
  match t.pending.getLast? with
  | none => none
  | some n => some ⟨t.pending.dropLast ++ n.children.reverse, t.visited ++ [n]⟩

/-- So many rounds, if there is a pending node for each. -/
def rounds (t : Tour) : Nat → Option Tour
  | 0 => some t
  | k + 1 => t.round.bind fun u => u.rounds k

/-- The nodes that are still to come. -/
def ahead (t : Tour) : List Node := walkPending t.pending.reverse

theorem ended_of_round (h : t.round = none) : t.pending = [] ∧ t.ahead = [] := by
  unfold round at h
  split at h
  · next hlast =>
    have hnil : t.pending = [] := List.getLast?_eq_none_iff.1 hlast
    refine ⟨hnil, ?_⟩
    rw [ahead, hnil, List.reverse_nil, walkPending]
  · cases h

/-- A round moves the next node from what is to come to what has been visited. -/
theorem exists_of_round (h : t.round = some u) :
    ∃ n, t.ahead = n :: u.ahead ∧ u.visited = t.visited ++ [n] := by
  unfold round at h
  split at h
  · cases h
  · next n hlast =>
    obtain rfl := Option.some.inj h
    obtain ⟨below, hpending⟩ := List.getLast?_eq_some_iff.1 hlast
    refine ⟨n, ?_, rfl⟩
    -- Reversed once more, the pushed children are in order on top of the stack.
    have hpushed : (t.pending.dropLast ++ n.children.reverse).reverse =
        n.children ++ below.reverse := by
      rw [hpending, List.dropLast_concat, List.reverse_append, List.reverse_reverse]
    rw [ahead, ahead, hpushed, hpending, List.reverse_concat, walkPending]

/-- There are as many rounds as nodes to come, and each of them visits the next one. -/
theorem visited_rounds (t : Tour) (k : Nat) :
    (t.rounds k).map visited =
      if k ≤ t.ahead.length then some (t.visited ++ t.ahead.take k) else none := by
  induction k generalizing t with
  | zero => simp [rounds]
  | succ k ih =>
    rw [rounds]
    cases hround : t.round with
    | none => simp [(ended_of_round hround).2]
    | some u =>
      obtain ⟨n, hahead, hvisited⟩ := exists_of_round hround
      simp [ih, hahead, hvisited]

/-- The loop ends with nothing pending. -/
theorem rounds_ahead (t : Tour) : t.rounds t.ahead.length = some ⟨[], t.visited ++ t.ahead⟩ := by
  induction hlength : t.ahead.length generalizing t with
  | zero =>
    cases hround : t.round with
    | none =>
      obtain ⟨hpending, hahead⟩ := ended_of_round hround
      rw [hahead, List.append_nil, ← hpending]
      rfl
    | some u =>
      obtain ⟨n, hahead, -⟩ := exists_of_round hround
      simp [hahead] at hlength
  | succ k ih =>
    cases hround : t.round with
    | none => simp [(ended_of_round hround).2] at hlength
    | some u =>
      obtain ⟨n, hahead, hvisited⟩ := exists_of_round hround
      have hrest : u.ahead.length = k := by simpa [hahead] using hlength
      rw [rounds, hround, Option.bind_some, ih u hrest, hahead, hvisited, List.append_assoc]
      rfl

end Tour

/-! ## Occurrences -/

/-- The node at the end of a way down, each step of which is the number of a child. -/
def descendant? (n : Node) : List Nat → Option Node
  | [] => some n
  | i :: way => n.children[i]?.bind fun m => m.descendant? way

theorem size_lt_of_mem_children {m n : Node} (h : m ∈ n.children) : m.size < n.size := by
  obtain ⟨before, after, hsplit⟩ := List.append_of_mem h
  have hsizes := sizes_children_lt n
  rw [hsplit, sizes_append, sizes] at hsizes
  omega

/-- Every node with the way down to it, the ways to a child and below before those to the next. -/
def occurrences (n : Node) : List (List Nat × Node) :=
  ([], n) :: n.children.zipIdx.attach.flatMap fun p =>
    (occurrences p.1.1).map fun o => (p.1.2 :: o.1, o.2)
termination_by n.size
decreasing_by exact size_lt_of_mem_children (List.fst_mem_of_mem_zipIdx p.2)

/-- The occurrences in a child, seen from its parent. -/
def occurrencesBelow (p : Node × Nat) : List (List Nat × Node) :=
  p.1.occurrences.map fun o => (p.2 :: o.1, o.2)

theorem occurrences_eq (n : Node) :
    n.occurrences = ([], n) :: n.children.zipIdx.flatMap occurrencesBelow := by
  rw [occurrences, List.flatMap_subtype (g := occurrencesBelow) fun _ _ => rfl,
    List.unattach_attach]

/-- What holds of a node when it holds of its children holds of every node. -/
theorem induction_children {motive : Node → Prop} (n : Node)
    (step : ∀ n : Node, (∀ m ∈ n.children, motive m) → motive n) : motive n :=
  step n fun m hm =>
    have : m.size < n.size := size_lt_of_mem_children hm
    induction_children m step
termination_by n.size

theorem map_snd_occurrences (n : Node) : n.occurrences.map Prod.snd = n.preorder := by
  induction n using induction_children with
  | step n ih =>
    have hbelow : ∀ p ∈ n.children.zipIdx,
        (occurrencesBelow p).map Prod.snd = p.1.preorder := by
      intro p hp
      rw [← ih p.1 (List.fst_mem_of_mem_zipIdx hp), occurrencesBelow, List.map_map]
      rfl
    rw [occurrences_eq, preorder_eq, List.map_cons, List.map_flatMap, List.flatMap_congr hbelow,
      ← List.flatMap_map, List.zipIdx_map_fst]

/-- The node that occurs at a way down is the node it leads to. -/
theorem mem_occurrences_iff (n m : Node) (way : List Nat) :
    (way, m) ∈ n.occurrences ↔ n.descendant? way = some m := by
  induction n using induction_children generalizing way with
  | step n ih =>
    rw [occurrences_eq, List.mem_cons, List.mem_flatMap]
    cases way with
    | nil => simp [descendant?, occurrencesBelow, eq_comm]
    | cons i way =>
      have hbelow : ∀ p ∈ n.children.zipIdx,
          ((i :: way, m) ∈ occurrencesBelow p ↔ p.2 = i ∧ p.1.descendant? way = some m) := by
        intro p hp
        rw [← ih p.1 (List.fst_mem_of_mem_zipIdx hp)]
        simp [occurrencesBelow, and_comm]
      simp only [descendant?, Option.bind_eq_some_iff]
      constructor
      · rintro (h | ⟨p, hp, h⟩)
        · cases h
        · obtain ⟨rfl, hdown⟩ := (hbelow p hp).1 h
          exact ⟨p.1, List.mem_zipIdx_iff_getElem?.1 hp, hdown⟩
      · rintro ⟨c, hc, hdown⟩
        have hp : (c, i) ∈ n.children.zipIdx := List.mem_zipIdx_iff_getElem?.2 hc
        exact .inr ⟨(c, i), hp, (hbelow _ hp).2 ⟨rfl, hdown⟩⟩

/-- The ways are in lexicographic order, so no occurrence stands twice. -/
theorem pairwise_occurrences (n : Node) : (n.occurrences.map Prod.fst).Pairwise (· < ·) := by
  induction n using induction_children with
  | step n ih =>
    have hnumbers : n.children.zipIdx.Pairwise fun p q => p.2 < q.2 := by
      rw [← List.pairwise_map, List.zipIdx_map_snd]
      exact List.pairwise_lt_range'
    rw [List.pairwise_map, occurrences_eq, List.pairwise_cons, List.pairwise_flatMap]
    refine ⟨?_, ?_, ?_⟩
    · intro o ho
      obtain ⟨p, -, ho⟩ := List.mem_flatMap.1 ho
      obtain ⟨o', -, rfl⟩ := List.mem_map.1 ho
      exact List.nil_lt_cons _ _
    · intro p hp
      have hchild := List.pairwise_map.1 (ih p.1 (List.fst_mem_of_mem_zipIdx hp))
      rw [occurrencesBelow, List.pairwise_map]
      exact hchild.imp fun hlt => List.cons_lt_cons_iff.2 (.inr ⟨rfl, hlt⟩)
    · refine hnumbers.imp fun hlt x hx y hy => ?_
      obtain ⟨_, -, rfl⟩ := List.mem_map.1 hx
      obtain ⟨_, -, rfl⟩ := List.mem_map.1 hy
      exact List.cons_lt_cons_iff.2 (.inl hlt)

/-! ## The walk -/

theorem find?_eq_some_iff {n m : Node} {kinds : List String} :
    n.find? kinds = some m ↔ ∃ before after, n.walk = before ++ m :: after ∧
      m.kind ∈ kinds ∧ ∀ k ∈ before, k.kind ∉ kinds := by
  rw [find?, List.find?_eq_some_iff_append]
  simp only [List.contains_iff_mem, Bool.not_eq_true', ← Bool.not_eq_true]
  constructor
  · rintro ⟨hkind, before, after, hsplit, hbefore⟩
    exact ⟨before, after, hsplit, hkind, hbefore⟩
  · rintro ⟨before, after, hsplit, hkind, hbefore⟩
    exact ⟨hkind, before, after, hsplit, hbefore⟩

theorem find?_eq_none_iff {n : Node} {kinds : List String} :
    n.find? kinds = none ↔ ∀ m ∈ n.walk, m.kind ∉ kinds := by
  rw [find?, List.find?_eq_none]
  simp only [List.contains_iff_mem]

/-- The walk is the root and then the walks of its children, in order. The loop visits the nodes of
the walk one by one and ends after the last; every occurrence of a node comes once, in the order of
the ways down; and what is found is the first node of the walk that is of one of the kinds. -/
theorem walk_in_preorder (n : Node) (kinds : List String) :
    n.walk = n :: n.children.flatMap walk ∧
      ((Tour.start n).rounds n.walk.length = some ⟨[], n.walk⟩ ∧
        ∀ k, ((Tour.start n).rounds k).map Tour.visited =
          if k ≤ n.walk.length then some (n.walk.take k) else none) ∧
      (n.occurrences.map Prod.snd = n.walk ∧ (n.occurrences.map Prod.fst).Pairwise (· < ·) ∧
        ∀ way m, (way, m) ∈ n.occurrences ↔ n.descendant? way = some m) ∧
      (∀ m, n.find? kinds = some m ↔ ∃ before after, n.walk = before ++ m :: after ∧
        m.kind ∈ kinds ∧ ∀ k ∈ before, k.kind ∉ kinds) ∧
      (n.find? kinds = none ↔ ∀ m ∈ n.walk, m.kind ∉ kinds) := by
  have hwalk : walk = preorder := funext walk_eq_preorder
  refine ⟨?_, ⟨?_, fun k => ?_⟩, ⟨?_, pairwise_occurrences n, fun way m => ?_⟩, fun m => ?_, ?_⟩
  · rw [hwalk, ← preorder_eq]
  · exact (Tour.start n).rounds_ahead
  · exact (Tour.start n).visited_rounds k
  · rw [map_snd_occurrences, hwalk]
  · exact mem_occurrences_iff n m way
  · exact find?_eq_some_iff
  · exact find?_eq_none_iff

/-- Only the nodes of a list are children, not those of a list inside it. -/
example :
    let leaf (kind : String) : Datum := .node (mk kind [] .null none)
    (mk "root" [("items", .list [leaf "a", .null, .list [leaf "b"]]), ("last", leaf "c")]
      .null none).walk.map kind = ["root", "a", "c"] := by
  decide +kernel

end Node

end PhpInterpreter
