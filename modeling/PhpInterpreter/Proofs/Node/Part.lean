import Mathlib.Logic.Relation
import PhpInterpreter.Proofs.Node.Walk
import PhpInterpreter.Proofs.Source.Complete

/-!
Parts of terms. What is inside the term of a node is the term of a node that a walk over the tree
comes to, if it is a node at all.
-/

namespace PhpInterpreter

namespace Term

/-- The terms a term is built from. -/
def parts : Term → List Term
  | absent | foreign | literal .. | .variable .. | other _ => []
  | program _ _ ts | echo _ _ ts | global _ _ ts | unset _ _ ts | array _ _ ts => ts
  | statement _ e => [e]
  | unary _ _ e => [e]
  | entry _ e e' | subscript _ e e' | binary _ _ e e' | assign _ _ e e' => [e, e']

/-- The first term is the second one or somewhere inside it. -/
def Inside : Term → Term → Prop := Relation.ReflTransGen fun u t => u ∈ t.parts

/-- The first term is somewhere inside the second one. -/
def Below : Term → Term → Prop := Relation.TransGen fun u t => u ∈ t.parts

variable {s t u : Term}

theorem Inside.refl (t : Term) : t.Inside t := Relation.ReflTransGen.refl

theorem Below.inside (h : u.Below t) : u.Inside t := Relation.TransGen.to_reflTransGen h

theorem below_of_mem (h : u ∈ t.parts) : u.Below t := .single h

theorem Inside.below (h : s.Inside u) (h' : u.Below t) : s.Below t := .trans_right h h'

theorem Inside.trans (h : s.Inside u) (h' : u.Inside t) : s.Inside t :=
  Relation.ReflTransGen.trans h h'

theorem Below.sizeOf_lt (h : u.Below t) : sizeOf u < sizeOf t := by
  have hpart : ∀ {u t : Term}, u ∈ t.parts → sizeOf u < sizeOf t := by
    intro u t h
    cases t with
    | program _ _ ts | echo _ _ ts | global _ _ ts | unset _ _ ts | array _ _ ts =>
      have hlt : sizeOf u < sizeOf ts := List.sizeOf_lt_of_mem h
      simp only [program.sizeOf_spec, echo.sizeOf_spec, global.sizeOf_spec, unset.sizeOf_spec,
        array.sizeOf_spec]
      omega
    | statement _ e | unary _ _ e =>
      obtain rfl := List.mem_singleton.1 h
      simp only [statement.sizeOf_spec, unary.sizeOf_spec]
      omega
    | entry _ e e' | subscript _ e e' | binary _ _ e e' | assign _ _ e e' =>
      have hpair : u = e ∨ u = e' := by simpa [parts] using h
      simp only [entry.sizeOf_spec, subscript.sizeOf_spec, binary.sizeOf_spec, assign.sizeOf_spec]
      rcases hpair with rfl | rfl <;> omega
    | absent | foreign | literal | «variable» | other => cases h
  induction h with
  | single h => exact hpart h
  | tail _ h ih => exact Nat.lt_trans ih (hpart h)

/-- What a term is built from was read from the fields. -/
theorem exists_of_mem_parts_build {head : Head} {fields : List (String × Reading)}
    (h : t ∈ (build head fields).parts) :
    ∃ name r, (name, r) ∈ fields ∧ (t = r.term ∨ t ∈ r.items) ∨ t = .absent := by
  have hread : ∀ name, (t = ((Assoc.get? name fields).getD .missing).term ∨
      t ∈ ((Assoc.get? name fields).getD .missing).items) →
      ∃ name r, (name, r) ∈ fields ∧ (t = r.term ∨ t ∈ r.items) ∨ t = .absent := by
    intro name ht
    cases hget : Assoc.get? name fields with
    | none =>
      rw [hget] at ht
      exact ⟨name, .missing, .inr (ht.resolve_right nofun)⟩
    | some r =>
      rw [hget] at ht
      exact ⟨name, r, .inl ⟨Assoc.mem_of_get? hget, ht⟩⟩
  unfold build at h
  split at h
  case h_3 =>
    dsimp only [parts] at h
    split at h
    · exact hread _ (.inr h)
    · exact hread _ (.inr h)
  case h_1 | h_4 | h_5 | h_11 => exact hread _ (.inr h)
  case h_2 | h_14 => exact hread _ (.inl (List.mem_singleton.1 h))
  case h_12 | h_13 | h_15 | h_16 =>
    rcases List.mem_cons.1 h with h | h
    · exact hread _ (.inl h)
    · exact hread _ (.inl (List.mem_singleton.1 h))
  all_goals cases h

end Term

variable {t : Term} {n : Node}

theorem Datum.exists_of_mem_toTerms {ds : List Datum} (h : t ∈ toTerms ds) (ht : t.head?.isSome) :
    ∃ k ∈ nodes ds, t = k.toTerm := by
  induction ds with
  | nil => cases h
  | cons d rest ih =>
    have hrest : t ∈ toTerms rest → ∃ k ∈ nodes (d :: rest), t = k.toTerm := by
      intro h
      obtain ⟨k, hk, htk⟩ := ih h
      cases d with
      | node n => exact ⟨k, List.mem_cons_of_mem n hk, htk⟩
      | _ => exact ⟨k, hk, htk⟩
    rcases List.mem_cons.1 h with rfl | h
    · cases d with
      | node n => exact ⟨n, List.mem_cons_self, rfl⟩
      | scalar v => cases v <;> cases ht
      | list _ | dict _ => cases ht
    · exact hrest h

/-- What the reading of a field gives for a node is a node of the fields. -/
theorem Node.exists_of_mem_readings {fields : List (String × Datum)} {name : String}
    {r : Term.Reading} (h : (name, r) ∈ readings fields) (hr : t = r.term ∨ t ∈ r.items)
    (ht : t.head?.isSome) : ∃ k ∈ childrenIn fields, t = k.toTerm := by
  -- Foreign parts are no nodes.
  have hforeign : ∀ {α : Type} {l : List α}, t ∉ l.map fun _ => Term.foreign := by
    intro α l hmem
    obtain ⟨_, -, rfl⟩ := List.mem_map.1 hmem
    cases ht
  induction fields with
  | nil => cases h
  | cons field rest ih =>
    obtain ⟨other, d⟩ := field
    rw [readings_cons] at h
    rcases List.mem_cons.1 h with h | h
    · obtain ⟨rfl, rfl⟩ := Prod.mk.inj h
      rcases hr with rfl | hr
      · cases d with
        | node n => exact ⟨n, List.mem_cons_self, rfl⟩
        | scalar v => cases v <;> cases ht
        | list _ | dict _ => cases ht
      · cases d with
        | node n => cases hr
        | list items =>
          obtain ⟨k, hk, htk⟩ := Datum.exists_of_mem_toTerms hr ht
          exact ⟨k, List.mem_append_left _ hk, htk⟩
        | dict members => exact absurd hr hforeign
        | scalar v =>
          cases v with
          | string s => exact absurd hr hforeign
          | _ => cases hr
    · obtain ⟨k, hk, htk⟩ := ih h
      refine ⟨k, ?_, htk⟩
      cases d with
      | node n => exact List.mem_cons_of_mem n hk
      | list items => exact List.mem_append_right _ hk
      | _ => exact hk

/-- A part of the term of a node is the term of a child, if it is a node. -/
theorem Node.exists_of_mem_parts (h : t ∈ n.toTerm.parts) (ht : t.head?.isSome) :
    ∃ k ∈ n.children, t = k.toTerm := by
  obtain ⟨kind, fields, line, column⟩ := n
  rw [toTerm] at h
  obtain ⟨name, r, ⟨hmem, hr⟩ | rfl⟩ := Term.exists_of_mem_parts_build h
  · exact exists_of_mem_readings hmem hr ht
  · cases ht

theorem Node.mem_walkPending {k : Node} {ns : List Node} (h : k ∈ ns) : k ∈ walkPending ns := by
  obtain ⟨before, after, rfl⟩ := List.append_of_mem h
  rw [walkPending_append, walkPending]
  exact List.mem_append_right _ List.mem_cons_self

/-- A walk goes on to the children of every node. -/
theorem Node.child_mem_walkPending {k child : Node} {ns : List Node} (h : k ∈ walkPending ns)
    (hchild : child ∈ k.children) : child ∈ walkPending ns := by
  fun_induction walkPending ns with
  | case1 => cases h
  | case2 m rest ih =>
    rcases List.mem_cons.1 h with rfl | h
    · exact List.mem_cons_of_mem _ (mem_walkPending (List.mem_append_left _ hchild))
    · exact List.mem_cons_of_mem _ (ih h)

/-- What is inside the term of a node is the term of a node of the walk, if it is a node. -/
theorem Node.exists_of_inside (h : t.Inside n.toTerm) (ht : t.head?.isSome) :
    ∃ k ∈ n.walk, t = k.toTerm := by
  induction h using Relation.ReflTransGen.head_induction_on with
  | refl => exact ⟨n, mem_walkPending List.mem_cons_self, rfl⟩
  | @head t u hpart _ ih =>
    have hu : u.head?.isSome := by
      cases u with
      | absent | foreign => cases hpart
      | _ => rfl
    obtain ⟨k, hk, rfl⟩ := ih hu
    obtain ⟨child, hchild, htk⟩ := exists_of_mem_parts hpart ht
    exact ⟨child, child_mem_walkPending hk hchild, htk⟩

end PhpInterpreter
