import PhpInterpreter.Proofs.Value.Path

/-!
Making a place in a value. Where there is nothing under a path of keys, arrays are made on the way
and each array gets a new last entry; this is what stores into the value, one level after the other,
come to.
-/

namespace PhpInterpreter

namespace Table

variable {α : Type} {t : Table α} {k : Key} {v : α}

theorem nextAfter_nextAfter (n : Int) (k : Key) : nextAfter (nextAfter n k) k = nextAfter n k := by
  cases k with
  | str s => rfl
  | int m =>
    simp only [nextAfter]
    grind

theorem set_set (k : Key) (v w : α) (t : Table α) : (t.set k v).set k w = t.set k w := by
  simp only [set, Assoc.insert_insert, nextAfter_nextAfter]

theorem replace_set (k : Key) (v w : α) (t : Table α) : (t.set k v).replace k w = t.set k w := by
  simp only [set, replace, Assoc.modify_insert]

/-- The next key is behind the keys that are there. -/
theorem Ordered.nextAfter_eq (h : t.Ordered) (hk : k ∈ t.keys) : nextAfter t.next k = t.next := by
  cases k with
  | str s => rfl
  | int n =>
    have hlt : n < t.next := by
      rcases h.next with ⟨hzero, hneg⟩ | ⟨m, -, -, hmax, hnext⟩
      · have := hneg n hk
        omega
      · have := hmax n hk
        omega
    exact if_neg (by omega)

theorem Ordered.set_self (h : t.Ordered) (hk : t.get? k = some v) : t.set k v = t := by
  calc t.set k v
    _ = ⟨Assoc.insert k v t.entries, nextAfter t.next k⟩ := rfl
    _ = t := by rw [Assoc.insert_eq_self hk, h.nextAfter_eq (Assoc.mem_keys_of_get? hk)]

end Table

namespace Value

variable {P : String → Prop} {v w w' c x : Value} {t : Table Value} {k : Key} {path q : List Key}

theorem defined_ne_undefined (v : Value) : v.defined ≠ .undefined := by
  cases v <;> simp [defined]

theorem defined_eq_self (h : v ≠ .undefined) : v.defined = v := by
  cases v with
  | undefined => exact absurd rfl h
  | _ => rfl

theorem table?_defined (v : Value) : v.defined.table? = v.table? := by
  cases v <;> rfl

theorem Tidy.ne_undefined (h : v.Tidy P) : v ≠ .undefined := by
  rintro rfl
  cases h

/-- Where there is an entry, there is an array. -/
theorem eq_array (ht : v.table? = some t) (hk : t.get? k = some w) : v = .array t := by
  cases v with
  | array u => rw [Option.some.inj ht]
  | undefined | null =>
    obtain rfl := Option.some.inj ht
    cases hk
  | _ => cases ht

theorem Tidy.ordered_descend (h : v.Tidy P) (ht : (v.descend path).table? = some t) :
    t.Ordered := by
  cases hv : v.descend path with
  | array u =>
    rw [hv] at ht
    obtain rfl := Option.some.inj ht
    have htidy := h.descend path (by rw [hv]; nofun)
    exact (hv ▸ htidy).ordered
  | undefined | null =>
    rw [hv] at ht
    obtain rfl := Option.some.inj ht
    exact Table.ordered_empty
  | _ =>
    rw [hv] at ht
    cases ht

/-- The value with `new` under a path of keys; where there is nothing on the way, arrays are made,
and a new entry is the last one of its array. None if other values than arrays are in the way. -/
def put? : Value → List Key → Value → Option Value
  | _, [], new => some new
  | v, k :: path, new => do
    let t ← v.table?
    let inner ← put? ((t.get? k).getD .null) path new
    return .array (t.set k inner)

theorem put?_nil (v new : Value) : v.put? [] new = some new := by rw [put?]

theorem put?_cons_eq_some : v.put? (k :: path) w = some c ↔ ∃ t inner, v.table? = some t ∧
    put? ((t.get? k).getD .null) path w = some inner ∧ array (t.set k inner) = c := by
  simp only [put?, Option.bind_eq_bind, Option.bind_eq_some_iff, Option.pure_def,
    Option.some.injEq, exists_and_left]

theorem descend_put? (h : v.put? path w = some c) : c.descend path = w := by
  induction path generalizing v c with
  | nil =>
    rw [put?_nil, Option.some.injEq] at h
    rw [← h, descend]
  | cons k path ih =>
    obtain ⟨t, inner, -, hinner, rfl⟩ := put?_cons_eq_some.1 h
    rw [descend, Table.get?_set, if_pos rfl]
    exact ih hinner

/-- To put what is there already changes nothing. -/
theorem put?_descend (h : v.Tidy P) (hpath : v.descend path ≠ .undefined) :
    v.put? path (v.descend path) = some v := by
  induction path generalizing v with
  | nil => rw [put?_nil, descend]
  | cons k path ih =>
    cases v with
    | array t =>
      rw [descend] at hpath ⊢
      cases hk : t.get? k with
      | none => simp [hk] at hpath
      | some w =>
        rw [hk] at hpath
        have hinner := ih (h.entries _ (Assoc.mem_of_get? hk)) hpath
        refine put?_cons_eq_some.2 ⟨t, w, rfl, ?_, congrArg array (h.ordered.set_self hk)⟩
        rwa [hk]
    | _ => simp [descend] at hpath

/-- A store at a place that was made, or below it. -/
theorem put?_setAt? (h : v.put? path w = some c) (hset : w.setAt? q x = some w') :
    ∃ c', c.setAt? (path ++ q) x = some c' ∧ v.put? path w' = some c' := by
  induction path generalizing v c with
  | nil =>
    rw [put?_nil, Option.some.injEq] at h
    exact ⟨w', h ▸ hset, put?_nil v w'⟩
  | cons k path ih =>
    obtain ⟨t, inner, ht, hinner, rfl⟩ := put?_cons_eq_some.1 h
    obtain ⟨inner', hstore, hput⟩ := ih hinner
    refine ⟨array (t.set k inner'), ?_, put?_cons_eq_some.2 ⟨t, inner', ht, hput, rfl⟩⟩
    rw [List.cons_append]
    cases hrest : path ++ q with
    | nil =>
      rw [hrest] at hstore
      obtain rfl : x = inner' := by simpa [setAt?] using hstore
      rw [setAt?, Table.set_set]
    | cons k' rest =>
      rw [hrest] at hstore
      simp [setAt?, Table.get?_set, hstore, Table.replace_set]

/-- To make an element that is missing is to put the array with it. -/
theorem put?_concat (ht : (v.descend path).table? = some t) (k : Key) :
    v.put? (path ++ [k]) .null = v.put? path (.array (t.set k .null)) := by
  induction path generalizing v with
  | nil =>
    rw [descend] at ht
    rw [put?_nil]
    exact put?_cons_eq_some.2 ⟨t, .null, ht, put?_nil _ _, rfl⟩
  | cons k' path ih =>
    rw [List.cons_append, put?, put?]
    cases hv : v.table? with
    | none => rfl
    | some u =>
      rw [descend_cons hv, ← table?_descend_getD_null] at ht
      simp only [Option.bind_eq_bind, Option.bind_some, ih ht]

end Value

end PhpInterpreter
