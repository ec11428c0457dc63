import PhpInterpreter.Proofs.Value.Contract

/-!
Tidy values: nothing in them is undefined, the keys of arrays are normal and distinct, and the
counter of an array stands behind its integer keys. Setting, replacing and appending keep arrays
tidy, so that an append never meets a key that is there.
-/

namespace PhpInterpreter

namespace Key

/-- The key as a value of the language. -/
def toValue : Key → Value
  | int n => .int n
  | str s => .string s

/-- The key addresses itself, without remarks. -/
def Normal (k : Key) : Prop := k.toValue.toKey.outcome = (.ok k, [])

theorem normal_int (n : Int) : (int n).Normal := rfl

theorem ofString_str {s t : String} (h : ofString s = .ok (.str t)) : t = s := by
  unfold ofString at h
  split at h
  · simpa using h.symm
  · split at h
    · cases h
    · have hkey : ∀ n : Int, (if fits n then int n else str s) = str t → t = s := by
        intro n hn
        split at hn
        · cases hn
        · exact (str.inj hn).symm
      exact hkey _ (Except.ok.inj h)

theorem normal_ofString {s : String} {k : Key} (h : ofString s = .ok k) : k.Normal := by
  cases k with
  | int n => exact normal_int n
  | str t =>
    obtain rfl := ofString_str h
    simp only [Normal, toValue, Value.toKey, h]
    rfl

end Key

namespace Table

variable {α : Type} {t : Table α} {k : Key} {v : α}

/-- Keys are normal and distinct, and the next key is behind the largest one that is not negative,
or zero if there is none. -/
structure Ordered (t : Table α) : Prop where
  nodup : t.keys.Nodup
  normal : ∀ k ∈ t.keys, k.Normal
  next : (t.next = 0 ∧ ∀ n, .int n ∈ t.keys → n < 0) ∨
    ∃ n, 0 ≤ n ∧ .int n ∈ t.keys ∧ (∀ i, .int i ∈ t.keys → i ≤ n) ∧ t.next = n + 1

theorem ordered_empty : (empty : Table α).Ordered where
  nodup := List.nodup_nil
  normal := nofun
  next := .inl ⟨rfl, nofun⟩

theorem mem_keys_set {x : Key} : x ∈ (t.set k v).keys ↔ x = k ∨ x ∈ t.keys := by
  rw [keys, set, Assoc.mem_keys_insert]
  rfl

theorem Ordered.set (h : t.Ordered) (hk : k.Normal) (v : α) : (t.set k v).Ordered where
  nodup := Assoc.nodup_keys_insert h.nodup
  normal := by
    intro x hx
    rcases mem_keys_set.1 hx with rfl | hx
    · exact hk
    · exact h.normal x hx
  next := by
    simp only [mem_keys_set]
    cases k with
    | str s =>
      simpa [Table.set, nextAfter] using h.next
    | int m =>
      have hnext : (t.set (.int m) v).next = if t.next ≤ m then m + 1 else t.next := rfl
      rw [hnext]
      -- The new key is behind all others or not, and there was a largest one before or not.
      rcases h.next with ⟨hzero, hneg⟩ | ⟨n, hn, hin, hmax, hnext⟩
      · by_cases hm : 0 ≤ m
        · refine .inr ⟨m, hm, .inl rfl, ?_, by simp [hzero, hm]⟩
          rintro i (hi | hi)
          · simp at hi
            omega
          · have := hneg i hi
            omega
        · refine .inl ⟨by rw [if_neg (by omega), hzero], ?_⟩
          rintro i (hi | hi)
          · simp at hi
            omega
          · exact hneg i hi
      · by_cases hm : t.next ≤ m
        · refine .inr ⟨m, by omega, .inl rfl, ?_, by simp [hm]⟩
          rintro i (hi | hi)
          · simp at hi
            omega
          · have := hmax i hi
            omega
        · refine .inr ⟨n, hn, .inr hin, ?_, by rw [if_neg hm, hnext]⟩
          rintro i (hi | hi)
          · simp at hi
            omega
          · exact hmax i hi

theorem keys_replace (k : Key) (v : α) : (t.replace k v).keys = t.keys :=
  Assoc.keys_modify ..

theorem Ordered.replace (h : t.Ordered) (k : Key) (v : α) : (t.replace k v).Ordered where
  nodup := by
    rw [keys_replace]
    exact h.nodup
  normal := by
    rw [keys_replace]
    exact h.normal
  next := by
    rw [keys_replace]
    exact h.next

theorem Ordered.normal_of_takes (h : t.Ordered) (hk : t.Takes Key.Normal k) : k.Normal := by
  rcases hk with hk | rfl | hk
  · exact hk
  · exact Key.normal_int _
  · exact h.normal k hk

/-- A union is made from the left table by setting entries of the right one. -/
theorem union_induction {u : Table α} {motive : Table α → Prop} (hleft : motive t)
    (hset : ∀ r k v, motive r → (k, v) ∈ u.entries → motive (r.set k v)) : motive (t.union u) := by
  unfold union
  revert hset
  generalize u.entries = entries
  induction entries generalizing t with
  | nil => exact fun _ => hleft
  | cons p rest ih =>
    intro hset
    obtain ⟨k, v⟩ := p
    refine ih ?_ fun r k' v' hr hin => hset r k' v' hr (List.mem_cons_of_mem _ hin)
    dsimp only
    split
    · exact hleft
    · exact hset t k v hleft List.mem_cons_self

theorem mem_keys_union {u : Table α} : k ∈ (t.union u).keys ↔ k ∈ t.keys ∨ k ∈ u.keys := by
  unfold union
  rw [show u.keys = Assoc.keys u.entries from rfl]
  generalize u.entries = entries
  induction entries generalizing t with
  | nil => simp [Assoc.keys]
  | cons p rest ih =>
    obtain ⟨x, v⟩ := p
    rw [List.foldl_cons, ih]
    have hkeys : k ∈ Assoc.keys ((x, v) :: rest) ↔ k = x ∨ k ∈ Assoc.keys rest := List.mem_cons
    rw [hkeys]
    dsimp only
    split
    · rename_i hin
      have hx : x ∈ t.keys := Assoc.contains_iff.1 hin
      grind
    · rw [mem_keys_set]
      grind

/-- The next key is free. -/
theorem Ordered.next_notMem (h : t.Ordered) : .int t.next ∉ t.keys := by
  intro hin
  rcases h.next with ⟨hzero, hneg⟩ | ⟨n, -, -, hmax, hnext⟩
  · have := hneg _ hin
    omega
  · have := hmax _ hin
    omega

/-- An append adds a last entry. -/
theorem Ordered.entries_append (h : t.Ordered) (v : α) :
    (t.append v).entries = t.entries ++ [(.int t.next, v)] :=
  Assoc.insert_of_notMem v h.next_notMem

end Table

namespace Value

variable {P Q : String → Prop} {v : Value} {t : Table Value}

/-- A value within which nothing is undefined, arrays are ordered, and the classes of objects have
names with `P`. -/
inductive Tidy (P : String → Prop) : Value → Prop
  | null : Tidy P .null
  | bool (b : Bool) : Tidy P (.bool b)
  | number (n : Number) : Tidy P (.number n)
  | string (s : String) : Tidy P (.string s)
  | object (handle : Int) {c : String} : P c → Tidy P (.object handle c)
  | array {t : Table Value} : t.Ordered → (∀ p ∈ t.entries, Tidy P p.2) → Tidy P (.array t)

theorem Tidy.ordered (h : Tidy P (.array t)) : t.Ordered := by
  cases h with
  | array ho _ => exact ho

theorem Tidy.entries (h : Tidy P (.array t)) : ∀ p ∈ t.entries, Tidy P p.2 := by
  cases h with
  | array _ he => exact he

theorem Tidy.set {k : Key} (h : Tidy P (.array t)) (hk : k.Normal) (hv : Tidy P v) :
    Tidy P (.array (t.set k v)) := by
  refine .array (h.ordered.set hk _) fun p hp => ?_
  rcases Assoc.mem_insert hp with rfl | hp
  · exact hv
  · exact h.entries p hp

theorem Tidy.defined (h : Tidy P v) : Tidy P v.defined := by
  cases h <;> constructor <;> assumption

theorem union_induction {u : Table Value} {motive : Table Value → Prop} (hleft : motive t)
    (hset : ∀ r p, motive r → p ∈ u.entries → motive (r.set p.1 p.2.defined)) :
    motive (union t u) := by
  refine Table.union_induction hleft fun r k v hr hin => ?_
  obtain ⟨p, hp, heq⟩ := List.mem_map.1 hin
  obtain ⟨rfl, rfl⟩ := Prod.mk.inj heq
  exact hset r p hr hp

theorem Tidy.union {u : Table Value} (ht : Tidy P (.array t)) (hu : Tidy P (.array u)) :
    Tidy P (.array (Value.union t u)) := by
  refine union_induction (motive := fun r => Tidy P (.array r)) ht fun r p hr hp => ?_
  exact hr.set (hu.ordered.normal _ (Assoc.mem_keys_of_mem hp)) (hu.entries _ hp).defined

/-- What lies under a path of a tidy value is tidy. -/
theorem Tidy.descend (h : Tidy P v) (path : List Key) (hv : v.descend path ≠ .undefined) :
    Tidy P (v.descend path) := by
  induction path generalizing v with
  | nil => simpa [Value.descend] using h
  | cons k rest ih =>
    cases v with
    | array t =>
      rw [Value.descend] at hv ⊢
      cases hk : t.get? k with
      | none => simp [hk] at hv
      | some w => exact ih (h.entries _ (Assoc.mem_of_get? hk)) (by simpa [hk] using hv)
    | _ => simp [Value.descend] at hv

/-- The classes of a tidy value are those of the objects under its paths. -/
theorem Tidy.of_objects (h : Tidy Q v)
    (hP : ∀ path handle c, v.descend path = .object handle c → P c) : Tidy P v := by
  induction h with
  | null => exact .null
  | bool b => exact .bool b
  | number n => exact .number n
  | string s => exact .string s
  | object handle _ => exact .object handle (hP [] handle _ (by rw [Value.descend]))
  | @array t ho _ ih =>
    refine .array ho fun p hp => ih p hp fun path handle c hpath => hP (p.1 :: path) handle c ?_
    rw [Value.descend, show t.get? p.1 = some p.2 from Assoc.get?_of_mem ho.nodup hp]
    exact hpath

end Value

namespace Contract

/-- Tidy values are stored under normal keys. -/
def tidy (P : String → Prop) : Contract where
  value := Value.Tidy P
  key := Key.Normal
  fault _ := True
  strict := False
  lenient _ _ := trivial
  loose _ := ⟨.number, Key.normal_int⟩
  null := .null
  bool := .bool
  number _ := .number _
  neg _ := .number _
  mod _ _ _ := .number _
  string := .string
  empty := .array Table.ordered_empty nofun
  set ht hk hv := ht.set (ht.ordered.normal_of_takes hk) hv
  replace k ht hv := by
    refine .array (ht.ordered.replace k _) fun p hp => ?_
    rcases Assoc.mem_modify hp with hp | ⟨_, -, rfl⟩
    · exact ht.entries p hp
    · exact hv
  union := .union
  entry ht hp := ht.entries _ hp
  truncate _ := Key.normal_int _
  ofString := Key.normal_ofString
  fatal _ := trivial
  operandTypes _ _ _ := trivial
  limit _ := trivial
  identical _ _ _ := trivial
  locate _ _ := trivial

end Contract

end PhpInterpreter
