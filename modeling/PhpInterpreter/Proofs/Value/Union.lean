import PhpInterpreter.Proofs.Value.Growth

/-!
The algebra of array union. The union has the entries of the left array and then those of the right
one under new keys; its counter is the larger one, since a key that is left out is behind the
counter of the left array already. So union is associative and idempotent, and the empty array is
neutral.
-/

namespace PhpInterpreter

namespace Table

variable {α : Type} {t u w : Table α} {k : Key} {v : α}

/-! ## Entries -/

theorem union_cons (t : Table α) (k : Key) (v : α) (rest : List (Key × α)) (next : Int) :
    t.union ⟨(k, v) :: rest, next⟩ =
      (if t.contains k then t else t.set k v).union ⟨rest, next⟩ := rfl

/-- The right array gives the entries whose keys the left one does not have. -/
theorem entries_union (t : Table α) (hu : u.keys.Nodup) :
    (t.union u).entries = t.entries ++ u.entries.filter fun p => decide (p.1 ∉ t.keys) := by
  obtain ⟨entries, next⟩ := u
  induction entries generalizing t with
  | nil => exact (List.append_nil _).symm
  | cons p rest ih =>
    obtain ⟨k, v⟩ := p
    obtain ⟨hfresh, hrest⟩ := List.nodup_cons.1 hu
    rw [union_cons, ih _ hrest]
    by_cases hk : k ∈ t.keys
    · have hin : t.contains k = true := Assoc.contains_iff.2 hk
      simp [hin, hk]
    · have hout : t.contains k = false := Bool.eq_false_iff.2 fun h => hk (Assoc.contains_iff.1 h)
      have hset : (t.set k v).entries = t.entries ++ [(k, v)] := Assoc.insert_of_notMem v hk
      -- The keys after the first one differ from it, so setting it excludes none of them.
      have hfilter : rest.filter (fun p => decide (p.1 ∉ (t.set k v).keys)) =
          rest.filter fun p => decide (p.1 ∉ t.keys) := by
        refine List.filter_congr fun p hp => ?_
        have hin : p.1 ∈ Assoc.keys rest := Assoc.mem_keys_of_mem hp
        have hne : p.1 ≠ k := fun h => hfresh (h ▸ hin)
        simp [mem_keys_set, hne]
      rw [hout, if_neg Bool.false_ne_true, hset, hfilter]
      simp [hk]

theorem keys_union (t : Table α) (hu : u.keys.Nodup) :
    (t.union u).keys = t.keys ++ u.keys.filter fun k => decide (k ∉ t.keys) := by
  have hfilter : u.keys.filter (fun k => decide (k ∉ t.keys)) =
      Assoc.keys (u.entries.filter fun p => decide (p.1 ∉ t.keys)) := List.filter_map
  rw [hfilter, keys, entries_union t hu]
  exact List.map_append

/-! ## Counters -/

/-- No key stands twice, and the counter is one more than the largest integer key, or zero if there
is none that is not negative. -/
structure Counted (t : Table α) : Prop where
  nodup : t.keys.Nodup
  nonneg : 0 ≤ t.next
  behind : ∀ i, .int i ∈ t.keys → i < t.next
  attained : t.next = 0 ∨ .int (t.next - 1) ∈ t.keys

theorem Ordered.counted (h : t.Ordered) : t.Counted where
  nodup := h.nodup
  nonneg := by
    rcases h.next with ⟨hzero, -⟩ | ⟨n, hn, -, -, hnext⟩
    · exact Int.le_of_eq hzero.symm
    · omega
  behind := by
    intro i hi
    rcases h.next with ⟨hzero, hneg⟩ | ⟨n, -, -, hmax, hnext⟩
    · have := hneg i hi
      omega
    · have := hmax i hi
      omega
  attained := by
    rcases h.next with ⟨hzero, -⟩ | ⟨n, -, hin, -, hnext⟩
    · exact .inl hzero
    · refine .inr ?_
      rwa [hnext, Int.add_sub_cancel]

theorem counted_empty : (empty : Table α).Counted := ordered_empty.counted

theorem le_nextAfter (n : Int) (k : Key) : n ≤ nextAfter n k := by
  cases k with
  | int i =>
    rw [nextAfter]
    split <;> omega
  | str s => exact Int.le_refl n

theorem lt_nextAfter (n i : Int) : i < nextAfter n (.int i) := by
  rw [nextAfter]
  split <;> omega

theorem nextAfter_cases (n : Int) (k : Key) :
    nextAfter n k = n ∨ ∃ i, k = .int i ∧ nextAfter n k = i + 1 := by
  cases k with
  | int i =>
    rw [nextAfter]
    split
    · exact .inr ⟨i, rfl, rfl⟩
    · exact .inl rfl
  | str s => exact .inl rfl

/-- The counter of a union is not before that of the left array, is behind all keys, and has moved
only for a key of the right array. -/
theorem next_union_cases (t u : Table α) (ht : ∀ i, .int i ∈ t.keys → i < t.next) :
    t.next ≤ (t.union u).next ∧ (∀ i, .int i ∈ (t.union u).keys → i < (t.union u).next) ∧
      ((t.union u).next = t.next ∨ ∃ i, .int i ∈ u.keys ∧ (t.union u).next = i + 1) := by
  refine union_induction (motive := fun r => t.next ≤ r.next ∧
    (∀ i, .int i ∈ r.keys → i < r.next) ∧ (r.next = t.next ∨ ∃ i, .int i ∈ u.keys ∧ r.next = i + 1))
    ⟨Int.le_refl _, ht, .inl rfl⟩ ?_
  rintro r k v ⟨hle, hbehind, hmoved⟩ hkv
  have hnext : (r.set k v).next = nextAfter r.next k := rfl
  have hgrows := le_nextAfter r.next k
  refine ⟨by omega, fun i hi => ?_, ?_⟩
  · rcases mem_keys_set.1 hi with rfl | hi
    · exact lt_nextAfter r.next i
    · have := hbehind i hi
      omega
  · rcases nextAfter_cases r.next k with hstays | ⟨i, rfl, hmoves⟩
    · rwa [hnext, hstays]
    · exact .inr ⟨i, Assoc.mem_keys_of_mem hkv, hmoves⟩

theorem Counted.next_union (ht : t.Counted) (hu : u.Counted) :
    (t.union u).next = max t.next u.next := by
  obtain ⟨hle, hbehind, hmoved⟩ := next_union_cases t u ht.behind
  have hreaches : u.next ≤ (t.union u).next := by
    rcases hu.attained with hzero | hin
    · have := ht.nonneg
      omega
    · have := hbehind _ (mem_keys_union.2 (.inr hin))
      omega
  rcases hmoved with hstays | ⟨i, hi, hmoves⟩
  · omega
  · have := hu.behind i hi
    omega

theorem Counted.union (ht : t.Counted) (u : Table α) : (t.union u).Counted where
  nodup := union_induction (motive := fun r => r.keys.Nodup) ht.nodup fun _ _ _ hr _ =>
    Assoc.nodup_keys_insert hr
  nonneg := Int.le_trans ht.nonneg (next_union_cases t u ht.behind).1
  behind := (next_union_cases t u ht.behind).2.1
  attained := by
    rcases (next_union_cases t u ht.behind).2.2 with hstays | ⟨i, hi, hmoves⟩
    · rw [hstays]
      exact ht.attained.imp_right fun h => mem_keys_union.2 (.inl h)
    · refine .inr (mem_keys_union.2 (.inr ?_))
      rwa [hmoves, Int.add_sub_cancel]

/-! ## Laws -/

theorem ext_entries {t u : Table α} (hentries : t.entries = u.entries) (hnext : t.next = u.next) :
    t = u := by
  obtain ⟨entries, next⟩ := t
  obtain ⟨entries', next'⟩ := u
  obtain rfl : entries = entries' := hentries
  obtain rfl : next = next' := hnext
  rfl

theorem Counted.union_assoc (ht : t.Counted) (hu : u.Counted) (hw : w.Counted) :
    (t.union u).union w = t.union (u.union w) := by
  have huw := hu.union w
  refine ext_entries ?_ ?_
  · have hnew : w.entries.filter (fun p => decide (p.1 ∉ (t.union u).keys)) =
        (w.entries.filter fun p => decide (p.1 ∉ u.keys)).filter
          fun p => decide (p.1 ∉ t.keys) := by
      rw [List.filter_filter]
      refine List.filter_congr fun p _ => ?_
      simp [mem_keys_union]
    calc ((t.union u).union w).entries
      _ = (t.entries ++ u.entries.filter fun p => decide (p.1 ∉ t.keys)) ++
            w.entries.filter fun p => decide (p.1 ∉ (t.union u).keys) := by
          rw [entries_union _ hw.nodup, entries_union _ hu.nodup]
      _ = t.entries ++ (u.entries ++ w.entries.filter fun p => decide (p.1 ∉ u.keys)).filter
            fun p => decide (p.1 ∉ t.keys) := by
          rw [hnew, List.append_assoc, ← List.filter_append]
      _ = (t.union (u.union w)).entries := by
          rw [entries_union _ huw.nodup, entries_union _ hw.nodup]
  · rw [(ht.union u).next_union hw, ht.next_union hu, ht.next_union huw, hu.next_union hw]
    exact Int.max_assoc ..

theorem Counted.union_self (ht : t.Counted) : t.union t = t := by
  refine ext_entries ?_ ?_
  · have hnone : t.entries.filter (fun p => decide (p.1 ∉ t.keys)) = [] := by
      rw [List.filter_eq_nil_iff]
      intro p hp
      have hin : p.1 ∈ t.keys := Assoc.mem_keys_of_mem hp
      simp [hin]
    rw [entries_union _ ht.nodup, hnone, List.append_nil]
  · rw [ht.next_union ht, Int.max_self]

theorem union_empty (t : Table α) : t.union empty = t := rfl

theorem Counted.empty_union (ht : t.Counted) : empty.union t = t := by
  refine ext_entries ?_ ?_
  · rw [entries_union _ ht.nodup]
    simp [empty, keys, Assoc.keys]
  · rw [counted_empty.next_union ht]
    exact Int.max_eq_right ht.nonneg

end Table

namespace Value

variable {t u w : Table Value}

/-- An array as programs make it: no key stands twice, the counter is behind the largest key, and
no element is undefined. -/
structure WellFormed (t : Table Value) : Prop extends t.Counted where
  defined : ∀ p ∈ t.entries, p.2 ≠ .undefined

theorem WellFormed.union_eq (t : Table Value) (hu : WellFormed u) : union t u = t.union u := by
  have hmap : u.entries.map (fun p => (p.1, p.2.defined)) = u.entries := by
    conv_rhs => rw [← List.map_id u.entries]
    exact List.map_congr_left fun p hp => Prod.ext rfl (defined_eq_self (hu.defined p hp))
  rw [union]
  exact congrArg (fun entries => t.union ⟨entries, u.next⟩) hmap

theorem WellFormed.union (ht : WellFormed t) (hu : WellFormed u) : WellFormed (union t u) where
  toCounted := hu.union_eq t ▸ ht.toCounted.union u
  defined := by
    intro p hp
    rw [hu.union_eq t, Table.entries_union t hu.nodup, List.mem_append] at hp
    rcases hp with hp | hp
    · exact ht.defined p hp
    · exact hu.defined p (List.mem_of_mem_filter hp)

/-- Union is associative and idempotent, and the empty array is neutral on both sides, down to the
order of the entries and the counters. It has the entries of the left array, then those of the right
one whose keys the left one does not have, and the larger counter. -/
theorem union_algebra (ht : WellFormed t) (hu : WellFormed u) (hw : WellFormed w) :
    union (union t u) w = union t (union u w) ∧ union t t = t ∧
    union .empty t = t ∧ union t .empty = t ∧
    (union t u).entries = t.entries ++ u.entries.filter (fun p => decide (p.1 ∉ t.keys)) ∧
    (union t u).keys = t.keys ++ u.keys.filter (fun k => decide (k ∉ t.keys)) ∧
    (union t u).next = max t.next u.next := by
  have htu := hu.union_eq t
  refine ⟨?_, ?_, ?_, Table.union_empty t, ?_, ?_, ?_⟩
  · rw [hw.union_eq, htu, (hu.union hw).union_eq, hw.union_eq]
    exact ht.toCounted.union_assoc hu.toCounted hw.toCounted
  · rw [ht.union_eq]
    exact ht.toCounted.union_self
  · rw [ht.union_eq]
    exact ht.toCounted.empty_union
  · rw [htu, Table.entries_union t hu.nodup]
  · rw [htu, Table.keys_union t hu.nodup]
  · rw [htu, ht.toCounted.next_union hu.toCounted]

/-- Three arrays that share keys pairwise, one of them with a negative key. -/
theorem union_algebra_overlapping :
    ∃ t u w : Table Value, t = ⟨[(.int 5, string "a"), (.str "k", bool true)], 6⟩ ∧
      u = ⟨[(.str "k", null), (.int (-3), int 1), (.int 7, string "b")], 8⟩ ∧
      w = ⟨[(.int 7, null), (.int 5, int 2), (.int 0, array .empty)], 8⟩ ∧
      WellFormed t ∧ WellFormed u ∧ WellFormed w ∧
      union (union t u) w = union t (union u w) ∧
      (union t u).keys = [.int 5, .str "k", .int (-3), .int 7] ∧ (union t u).next = 8 := by
  have ht : WellFormed ⟨[(.int 5, string "a"), (.str "k", bool true)], 6⟩ :=
    ⟨⟨by decide, by decide, by simp [Table.keys, Assoc.keys], .inr (by decide)⟩, by simp⟩
  have hu : WellFormed ⟨[(.str "k", null), (.int (-3), int 1), (.int 7, string "b")], 8⟩ :=
    ⟨⟨by decide, by decide, by simp [Table.keys, Assoc.keys], .inr (by decide)⟩, by simp [int]⟩
  have hw : WellFormed ⟨[(.int 7, null), (.int 5, int 2), (.int 0, array .empty)], 8⟩ :=
    ⟨⟨by decide, by decide, by simp [Table.keys, Assoc.keys], .inr (by decide)⟩, by simp [int]⟩
  obtain ⟨hassoc, -, -, -, -, hkeys, hnext⟩ := union_algebra ht hu hw
  exact ⟨_, _, _, rfl, rfl, rfl, ht, hu, hw, hassoc, hkeys.trans (by decide),
    hnext.trans (by decide)⟩

end Value

end PhpInterpreter
