import PhpInterpreter.Proofs.Scope.Cell
import PhpInterpreter.Proofs.Value.Tidy

/-!
What a value is after a write along a path of keys: the arrays on the path differ from the old ones
in the entry of the next key, which is new and last or was there before, and everything beside the
path is as it was. Where there was nothing, there are arrays now.
-/

namespace PhpInterpreter

namespace Table

variable {α : Type} {t t' : Table α} {k : Key}

/-- The table `t'` is `t` but for the entry of `k`: it has one, in its old place or last. -/
structure Differs (k : Key) (t t' : Table α) : Prop where
  keys : t'.keys = if t.contains k then t.keys else t.keys ++ [k]
  others : ∀ x, x ≠ k → t'.get? x = t.get? x

theorem differs_self (h : t.contains k = true) : t.Differs k t := ⟨by simp [h], fun _ _ => rfl⟩

theorem get?_set (k x : Key) (v : α) (t : Table α) :
    (t.set k v).get? x = if k = x then some v else t.get? x := Assoc.get?_insert ..

theorem get?_replace_of_ne {x : Key} (h : x ≠ k) (v : α) (t : Table α) :
    (t.replace k v).get? x = t.get? x :=
  (Assoc.get?_modify ..).trans (if_neg (Ne.symm h))

theorem differs_set (k : Key) (v : α) (t : Table α) : t.Differs k (t.set k v) where
  keys := Assoc.keys_insert ..
  others x hx := by rw [get?_set, if_neg (Ne.symm hx)]

theorem Differs.contains (h : t.Differs k t') : t'.contains k = true := by
  have hmem : k ∈ t'.keys := by
    rw [h.keys]
    split
    · exact Assoc.contains_iff.1 ‹_›
    · simp
  exact Assoc.contains_iff.2 hmem

theorem Differs.set (h : t.Differs k t') (v : α) : t.Differs k (t'.set k v) where
  keys := by rw [(differs_set k v t').keys, if_pos h.contains, h.keys]
  others x hx := ((differs_set k v t').others x hx).trans (h.others x hx)

theorem Differs.replace (h : t.Differs k t') (v : α) : t.Differs k (t'.replace k v) where
  keys := by rw [keys_replace, h.keys]
  others x hx := (get?_replace_of_ne hx v t').trans (h.others x hx)

end Table

namespace Value

/-- The table that a subscript finds, or that is made for it where there is nothing. -/
def table? : Value → Option (Table Value)
  | undefined | null => some .empty
  | array t => some t
  | _ => none

theorem descend_cons {v : Value} {t : Table Value} (h : v.table? = some t) (k : Key)
    (rest : List Key) :
    v.descend (k :: rest) = ((t.get? k).getD .undefined).descend rest := by
  cases v with
  | array u =>
    obtain rfl := Option.some.inj h
    rw [descend]
    cases u.get? k with
    | none => exact (descend_undefined rest).symm
    | some w => rfl
  | undefined | null =>
    obtain rfl := Option.some.inj h
    rw [descend]
    · exact (descend_undefined rest).symm
    · exact fun _ h => by cases h
  | _ => cases h

/-- Nothing and null are told apart at the end of a path only. -/
theorem descend_getD_null (v? : Option Value) {path : List Key} (h : path ≠ []) :
    (v?.getD .null).descend path = (v?.getD .undefined).descend path := by
  cases v? with
  | some v => rfl
  | none =>
    cases path with
    | nil => exact absurd rfl h
    | cons k rest => rfl

theorem table?_descend_getD_null (v? : Option Value) (path : List Key) :
    ((v?.getD .null).descend path).table? = ((v?.getD .undefined).descend path).table? := by
  cases path with
  | nil => cases v? <;> rfl
  | cons k rest => rw [descend_getD_null v? (by simp)]

/-- A write along a path turns `old` into `new`, and what it turns at the end of the path is related
by `R`. The keys are given, or left to the table, which takes its next one. -/
inductive Along (R : Value → Value → Prop) : List (Option Key) → List Key → Value → Value → Prop
  | nil {old new : Value} (h : R old new) : Along R [] [] old new
  | cons {key? : Option Key} {keys : List (Option Key)} {k : Key} {path : List Key}
      {old inner : Value} {t t' : Table Value} (hold : old.table? = some t)
      (hkey : key? = some k ∨ key? = none ∧ k = .int t.next ∧ t.contains k = false)
      (ht : t.Differs k t') (hinner : t'.get? k = some inner)
      (h : Along R keys path ((t.get? k).getD .null) inner) :
      Along R (key? :: keys) (k :: path) old (.array t')

namespace Along

variable {R S : Value → Value → Prop} {keys keys' : List (Option Key)} {path path' q : List Key}
  {old new c c' x : Value}

/-- What is found at the end of the path. -/
theorem end_related (h : Along R keys path old c) : ∃ o, R o (c.descend path) := by
  induction h with
  | @nil old new h => exact ⟨old, by rwa [descend]⟩
  | cons _ _ _ hinner _ ih =>
    obtain ⟨o, ho⟩ := ih
    exact ⟨o, by rwa [descend, hinner]⟩

theorem mono (h : Along R keys path old c) (hR : ∀ o, R o (c.descend path) → S o (c.descend path)) :
    Along S keys path old c := by
  induction h with
  | nil h => exact .nil (by simpa [descend] using hR _ (by rwa [descend]))
  | cons hold hkey ht hinner _ ih =>
    refine .cons hold hkey ht hinner (ih fun o ho => ?_)
    have := hR o (by rwa [descend, hinner])
    rwa [descend, hinner] at this

/-- A further write, at the end of the path or below it. -/
theorem setAt (h : Along R keys path old c) (hset : c.setAt? (path ++ q) x = some c')
    (hS : ∀ o w, R o (c.descend path) → (c.descend path).setAt? q x = some w → S o w) :
    Along S keys path old c' := by
  induction h generalizing c' with
  | nil h =>
    refine .nil (hS _ _ (by rwa [descend]) ?_)
    rwa [descend]
  | @cons key? keys k path old inner t t' hold hkey ht hinner hrest ih =>
    rw [descend, hinner] at hS
    have hbelow : ∀ inner', inner.setAt? (path ++ q) x = some inner' →
        Along S keys path ((t.get? k).getD .null) inner' := fun _ hset => ih hset hS
    cases hpath : path ++ q with
    | nil =>
      rw [List.cons_append, hpath] at hset
      obtain rfl : array (t'.set k x) = c' := by simpa [setAt?] using hset
      refine .cons hold hkey (ht.set x) (by rw [Table.get?_set, if_pos rfl]) (hbelow x ?_)
      rw [hpath, setAt?]
    | cons k' rest =>
      rw [List.cons_append, hpath] at hset
      simp only [setAt?, Option.bind_eq_bind, Option.bind_eq_some_iff] at hset
      obtain ⟨inner₀, hinner₀, inner', hinner', hc'⟩ := hset
      obtain rfl : inner = inner₀ := by simpa [hinner] using hinner₀
      obtain rfl : array (t'.replace k inner') = c' := by simpa using hc'
      refine .cons hold hkey (ht.replace inner') (get?_replace hinner) (hbelow inner' ?_)
      rw [hpath, hinner']

/-- One path after another. -/
theorem append (h : Along (Along R keys' path') keys path old c) :
    Along R (keys ++ keys') (path ++ path') old c := by
  induction h with
  | nil h => exact h
  | cons hold hkey ht hinner _ ih => exact .cons hold hkey ht hinner ih

theorem settable (h : Along R keys path old c) : c.Settable path := by
  intro x
  induction h with
  | nil h => simp [setAt?]
  | @cons _ _ k path _ inner _ _ _ _ _ hinner _ ih =>
    cases path with
    | nil => simp [setAt?]
    | cons k' rest =>
      obtain ⟨w, hw⟩ := Option.isSome_iff_exists.1 ih
      simp [setAt?, hinner, hw]

theorem length_eq (h : Along R keys path old c) : keys.length = path.length := by
  induction h with
  | nil => rfl
  | cons _ _ _ _ _ ih => exact congrArg (· + 1) ih

/-- The keys that are not given are integers. -/
theorem normal (h : Along R keys path old c) (hkeys : ∀ k, some k ∈ keys → k.Normal) :
    ∀ k ∈ path, k.Normal := by
  induction h with
  | nil => simp
  | cons _ hkey _ _ _ ih =>
    refine List.forall_mem_cons.2 ⟨?_, ih fun k hk => hkeys k (List.mem_cons_of_mem _ hk)⟩
    rcases hkey with rfl | ⟨-, rfl, -⟩
    · exact hkeys _ List.mem_cons_self
    · exact Key.normal_int _

/-- Beside the path nothing changes. -/
theorem descend_of_beside (h : Along R keys path old c) (hq : ¬ q <+: path) (hpath : ¬ path <+: q) :
    c.descend q = old.descend q := by
  induction h generalizing q with
  | nil => exact absurd List.nil_prefix hpath
  | @cons _ _ k path old inner t t' hold _ ht hinner _ ih =>
    cases q with
    | nil => exact absurd List.nil_prefix hq
    | cons k' q =>
      rw [descend_cons hold, descend_cons (v := array t') rfl]
      by_cases hk : k' = k
      · subst k'
        have hq' : ¬ q <+: path := fun hp => hq ((List.prefix_cons_inj k).2 hp)
        have hne : q ≠ [] := by
          rintro rfl
          exact hq' List.nil_prefix
        rw [hinner, Option.getD_some, ← descend_getD_null (t.get? k) hne]
        exact ih hq' fun hp => hpath ((List.prefix_cons_inj k).2 hp)
      · rw [ht.others k' hk]

/-- On the path there are arrays now, each with the old entries and that of the next key. -/
theorem differs {p rest : List Key} {k : Key} (h : Along R keys path old c)
    (hp : path = p ++ k :: rest) :
    ∃ t t', (old.descend p).table? = some t ∧ c.descend p = .array t' ∧ t.Differs k t' ∧
      (keys[p.length]? = some (some k) ∨
        keys[p.length]? = some none ∧ k = .int t.next ∧ t.contains k = false) := by
  induction h generalizing p with
  | nil => simp at hp
  | @cons key? _ k' path old inner t t' hold hkey ht hinner _ ih =>
    cases p with
    | nil =>
      obtain ⟨rfl, -⟩ : k' = k ∧ path = rest := by simpa using hp
      refine ⟨t, t', by rwa [descend], by rw [descend], ht, ?_⟩
      exact hkey.imp (fun h => by simp [h]) fun h => ⟨by simp [h.1], h.2⟩
    | cons k'' p =>
      obtain ⟨rfl, hpath⟩ : k' = k'' ∧ path = p ++ k :: rest := by simpa using hp
      obtain ⟨u, u', hu, hu', hdiffers, hgiven⟩ := ih hpath
      refine ⟨u, u', ?_, ?_, hdiffers, hgiven⟩
      · rw [descend_cons hold, ← table?_descend_getD_null]
        exact hu
      · rw [descend, hinner]
        exact hu'

/-! ## Down one level -/

/-- A tidy value that is as it was. -/
def Found (o n : Value) : Prop := n = o ∧ o.Tidy fun _ => True

/-- The table of a tidy value, or the one made for nothing. -/
def Opened (t : Table Value) (o n : Value) : Prop :=
  o.table? = some t ∧ n = .array t ∧ o.Tidy fun _ => True

theorem Opened.ordered {t : Table Value} {o n : Value} (h : Opened t o n) : t.Ordered := by
  obtain ⟨hold, -, htidy⟩ := h
  cases htidy with
  | array ho _ => exact Option.some.inj hold ▸ ho
  | null => exact Option.some.inj hold ▸ Table.ordered_empty
  | _ => cases hold

theorem Opened.tidy_getD {t : Table Value} {o n : Value} (h : Opened t o n) (k : Key) :
    ((t.get? k).getD .null).Tidy fun _ => True := by
  obtain ⟨hold, -, htidy⟩ := h
  cases hk : t.get? k with
  | none => exact .null
  | some w =>
    cases htidy with
    | array _ hentries => exact hentries _ (Assoc.mem_of_get? (Option.some.inj hold ▸ hk))
    | null =>
      obtain rfl := Option.some.inj hold
      cases hk
    | _ => cases hold

/-- An array is found. -/
theorem opened {t : Table Value} (h : Along Found keys path old c)
    (hc : c.descend path = .array t) : Along (Opened t) keys path old c := by
  refine h.mono fun o ho => ?_
  obtain ⟨heq, htidy⟩ := ho
  exact ⟨by rw [← heq, hc]; rfl, hc, htidy⟩

/-- Null is made an array. -/
theorem opened_empty (h : Along Found keys path old c) (hc : (c.descend path).isNull = true)
    (hset : c.setAt? path (.array .empty) = some c') : Along (Opened .empty) keys path old c' := by
  refine h.setAt (q := []) (by rwa [List.append_nil]) fun o w ho hw => ?_
  obtain ⟨heq, htidy⟩ := ho
  obtain rfl : array .empty = w := by simpa [setAt?] using hw
  rw [heq] at hc
  refine ⟨?_, rfl, htidy⟩
  cases htidy with
  | null => rfl
  | _ => cases hc

/-- The element of an array is found. -/
theorem found {t : Table Value} {k : Key} (h : Along (Opened t) keys path old c)
    (hk : t.contains k = true) : Along Found (keys ++ [some k]) (path ++ [k]) old c := by
  refine append (h.mono fun o ho => ?_)
  obtain ⟨inner, hinner⟩ := Option.isSome_iff_exists.1 (show (t.get? k).isSome = true from hk)
  rw [ho.2.1]
  refine .cons ho.1 (.inl rfl) (Table.differs_self hk) hinner (.nil ⟨?_, ho.tidy_getD k⟩)
  rw [hinner, Option.getD_some]

/-- A new element is made, with null. -/
theorem made {t : Table Value} {key? : Option Key} {k : Key} (h : Along (Opened t) keys path old c)
    (hk : t.contains k = false) (hkey : key? = some k ∨ key? = none ∧ k = .int t.next)
    (hset : c.setAt? (path ++ [k]) .null = some c') :
    Along Found (keys ++ [key?]) (path ++ [k]) old c' := by
  refine append (h.setAt hset fun o w ho hw => ?_)
  have hnone : t.get? k = none := by simpa [Table.contains, Assoc.contains, Table.get?] using hk
  rw [ho.2.1] at hw
  obtain rfl : array (t.set k .null) = w := by simpa [setAt?] using hw
  refine .cons ho.1 (hkey.imp_right fun hk' => ⟨hk'.1, hk'.2, hk⟩) (Table.differs_set k .null t)
    (by rw [Table.get?_set, if_pos rfl]) (.nil ⟨?_, ho.tidy_getD k⟩)
  rw [hnone, Option.getD_none]

/-- An append finds its key free. -/
theorem next_free {t : Table Value} (h : Along (Opened t) keys path old c) :
    t.contains (.int t.next) = false := by
  obtain ⟨o, ho⟩ := h.end_related
  have hfree : ¬ t.contains (.int t.next) = true := fun hin =>
    ho.ordered.next_notMem (Assoc.contains_iff.1 hin)
  simpa using hfree

end Along

end Value

end PhpInterpreter
