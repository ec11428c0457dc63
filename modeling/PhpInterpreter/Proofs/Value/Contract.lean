import PhpInterpreter.Proofs.Assoc
import PhpInterpreter.Proofs.Outcome
import PhpInterpreter.Proofs.Value.Format
import PhpInterpreter.Proofs.Value.Limit

/-!
Contracts on values. A contract says which values may be stored, which keys arrays may have and with
which faults a computation may stop; it is closed under what the operators do, so that conversions,
operators and updates of arrays stay within it.
-/

namespace PhpInterpreter

/-- A table takes the keys with `P`, its next key and the keys it has. -/
def Table.Takes {α : Type} (P : Key → Prop) (t : Table α) (k : Key) : Prop :=
  P k ∨ k = .int t.next ∨ k ∈ t.keys

namespace Value

theorem descend_undefined (path : List Key) : undefined.descend path = undefined := by
  cases path with
  | nil => rw [descend]
  | cons => rw [descend]; exact fun _ h => by cases h

theorem descend_append (v : Value) (path rest : List Key) :
    v.descend (path ++ rest) = (v.descend path).descend rest := by
  induction path generalizing v with
  | nil => rw [List.nil_append, descend]
  | cons k path ih =>
    cases v with
    | array t =>
      rw [List.cons_append, descend, descend]
      cases t.get? k with
      | none => exact (descend_undefined rest).symm
      | some w => exact ih w
    | _ => simp [descend, descend_undefined]

/-- Only arrays have something in them. -/
theorem exists_table_of_descend {v : Value} {path : List Key} {t : Table Value}
    (h : v.descend path = .array t) : ∃ u, v = .array u := by
  cases path with
  | nil => exact ⟨t, by rwa [descend] at h⟩
  | cons k rest =>
    cases v with
    | array u => exact ⟨u, rfl⟩
    | _ => simp [descend] at h

end Value

structure Contract where
  value : Value → Prop
  key : Key → Prop
  fault : Fault → Prop
  /-- Whether trees have to be complete and environments consistent, so that views show what is
  stored; if not, every fault, every number and every integer key is allowed. -/
  strict : Prop
  lenient : ¬ strict → ∀ f, fault f
  loose : ¬ strict → (∀ n, value (.number n)) ∧ ∀ n, key (.int n)
  null : value .null
  bool : ∀ b, value (.bool b)
  number : ∀ {n}, n.InFormat → value (.number n)
  neg : ∀ {x}, value (.float x) → value (.float x.neg)
  mod : ∀ {x y : Number}, value (.number x) → value (.number y) → y.truncate ≠ 0 →
    value (.int (x.mod y))
  string : ∀ s, value (.string s)
  empty : value (.array .empty)
  set : ∀ {t k v}, value (.array t) → t.Takes key k → value v → value (.array (t.set k v))
  replace : ∀ {t v} (k : Key), value (.array t) → value v → value (.array (t.replace k v))
  union : ∀ {t u}, value (.array t) → value (.array u) → value (.array (Value.union t u))
  entry : ∀ {t k v}, value (.array t) → (k, v) ∈ t.entries → value v
  truncate : ∀ {n : Number}, value (.number n) → key (.int n.truncate)
  ofString : ∀ {s k}, Key.ofString s = .ok k → key k
  fatal : ∀ e, fault (.fatal e)
  operandTypes : ∀ l o r, fault (.ofCause (.operandTypes l o r))
  limit : ∀ {c : Crash}, c.IsLimit → fault (.crash c)
  identical : ∀ {a b c}, value a → value b → Value.identical a b = .error c → fault (.crash c)
  locate : ∀ {f} (p : Place), fault f → fault (f.locate p)

namespace Contract

variable {K : Contract} {v w : Value} {t u : Table Value}

/-- What can be read: a value that may be stored, or nothing. -/
def read (K : Contract) (v : Value) : Prop := v = .undefined ∨ K.value v

theorem read_undefined (K : Contract) : K.read .undefined := .inl rfl

theorem value_defined (h : K.read v) : K.value v.defined := by
  rcases h with rfl | h
  · exact K.null
  · cases v with
    | undefined => exact K.null
    | _ => exact h

theorem value_array (h : K.read (.array t)) : K.value (.array t) := h.resolve_left nofun

theorem value_number {n : Number} (h : K.read (.number n)) : K.value (.number n) :=
  h.resolve_left nofun

theorem key_empty (K : Contract) : K.key (.str "") :=
  K.ofString (show Key.ofString "" = .ok (.str "") from by decide)

theorem key_int {n : Int} (h : fits n = true) : K.key (.int n) :=
  K.truncate (n := .int n) (K.number h)

theorem fault_of_strict {f : Fault} (h : K.strict → K.fault f) : K.fault f := by
  by_cases hs : K.strict
  · exact h hs
  · exact K.lenient hs f

/-! ## Arrays -/

theorem read_get? {k : Key} (ht : K.value (.array t)) (h : t.get? k = some v) : K.read v :=
  .inr (K.entry ht (Assoc.mem_of_get? h))

theorem read_descend (h : K.read v) (path : List Key) : K.read (v.descend path) := by
  induction path generalizing v with
  | nil => simpa [Value.descend] using h
  | cons k rest ih =>
    cases v with
    | array t =>
      rw [Value.descend]
      cases hk : t.get? k with
      | none => exact K.read_undefined
      | some w => exact ih (read_get? (value_array h) hk)
    | _ => exact K.read_undefined

/-- The last key of the path is one that the table there takes. -/
def Leads (K : Contract) (v : Value) (path : List Key) : Prop :=
  ∀ above k t, path = above ++ [k] → v.descend above = .array t → t.Takes K.key k

theorem leads_of_keys {path : List Key} (h : ∀ k ∈ path, K.key k) (v : Value) : K.Leads v path := by
  rintro above k t rfl -
  exact .inl (h k (by simp))

theorem leads_of_key {path : List Key} {k : Key} (h : K.key k) (v : Value) :
    K.Leads v (path ++ [k]) := by
  intro above k' t heq _
  obtain ⟨-, rfl⟩ : path = above ∧ k = k' := by simpa using heq
  exact .inl h

theorem leads_next {path : List Key} (h : v.descend path = .array t) :
    K.Leads v (path ++ [.int t.next]) := by
  intro above k u heq hu
  obtain ⟨rfl, rfl⟩ : path = above ∧ Key.int t.next = k := by simpa using heq
  obtain rfl : t = u := Value.array.inj (h.symm.trans hu)
  exact .inr (.inl rfl)

/-- An element that is there can be set. -/
theorem leads_of_found {path : List Key} {k : Key} (h : v.descend (path ++ [k]) ≠ .undefined) :
    K.Leads v (path ++ [k]) := by
  intro above k' u heq hu
  obtain ⟨rfl, rfl⟩ : path = above ∧ k = k' := by simpa using heq
  refine .inr (.inr (Assoc.contains_iff.1 ?_))
  rw [Value.descend_append, hu, Value.descend] at h
  cases hget : u.get? k with
  | none => simp [hget] at h
  | some w => exact Option.isSome_iff_exists.2 ⟨w, hget⟩

theorem Leads.below {above rest : List Key} (h : K.Leads w (above ++ rest))
    (hv : ∀ t, v = .array t → w.descend above = .array t) : K.Leads v rest := by
  intro inner k t hrest ht
  refine h (above ++ inner) k t (by rw [hrest, List.append_assoc]) ?_
  obtain ⟨u, hu⟩ := Value.exists_table_of_descend ht
  rw [Value.descend_append, hv u hu, ← hu, ht]

theorem value_setAt? {path : List Key} {new : Value} (h : K.read v) (hpath : K.Leads v path)
    (hnew : K.value new) (hset : v.setAt? path new = some w) : K.value w := by
  induction path generalizing v w with
  | nil =>
    obtain rfl : new = w := by simpa [Value.setAt?] using hset
    exact hnew
  | cons k rest ih =>
    cases v with
    | array t =>
      have ht := value_array h
      cases rest with
      | nil =>
        obtain rfl : Value.array (t.set k new) = w := by simpa [Value.setAt?] using hset
        exact K.set ht (hpath [] k t rfl (by rw [Value.descend])) hnew
      | cons k' rest =>
        simp only [Value.setAt?, Option.bind_eq_bind, Option.bind_eq_some_iff] at hset
        obtain ⟨inner, hinner, inner', hinner', hw⟩ := hset
        obtain rfl : Value.array (t.replace k inner') = w := by simpa using hw
        have hfrom : K.Leads (.array t) ([k] ++ k' :: rest) := hpath
        have hbelow : K.Leads inner (k' :: rest) :=
          hfrom.below fun u hu => by simp [Value.descend, hinner, hu]
        exact K.replace k ht (ih (read_get? ht hinner) hbelow hinner')
    | _ => simp [Value.setAt?] at hset

theorem value_append (ht : K.value (.array t)) (hv : K.value v) : K.value (.array (t.append v)) :=
  K.set ht (.inr (.inl rfl)) hv

/-! ## Conversions and operators -/

/-- The computation returns with `P` or stops with an allowed fault. -/
def Notes {α : Type} (K : Contract) (act : Noting α) (P : α → Prop) : Prop :=
  ∀ rs, Ends act rs (fun a _ => P a) fun f _ => K.fault f

section

variable {α β : Type} {P : α → Prop} {Q : β → Prop} {act : Noting α}

theorem notes_pure {a : α} (h : P a) : K.Notes (pure a) P := fun _ => h

theorem notes_fatal (e : Fatal) : K.Notes (Noting.fatal e) P := fun _ => K.fatal e

theorem notes_remark (r : Remark) {P : Unit → Prop} (h : P ()) : K.Notes (Noting.remark r) P :=
  fun _ => h

theorem notes_mention {quiet : Bool} {r : Except Crash Remark} (h : Limited (fun _ => True) r) :
    K.Notes (Noting.mention quiet r) fun _ => True := by
  unfold Noting.mention
  split
  · exact notes_pure trivial
  · cases r with
    | ok r => exact notes_remark r trivial
    | error c => exact fun _ => K.limit h

theorem Notes.bind {f : α → Noting β} (h : K.Notes act P) (hf : ∀ a, P a → K.Notes (f a) Q) :
    K.Notes (act >>= f) Q := by
  intro rs
  rw [ends_bind]
  exact (h rs).mono (fun a t ha => hf a ha t) fun _ _ h => h

theorem notes_lift {x : Except Crash α} (h : Limited P x) : K.Notes (Value.lift x) P := by
  intro rs
  cases x with
  | ok a => exact h
  | error c => exact K.limit h

end

theorem notes_toKey (hv : K.read v) : K.Notes v.toKey K.key := by
  cases v with
  | undefined => exact notes_pure K.key_empty
  | bool b =>
    refine notes_pure (key_int ?_)
    cases b <;> decide
  | number n => exact notes_pure (K.truncate (value_number hv))
  | string s =>
    have hlimited := limited_ofString s
    intro rs
    simp only [Value.toKey]
    cases hk : Key.ofString s with
    | ok k => exact K.ofString hk
    | error c =>
      rw [hk] at hlimited
      exact K.limit hlimited
  | null | array t | object h c =>
    exact (notes_remark (P := fun _ => True) _ trivial).bind fun _ _ => notes_pure K.key_empty

theorem notes_toText (v : Value) : K.Notes v.toText fun _ => True := by
  cases v with
  | undefined | null | bool b | string s => exact notes_pure trivial
  | number n => exact notes_lift (limited_text n)
  | array t =>
    exact (notes_remark (P := fun _ => True) _ trivial).bind fun _ _ => notes_pure trivial
  | object h c => exact notes_fatal _

/-- A number that is a value of the contract. -/
def num (K : Contract) (n : Number) : Prop := K.value (.number n)

theorem num_int {n : Int} (h : fits n = true) : K.num (.int n) := K.number h

theorem notes_toNumber (hv : K.read v) : K.Notes v.toNumber K.num := by
  cases v with
  | undefined | null => exact notes_pure (num_int (by decide))
  | bool b =>
    refine notes_pure (num_int ?_)
    cases b <;> decide
  | number n => exact notes_pure (value_number hv)
  | array t =>
    refine notes_pure (num_int ?_)
    split <;> decide
  | object h c => exact notes_pure (num_int (by decide))
  | string s =>
    have hlimited := limited_readNumeric s
    intro rs
    simp only [Value.toNumber]
    cases hn : readNumeric s with
    | error c =>
      rw [hn] at hlimited
      exact K.limit hlimited
    | ok p =>
      cases p with
      | absent => exact num_int (by decide)
      | found n whole =>
        have hnum : K.num n := K.number (Number.inFormat_readNumeric hn)
        cases whole <;> exact hnum

theorem notes_inRange {n? : Option Number} (h : ∀ n, n? = some n → n.InFormat) :
    K.Notes (Value.inRange n?) K.value := by
  cases n? with
  | some n => exact notes_pure (K.number (h n rfl))
  | none => exact fun _ => K.limit (.inl rfl)

theorem notes_compute (op : BinaryOp) {x y : Number} (hx : K.num x) (hy : K.num y) :
    K.Notes (Value.compute op x y) K.value := by
  unfold Value.compute
  split
  · exact notes_inRange fun _ => Number.inFormat_combine Double.inFormat_add
  · exact notes_inRange fun _ => Number.inFormat_combine fun _ _ => Double.inFormat_add _ _
  · exact notes_inRange fun _ => Number.inFormat_combine Double.inFormat_mul
  · split
    · exact notes_fatal _
    · exact notes_inRange fun _ => Number.inFormat_div
  · split
    · exact notes_fatal _
    · rename_i hzero
      exact notes_pure (K.mod hx hy hzero)
  · exact notes_pure (K.number (Number.inFormat_power _ _))

theorem notes_arithmetic (op : BinaryOp) (hv : K.value v) (hw : K.value w) :
    K.Notes (Value.arithmetic op v w) K.value := by
  unfold Value.arithmetic
  split
  · split
    · exact notes_pure (K.union hv hw)
    · exact fun _ => K.operandTypes ..
  · refine (notes_toNumber (.inr hv)).bind fun x hx => ?_
    exact (notes_toNumber (.inr hw)).bind fun y hy => notes_compute op hx hy

theorem notes_test (p : Int → Bool) {c : Except Crash Int} {P : Int → Prop} (h : Limited P c) :
    K.Notes (Value.test p c) K.value :=
  (notes_lift h).bind fun _ _ => notes_pure (K.bool _)

theorem fits_of_isSign {c : Int} (h : IsSign c) : fits c = true := by
  rcases h with rfl | rfl | rfl <;> decide

theorem notes_identical (hv : K.value v) (hw : K.value w) :
    K.Notes (Value.lift (Value.identical v w)) fun _ => True := by
  intro rs
  cases h : Value.identical v w with
  | ok b => trivial
  | error c => exact K.identical hv hw h

theorem notes_combine (op : BinaryOp) (hv : K.value v) (hw : K.value w) :
    K.Notes (Value.combine op v w) K.value := by
  have hc := Value.limited_compare v w
  have hc' := Value.limited_compare w v
  cases op with
  | concat =>
    exact (notes_toText v).bind fun _ _ => (notes_toText w).bind fun _ _ => notes_pure (K.string _)
  | equal | notEqual | differs | less | lessOrEqual => exact notes_test _ hc
  | greater | greaterOrEqual => exact notes_test _ hc'
  | identical | notIdentical => exact (notes_identical hv hw).bind fun _ _ => notes_pure (K.bool _)
  | spaceship => exact (notes_lift hc).bind fun _ hc => notes_pure (num_int (fits_of_isSign hc))
  | and | or | lowAnd | lowOr | lowXor => exact notes_pure (K.bool _)
  | coalesce =>
    refine notes_pure ?_
    split
    · exact hw
    · exact hv
  | add | sub | mul | div | mod | pow => exact notes_arithmetic _ hv hw

theorem notes_applyBinary (op : BinaryOp) (hv : K.read v) (hw : K.read w) :
    K.Notes (Value.applyBinary op v w) K.value :=
  notes_combine op (value_defined hv) (value_defined hw)

theorem num_fit {x : Number} (h : K.num x) : K.num x.fit := by
  cases x with
  | int n => exact K.number (Number.inFormat_fit_int n)
  | float y => exact h

theorem num_neg_fit {x : Number} (h : K.num x) : K.num x.neg.fit := by
  cases x with
  | int n => exact K.number (Number.inFormat_fit_int (-n))
  | float y => exact K.neg h

theorem notes_applyUnary (op : UnaryOp) (hv : K.read v) :
    K.Notes (Value.applyUnary op v) K.value := by
  have hnumber : K.Notes v.defined.toNumber K.num := notes_toNumber (.inr (value_defined hv))
  cases op with
  | not => exact notes_pure (K.bool _)
  | plus =>
    simp only [Value.applyUnary]
    split
    · exact fun _ => K.operandTypes ..
    · exact hnumber.bind fun _ hn => notes_pure (num_fit hn)
  | minus =>
    simp only [Value.applyUnary]
    split
    · exact fun _ => K.operandTypes ..
    · exact hnumber.bind fun _ hn => notes_pure (num_neg_fit hn)

theorem notes_charAt (quiet : Bool) (s : String) (k : Key) :
    K.Notes (Value.charAt quiet s k) K.read := by
  have hmissing : ∀ n : Int, K.Notes (do
      Noting.mention quiet ((integerText n).map .missingCharacter)
      return Value.undefined) K.read := fun n =>
    (notes_mention ((limited_integerText n).map fun _ _ => trivial)).bind fun _ _ =>
      notes_pure K.read_undefined
  unfold Value.charAt
  cases k with
  | int n =>
    refine (notes_pure (P := fun _ => True) trivial).bind fun offset _ => ?_
    dsimp only
    split
    · exact notes_pure (.inr (K.string _))
    · exact hmissing offset
  | str t =>
    refine (notes_remark (P := fun _ => True) _ trivial).bind fun _ _ => ?_
    refine (notes_pure (P := fun _ => True) trivial).bind fun offset _ => ?_
    dsimp only
    split
    · exact notes_pure (.inr (K.string _))
    · exact hmissing offset

end Contract

end PhpInterpreter
