import Mathlib.Data.List.Perm.Subperm
import PhpInterpreter.Proofs.Assoc
import PhpInterpreter.Proofs.Outcome
import PhpInterpreter.Proofs.Value.Limit

/-!
Loose comparison with its operands exchanged. Between single values the order turns round, unless
one of them is not a number; between arrays it need not, since the keys of the left one lead, but
equality does not depend on the side: equal arrays have the same keys, as neither has one twice.
-/

namespace PhpInterpreter

/-! ## Numbers and texts -/

theorem signOf_swap (o : Ordering) : signOf o.swap = -signOf o := by
  cases o <;> rfl

theorem Exact.cmp_swap (x y : Exact) : (cmp x y).swap = cmp y x := by
  simp only [cmp, Int.min_comm y.exponent]
  split
  · rw [if_neg (by omega)]
    rfl
  · split <;> rfl

theorem Double.cmp?_swap (x y : Double) : (x.cmp? y).map Ordering.swap = y.cmp? x := by
  cases x with
  | finite s m e =>
    cases y with
    | finite t n f => simp [cmp?, cmpExact?, Exact.cmp_swap]
    | infinite t => cases t <;> rfl
    | nan => rfl
  | infinite s =>
    cases y with
    | finite t n f => cases s <;> rfl
    | infinite t => cases s <;> cases t <;> rfl
    | nan => rfl
  | nan => cases y <;> rfl

theorem Text.compareChars_swap (as bs : List Char) :
    (compareChars as bs).swap = compareChars bs as := by
  induction as generalizing bs with
  | nil => cases bs <;> rfl
  | cons a as ih =>
    cases bs with
    | nil => rfl
    | cons b bs => grind [compareChars, Ordering.swap]

namespace Number

theorem cmp?_swap (x y : Number) : (x.cmp? y).map Ordering.swap = y.cmp? x := by
  cases x with
  | int m =>
    cases y with
    | int n => simp [cmp?, Exact.cmp_swap]
    | float y => simp [cmp?, Function.comp_def]
  | float x =>
    cases y with
    | int n => rfl
    | float y => exact Double.cmp?_swap x y

/-- Only not-a-number has no order. -/
theorem exists_cmp? {x y : Number} (hx : x ≠ .float .nan) (hy : y ≠ .float .nan) :
    ∃ o, x.cmp? y = some o := by
  have hexact : ∀ {z : Double}, z ≠ .nan → ∀ w, ∃ o, z.cmpExact? w = some o := by
    intro z hz w
    cases z with
    | nan => exact absurd rfl hz
    | _ => exact ⟨_, rfl⟩
  have hdouble : ∀ {z : Double}, Number.float z ≠ .float .nan → z ≠ .nan := fun h => h ∘ congrArg _
  cases x with
  | int m =>
    cases y with
    | int n => exact ⟨_, rfl⟩
    | float y =>
      obtain ⟨o, ho⟩ := hexact (hdouble hy) (Exact.ofInt m)
      exact ⟨o.swap, by rw [cmp?, ho, Option.map_some]⟩
  | float x =>
    cases y with
    | int n => exact hexact (hdouble hx) _
    | float y =>
      cases y with
      | finite t n f =>
        obtain ⟨o, ho⟩ := hexact (hdouble hx) ⟨if t then -(n : Int) else n, f⟩
        exact ⟨o, by rw [cmp?, Double.cmp?, ho]⟩
      | infinite t =>
        cases x with
        | nan => exact absurd rfl hx
        | _ => exact ⟨_, rfl⟩
      | nan => exact absurd rfl hy

theorem compare_swap {x y : Number} (hx : x ≠ .float .nan) (hy : y ≠ .float .nan) :
    x.compare y = -y.compare x := by
  obtain ⟨o, ho⟩ := exists_cmp? hy hx
  rw [compare, compare, ← cmp?_swap y x, ho]
  exact signOf_swap o

theorem compare_eq_zero_iff {x y : Number} : x.compare y = 0 ↔ x.cmp? y = some .eq := by
  rw [compare]
  split
  · rename_i o ho
    rw [ho]
    cases o <;> simp [signOf]
  · rename_i ho
    simp [ho]

theorem compare_eq_zero_comm {x y : Number} : x.compare y = 0 ↔ y.compare x = 0 := by
  rw [compare_eq_zero_iff, compare_eq_zero_iff, ← cmp?_swap x y]
  rcases x.cmp? y with _ | (_ | _ | _) <;> simp

end Number

/-! ## Numeric strings -/

theorem Double.pack_ne_nan (negative : Bool) (m : Nat) (e : Int) : pack negative m e ≠ .nan := by
  unfold pack
  split <;> split <;> simp

theorem Double.ofQuotient_ne_nan (negative : Bool) (num den : Nat) :
    ofQuotient negative num den ≠ .nan := by
  unfold ofQuotient
  split
  · nofun
  · simp only [ne_eq, pack_ne_nan, not_false_eq_true]

theorem Decimal.toDouble_ne_nan (negative : Bool) (d : Decimal) : d.toDouble negative ≠ .nan := by
  unfold toDouble
  split
  · nofun
  · split
    · nofun
    · split
      · nofun
      · exact Double.ofQuotient_ne_nan _ _ _

theorem Double.ne_nan_of_ofInt? {n : Int} {x : Double} (h : ofInt? n = some x) : x ≠ .nan := by
  unfold ofInt? at h
  split at h
  · rw [← Option.some.inj h]
    nofun
  · cases h

theorem Numeral.ne_nan_of_toNumber {n : Numeral} {x : Number} (h : n.toNumber = .ok x) :
    x ≠ .float .nan := by
  rw [Numeral.toNumber] at h
  rintro rfl
  split at h
  · split at h
    · cases h
    · split at h
      · cases h
      · split at h
        · rename_i y hy
          exact Double.ne_nan_of_ofInt? hy (Number.float.inj (Except.ok.inj h))
        · cases h
  · exact Decimal.toDouble_ne_nan _ _ (Number.float.inj (Except.ok.inj h))

theorem ne_nan_of_wholeNumber? {s : String} {x : Number} (h : wholeNumber? s = .ok (some x)) :
    x ≠ .float .nan := by
  obtain ⟨r, hr, h⟩ := exists_of_bind_eq_ok h
  split at h
  · rename_i y
    obtain rfl := Option.some.inj (Except.ok.inj h)
    rw [readNumeric] at hr
    split at hr
    · cases hr
    · obtain ⟨z, hz, hr⟩ := exists_of_bind_eq_ok hr
      obtain rfl := (NumericPrefix.found.inj (Except.ok.inj hr)).1
      exact Numeral.ne_nan_of_toNumber hz
  · cases h

/-! ## Single values -/

/-- If both comparisons return, their signs are opposite. -/
def Opposite (x y : Except Crash Int) : Prop := ∀ c d, x = .ok c → y = .ok d → c = -d

/-- If both comparisons return, they find equality together. -/
def SameZero (x y : Except Crash Int) : Prop := ∀ c d, x = .ok c → y = .ok d → (c = 0 ↔ d = 0)

@[simp] theorem opposite_ok {c d : Int} : Opposite (.ok c) (.ok d) ↔ c = -d :=
  ⟨fun h => h c d rfl rfl, fun h _ _ hc hd => Except.ok.inj hc ▸ Except.ok.inj hd ▸ h⟩

@[simp] theorem sameZero_ok {c d : Int} : SameZero (.ok c) (.ok d) ↔ (c = 0 ↔ d = 0) :=
  ⟨fun h => h c d rfl rfl, fun h _ _ hc hd => Except.ok.inj hc ▸ Except.ok.inj hd ▸ h⟩

variable {x y : Except Crash Int}

theorem Opposite.symm (h : Opposite x y) : Opposite y x := by
  intro d c hd hc
  have := h c d hc hd
  omega

theorem Opposite.sameZero (h : Opposite x y) : SameZero x y := by
  intro c d hc hd
  have := h c d hc hd
  omega

theorem SameZero.symm (h : SameZero x y) : SameZero y x := fun d c hd hc => (h c d hc hd).symm

namespace Value

theorem compareBools_swap (a b : Bool) : compareBools a b = -compareBools b a := by
  cases a <;> cases b <;> rfl

/-- Two strings are compared as numbers if both are numeric, else as texts. -/
theorem compareStrings_cases {s t : String} {c : Int} (h : compareStrings s t = .ok c) :
    (∃ m n, wholeNumber? s = .ok (some m) ∧ wholeNumber? t = .ok (some n) ∧ c = m.compare n) ∨
    ((wholeNumber? s = .ok none ∨ wholeNumber? t = .ok none) ∧
      c = signOf (Text.compareChars s.toList t.toList)) := by
  obtain ⟨s?, hs, h⟩ := exists_of_bind_eq_ok h
  cases s? with
  | none => exact .inr ⟨.inl hs, (Except.ok.inj h).symm⟩
  | some m =>
    obtain ⟨t?, ht, h⟩ := exists_of_bind_eq_ok h
    cases t? with
    | none => exact .inr ⟨.inr ht, (Except.ok.inj h).symm⟩
    | some n => exact .inl ⟨m, n, hs, ht, (Except.ok.inj h).symm⟩

theorem opposite_compareStrings (s t : String) :
    Opposite (compareStrings s t) (compareStrings t s) := by
  intro c d hc hd
  rcases compareStrings_cases hc with ⟨m, n, hs, ht, rfl⟩ | ⟨htext, rfl⟩
  · rcases compareStrings_cases hd with ⟨n', m', ht', hs', rfl⟩ | ⟨htext, -⟩
    · obtain rfl : m = m' := Option.some.inj (Except.ok.inj (hs.symm.trans hs'))
      obtain rfl : n = n' := Option.some.inj (Except.ok.inj (ht.symm.trans ht'))
      exact Number.compare_swap (ne_nan_of_wholeNumber? hs) (ne_nan_of_wholeNumber? ht)
    · simp [hs, ht] at htext
  · rcases compareStrings_cases hd with ⟨n, m, ht, hs, -⟩ | ⟨-, rfl⟩
    · simp [hs, ht] at htext
    · rw [← Text.compareChars_swap t.toList, signOf_swap]

/-- A number and a string are compared as numbers, or as texts. -/
theorem compareNumberString_cases (x : Number) (s : String) :
    (∃ y, y ≠ .float .nan ∧ compareNumberString x s = .ok (x.compare y) ∧
      compareStringNumber s x = .ok (y.compare x)) ∨
    Opposite (compareNumberString x s) (compareStringNumber s x) := by
  cases hs : wholeNumber? s with
  | error e =>
    refine .inr fun c d hc _ => ?_
    obtain ⟨_, hs', -⟩ := exists_of_bind_eq_ok hc
    cases hs.symm.trans hs'
  | ok s? =>
    cases s? with
    | some y =>
      refine .inl ⟨y, ne_nan_of_wholeNumber? hs, ?_, ?_⟩
      · rw [compareNumberString, hs]
        rfl
      · rw [compareStringNumber, hs]
        rfl
    | none =>
      refine .inr ?_
      have hleft : compareNumberString x s = x.text >>= fun text => compareStrings text s := by
        rw [compareNumberString, hs]
        rfl
      have hright : compareStringNumber s x = x.text >>= fun text => compareStrings s text := by
        rw [compareStringNumber, hs]
        rfl
      rw [hleft, hright]
      intro c d hc hd
      obtain ⟨text, htext, hc⟩ := exists_of_bind_eq_ok hc
      obtain ⟨text', htext', hd⟩ := exists_of_bind_eq_ok hd
      obtain rfl := Except.ok.inj (htext.symm.trans htext')
      exact opposite_compareStrings text s c d hc hd

theorem opposite_compareNumberString {x : Number} (hx : x ≠ .float .nan) (s : String) :
    Opposite (compareNumberString x s) (compareStringNumber s x) := by
  rcases compareNumberString_cases x s with ⟨y, hy, hleft, hright⟩ | h
  · rw [hleft, hright, opposite_ok]
    exact Number.compare_swap hx hy
  · exact h

theorem compare_bool_right (a : Value) (y : Bool) :
    compare a (.bool y) = .ok (compareBools a.toBool y) := by
  cases a <;> simp [compare, compareNull, toBool]

theorem compare_undefined_right (a : Value) : compare a .undefined = compare a .null := by
  cases a <;> simp [compare, compareNull, toBool]

/-- Undefined and null are compared alike. -/
theorem compare_defined (a b : Value) : compare a.defined b.defined = compare a b := by
  cases a <;> cases b <;> simp [compare, compareNull, defined, toBool]

theorem opposite_compareNull (b : Value) : Opposite (compareNull b) (compare b .null) := by
  cases b with
  | string s =>
    rw [compareNull, compare]
    exact opposite_compareStrings "" s
  | _ =>
    simp only [compareNull, compare, opposite_ok]
    exact compareBools_swap _ _

/-- The values whose comparison depends on the truth or the text of the other side alone. -/
def isNullOrBool : Value → Bool
  | undefined | null | bool _ => true
  | _ => false

/-- Null and booleans convert the other side, whatever it is. -/
theorem opposite_of_isNullOrBool {a : Value} (h : a.isNullOrBool = true) (b : Value) :
    Opposite (compare a b) (compare b a) := by
  cases a with
  | undefined =>
    rw [compare, compare_undefined_right]
    exact opposite_compareNull b
  | null =>
    rw [compare]
    exact opposite_compareNull b
  | bool x =>
    rw [compare, compare_bool_right, opposite_ok]
    exact compareBools_swap _ _
  | _ => cases h

/-- Between these values there is an order: they are not both arrays or both objects, and neither
is not-a-number. -/
structure Ranked (a b : Value) : Prop where
  arrays : ∀ t u, a = .array t → b ≠ .array u
  objects : ∀ h c k d, a = .object h c → b ≠ .object k d
  left : a ≠ .number (.float .nan)
  right : b ≠ .number (.float .nan)

/-- The order of single values turns round when they are exchanged. -/
theorem Ranked.opposite {a b : Value} (h : Ranked a b) : Opposite (compare a b) (compare b a) := by
  have hnumber : ∀ {x : Number}, number x ≠ number (.float .nan) → x ≠ .float .nan :=
    fun h => h ∘ congrArg _
  cases a with
  | undefined | null | bool x => exact opposite_of_isNullOrBool rfl b
  | number x =>
    cases b with
    | undefined | null | bool y => exact (opposite_of_isNullOrBool rfl _).symm
    | number y =>
      rw [compare, compare, opposite_ok]
      exact Number.compare_swap (hnumber h.left) (hnumber h.right)
    | string t =>
      rw [compare, compare]
      exact opposite_compareNumberString (hnumber h.left) t
    | array u => simp [compare]
    | object k d => simp [compare]
  | string s =>
    cases b with
    | undefined | null | bool y => exact (opposite_of_isNullOrBool rfl _).symm
    | number y =>
      rw [compare, compare]
      exact (opposite_compareNumberString (hnumber h.right) s).symm
    | string t =>
      rw [compare, compare]
      exact opposite_compareStrings s t
    | array u => simp [compare]
    | object k d => simp [compare]
  | array t =>
    cases b with
    | undefined | null | bool y => exact (opposite_of_isNullOrBool rfl _).symm
    | array u => exact absurd rfl (h.arrays t u rfl)
    | _ => simp [compare]
  | object i c =>
    cases b with
    | undefined | null | bool y => exact (opposite_of_isNullOrBool rfl _).symm
    | object k d => exact absurd rfl (h.objects i c k d rfl)
    | _ => simp [compare]

/-- Not-a-number equals what its text or truth equals, from both sides. -/
theorem sameZero_nan (b : Value) :
    SameZero (compare (.number (.float .nan)) b) (compare b (.number (.float .nan))) := by
  cases b with
  | undefined | null | bool y => exact (opposite_of_isNullOrBool rfl _).symm.sameZero
  | number y =>
    rw [compare, compare, sameZero_ok]
    exact Number.compare_eq_zero_comm
  | string s =>
    rw [compare, compare]
    rcases compareNumberString_cases (.float .nan) s with ⟨y, -, hleft, hright⟩ | h
    · rw [hleft, hright, sameZero_ok]
      exact Number.compare_eq_zero_comm
    · exact h.sameZero
  | array u => simp [compare]
  | object k d => simp [compare]

theorem sameZero_of_not_arrays {a b : Value} (h : ∀ t u, a = .array t → b ≠ .array u) :
    SameZero (compare a b) (compare b a) := by
  by_cases hleft : a = .number (.float .nan)
  · exact hleft ▸ sameZero_nan b
  · by_cases hright : b = .number (.float .nan)
    · exact hright ▸ (sameZero_nan a).symm
    · by_cases hobjects : ∃ i c k d, a = .object i c ∧ b = .object k d
      · obtain ⟨i, c, k, d, rfl, rfl⟩ := hobjects
        rw [compare, compare, sameZero_ok]
        grind
      · have hother : ∀ i c k d, a = .object i c → b ≠ .object k d := fun i c k d ha hb =>
          hobjects ⟨i, c, k, d, ha, hb⟩
        exact (Ranked.mk h hother hleft hright).opposite.sameZero

/-! ## Arrays -/

/-- `P` holds of the value and of everything in its arrays. -/
inductive Throughout (P : Value → Prop) : Value → Prop
  | intro {v : Value} : P v →
      (∀ t, v = .array t → ∀ p ∈ t.entries, Throughout P p.2) → Throughout P v

theorem Throughout.self {P : Value → Prop} {v : Value} (h : v.Throughout P) : P v := by
  cases h with
  | intro hself _ => exact hself

theorem Throughout.entry {P : Value → Prop} {t : Table Value} {k : Key} {v : Value}
    (h : (array t).Throughout P) (hv : t.get? k = some v) : v.Throughout P := by
  cases h with
  | intro _ hentries => exact hentries t rfl _ (Assoc.mem_of_get? hv)

/-- If the value is an array, no key stands twice in it. -/
def DistinctKeys (v : Value) : Prop := ∀ t, v = .array t → t.keys.Nodup

theorem throughout_array {P : Value → Prop} {t : Table Value} (ht : P (array t))
    (hentries : ∀ p ∈ t.entries, p.2.Throughout P) : (array t).Throughout P :=
  .intro ht fun _ h => array.inj h ▸ hentries

theorem throughout_single {P : Value → Prop} {v : Value} (hself : P v) (hv : ∀ t, v ≠ .array t) :
    v.Throughout P :=
  .intro hself fun t h => absurd h (hv t)

theorem distinctKeys_array {t : Table Value} (h : t.keys.Nodup) : DistinctKeys (array t) :=
  fun _ ht => array.inj ht ▸ h

theorem distinctKeys_single {v : Value} (hv : ∀ t, v ≠ .array t) : DistinctKeys v :=
  fun t ht => absurd ht (hv t)

/-- Entries that are found equal have equals under their keys. -/
theorem compareEntries_eq_zero {l : List (Key × Value)} {u : Table Value}
    (h : compareEntries l u = .ok 0) :
    ∀ p ∈ l, ∃ w, u.get? p.1 = some w ∧ compare p.2 w = .ok 0 := by
  induction l with
  | nil => exact nofun
  | cons p rest ih =>
    rw [compareEntries] at h
    split at h
    · cases h
    · rename_i w hw
      obtain ⟨c, hc, h⟩ := exists_of_bind_eq_ok h
      split at h
      · rename_i hzero
        exact List.forall_mem_cons.2 ⟨⟨w, hw, hzero ▸ hc⟩, ih h⟩
      · rename_i hne
        exact absurd (Except.ok.inj h) hne

/-- Where every entry finds an equal if it is compared at all, the entries are found equal. -/
theorem eq_zero_of_compareEntries {l : List (Key × Value)} {u : Table Value} {d : Int}
    (h : compareEntries l u = .ok d)
    (hl : ∀ p ∈ l, ∃ w, u.get? p.1 = some w ∧ ∀ c, compare p.2 w = .ok c → c = 0) : d = 0 := by
  induction l with
  | nil => exact (Except.ok.inj h).symm
  | cons p rest ih =>
    obtain ⟨⟨w, hw, hzero⟩, hrest⟩ := List.forall_mem_cons.1 hl
    rw [compareEntries, hw] at h
    obtain ⟨c, hc, h⟩ := exists_of_bind_eq_ok h
    rw [if_pos (hzero c hc)] at h
    exact ih h hrest

theorem compare_arrays {t u : Table Value} {c : Int} (h : compare (.array t) (.array u) = .ok c) :
    (t.size = u.size ∧ compareEntries t.entries u = .ok c) ∨ (t.size ≠ u.size ∧ c ≠ 0) := by
  rw [compare] at h
  split at h
  · rename_i hsize
    exact .inl ⟨hsize, h⟩
  · rename_i hsize
    refine .inr ⟨hsize, ?_⟩
    obtain rfl := Except.ok.inj h
    split <;> decide

/-- Of two arrays of one size, the right one has the keys of the left one and no others. -/
theorem keys_perm_of_equal {t u : Table Value} (ht : t.keys.Nodup) (hsize : t.size = u.size)
    (h : compareEntries t.entries u = .ok 0) : t.keys.Perm u.keys := by
  have hsub : t.keys ⊆ u.keys := by
    intro k hk
    obtain ⟨p, hp, rfl⟩ := List.mem_map.1 hk
    obtain ⟨w, hw, -⟩ := compareEntries_eq_zero h p hp
    exact Assoc.mem_keys_of_get? hw
  refine (List.subperm_of_subset ht hsub).perm_of_length_le ?_
  simp only [Table.keys, Assoc.keys, List.length_map]
  exact Nat.le_of_eq hsize.symm

/-- A value that equals another one is equal to it from the other side as well. -/
theorem Throughout.equal_symm {a b : Value} {d : Int} (ha : a.Throughout DistinctKeys)
    (hab : compare a b = .ok 0) (hba : compare b a = .ok d) : d = 0 := by
  induction ha generalizing b d with
  | @intro a hkeys _ ih =>
    by_cases harrays : ∃ t u, a = .array t ∧ b = .array u
    · obtain ⟨t, u, rfl, rfl⟩ := harrays
      have hnodup := hkeys t rfl
      obtain ⟨hsize, hentries⟩ := (compare_arrays hab).resolve_right fun h => h.2 rfl
      have hperm := keys_perm_of_equal hnodup hsize hentries
      obtain ⟨-, hback⟩ := (compare_arrays hba).resolve_right fun h => h.1 hsize.symm
      refine eq_zero_of_compareEntries hback fun p hp => ?_
      obtain ⟨v, hv⟩ := Assoc.mem_keys_iff.1 (hperm.mem_iff.2 (Assoc.mem_keys_of_mem hp))
      have hmem := Assoc.mem_of_get? hv
      obtain ⟨w, hw, hvw⟩ := compareEntries_eq_zero hentries _ hmem
      obtain rfl : p.2 = w :=
        Option.some.inj ((Assoc.get?_of_mem (hperm.nodup_iff.1 hnodup) hp).symm.trans hw)
      exact ⟨v, hv, fun c hc => ih t rfl _ hmem hvw hc⟩
    · have hzero : SameZero (compare a b) (compare b a) :=
        sameZero_of_not_arrays fun t u ht hu => harrays ⟨t, u, ht, hu⟩
      exact (hzero 0 d hab hba).1 rfl

theorem applyBinary_test {a b : Value} (op : BinaryOp) (p : Int → Bool) (x : Except Crash Int)
    {c : Int} (h : applyBinary op a b = test p x) (hx : x = .ok c) :
    (applyBinary op a b).outcome = (.ok (.bool (p c)), []) := by
  rw [h, hx]
  rfl

theorem outcome_less {a b : Value} {c : Int} (h : compare a b = .ok c) :
    (applyBinary .less a b).outcome = (.ok (.bool (decide (c < 0))), []) :=
  applyBinary_test .less (decide <| · < 0) _ rfl (compare_defined a b ▸ h)

theorem outcome_equal {a b : Value} {c : Int} (h : compare a b = .ok c) :
    (applyBinary .equal a b).outcome = (.ok (.bool (c == 0)), []) :=
  applyBinary_test .equal (· == 0) _ rfl (compare_defined a b ▸ h)

theorem outcome_greater {a b : Value} {d : Int} (h : compare b a = .ok d) :
    (applyBinary .greater a b).outcome = (.ok (.bool (decide (d < 0))), []) :=
  applyBinary_test .greater (decide <| · < 0) _ rfl (compare_defined b a ▸ h)

/-- Equality of values without repeated keys is symmetric, where it can be decided from both sides.
Between values with an order the sign turns round as well, so that exactly one of the operators
`<`, `==` and `>` affirms. -/
theorem compare_exchange {a b : Value} {c d : Int} (ha : a.Throughout DistinctKeys)
    (hb : b.Throughout DistinctKeys) (hab : compare a b = .ok c) (hba : compare b a = .ok d) :
    (∃ e, looselyEquals a b = .ok e ∧ looselyEquals b a = .ok e) ∧
    (Ranked a b → c = -d ∧
      ∃ op ∈ [BinaryOp.less, .equal, .greater], ∀ op' ∈ [BinaryOp.less, .equal, .greater],
        (applyBinary op' a b).outcome = (.ok (.bool (decide (op' = op))), [])) := by
  have hzero : c = 0 ↔ d = 0 := by
    constructor
    · rintro rfl
      exact ha.equal_symm hab hba
    · rintro rfl
      exact hb.equal_symm hba hab
  constructor
  · refine ⟨c == 0, ?_, ?_⟩
    · rw [looselyEquals, hab]
      rfl
    · rw [looselyEquals, hba]
      refine congrArg Except.ok ?_
      rw [Bool.eq_iff_iff, beq_iff_eq, beq_iff_eq, hzero]
  · intro hranked
    have hopposite : c = -d := hranked.opposite c d hab hba
    refine ⟨hopposite, ?_⟩
    have hsign : (decide (c < 0) = true ∧ (c == 0) = false ∧ decide (d < 0) = false) ∨
        (decide (c < 0) = false ∧ (c == 0) = true ∧ decide (d < 0) = false) ∨
        (decide (c < 0) = false ∧ (c == 0) = false ∧ decide (d < 0) = true) := by
      simp only [decide_eq_true_eq, decide_eq_false_iff_not, beq_iff_eq, beq_eq_false_iff_ne]
      omega
    simp only [List.forall_mem_cons, List.not_mem_nil, false_imp_iff, implies_true, and_true,
      outcome_less hab, outcome_equal hab, outcome_greater hba]
    rcases hsign with ⟨hless, hequal, hgreater⟩ | ⟨hless, hequal, hgreater⟩ |
      ⟨hless, hequal, hgreater⟩
    · exact ⟨.less, by decide, by rw [hless, hequal, hgreater]; exact ⟨rfl, rfl, rfl⟩⟩
    · exact ⟨.equal, by decide, by rw [hless, hequal, hgreater]; exact ⟨rfl, rfl, rfl⟩⟩
    · exact ⟨.greater, by decide, by rw [hless, hequal, hgreater]; exact ⟨rfl, rfl, rfl⟩⟩

/-- Two arrays that list equal elements in different orders are equal from both sides; of two
numeric strings the one with the smaller number is less. -/
theorem compare_exchange_samples :
    (∃ a b : Value,
      a = array ⟨[(.str "x", string "1e1"), (.int 0, array ⟨[(.int 0, null)], 1⟩)], 1⟩ ∧
      b = array ⟨[(.int 0, array ⟨[(.int 0, bool false)], 1⟩), (.str "x", int 10)], 1⟩ ∧
      a.Throughout DistinctKeys ∧ b.Throughout DistinctKeys ∧
      compare a b = .ok 0 ∧ compare b a = .ok 0 ∧
      ∃ e, looselyEquals a b = .ok e ∧ looselyEquals b a = .ok e) ∧
    Ranked (string "9") (string "10") ∧ compare (string "9") (string "10") = .ok (-1) ∧
    compare (string "10") (string "9") = .ok 1 ∧
    ∃ op ∈ [BinaryOp.less, .equal, .greater], ∀ op' ∈ [BinaryOp.less, .equal, .greater],
      (applyBinary op' (string "9") (string "10")).outcome =
        (.ok (.bool (decide (op' = op))), []) := by
  have hsingle : ∀ {v : Value}, (∀ t, v ≠ .array t) → v.Throughout DistinctKeys := fun hv =>
    throughout_single (distinctKeys_single hv) hv
  have harray : ∀ {t : Table Value}, t.keys.Nodup → (∀ p ∈ t.entries, p.2.Throughout DistinctKeys) →
      (array t).Throughout DistinctKeys := fun ht => throughout_array (distinctKeys_array ht)
  constructor
  · have hnull : (array ⟨[(.int 0, null)], 1⟩).Throughout DistinctKeys :=
      harray (by decide) (List.forall_mem_singleton.2 (hsingle (by simp)))
    have hfalse : (array ⟨[(.int 0, bool false)], 1⟩).Throughout DistinctKeys :=
      harray (by decide) (List.forall_mem_singleton.2 (hsingle (by simp)))
    have ha := harray (t := ⟨[(.str "x", string "1e1"), (.int 0, _)], 1⟩) (by decide)
      (List.forall_mem_cons.2 ⟨hsingle (by simp), List.forall_mem_singleton.2 hnull⟩)
    have hb := harray (t := ⟨[(.int 0, _), (.str "x", int 10)], 1⟩) (by decide)
      (List.forall_mem_cons.2 ⟨hfalse, List.forall_mem_singleton.2 (hsingle (by simp [int]))⟩)
    exact ⟨_, _, rfl, rfl, ha, hb, rfl, rfl, (compare_exchange ha hb (c := 0) (d := 0) rfl rfl).1⟩
  · have hranked : Ranked (string "9") (string "10") := ⟨nofun, nofun, nofun, nofun⟩
    have hless : compare (string "9") (string "10") = .ok (-1) := rfl
    have hgreater : compare (string "10") (string "9") = .ok 1 := rfl
    have hexchange := compare_exchange (hsingle (by simp)) (hsingle (by simp)) hless hgreater
    exact ⟨hranked, hless, hgreater, (hexchange.2 hranked).2⟩

end Value

end PhpInterpreter
