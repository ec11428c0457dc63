import PhpInterpreter.Proofs.Value.Comparison
import PhpInterpreter.Proofs.Value.Identity

/-!
Identity is an equivalence. Two values are identical if they match: they are the same but for the
representation of a number and, in arrays, have the same keys in one order with identical values
under them. Identical values are equal, where equality can be decided.
-/

namespace PhpInterpreter

/-! ## Numbers of one value -/

namespace Exact

theorem scaledTo_mul {x : Exact} {e f : Int} (hfe : f ≤ e) (hx : e ≤ x.exponent) :
    x.scaledTo f = x.scaledTo e * (2 ^ (e - f).toNat : Nat) := by
  have hsplit : (x.exponent - f).toNat = (x.exponent - e).toNat + (e - f).toNat := by omega
  rw [scaledTo, scaledTo, Nat.one_shiftLeft, Nat.one_shiftLeft, hsplit, Nat.pow_add, Int.mul_assoc,
    Int.natCast_mul]

/-- Two exact values may be compared over every power of two that is not above theirs. -/
theorem cmp_eq_eq_iff {x y : Exact} {e : Int} (hx : e ≤ x.exponent) (hy : e ≤ y.exponent) :
    cmp x y = .eq ↔ x.scaledTo e = y.scaledTo e := by
  have hmin : cmp x y = .eq ↔
      x.scaledTo (min x.exponent y.exponent) = y.scaledTo (min x.exponent y.exponent) := by
    simp only [cmp]
    split
    · simp only [reduceCtorEq, false_iff]
      omega
    · split
      · simp only [reduceCtorEq, false_iff]
        omega
      · simp only [true_iff]
        omega
  have hle : e ≤ min x.exponent y.exponent := Int.le_min.2 ⟨hx, hy⟩
  have hpos : ((2 ^ (min x.exponent y.exponent - e).toNat : Nat) : Int) ≠ 0 :=
    Int.natCast_ne_zero.2 (Nat.ne_of_gt (Nat.two_pow_pos _))
  rw [hmin, scaledTo_mul hle (Int.min_le_left _ _), scaledTo_mul hle (Int.min_le_right _ _),
    Int.mul_eq_mul_right_iff hpos]

theorem cmp_self (x : Exact) : cmp x x = .eq := by
  simp [cmp]

theorem cmp_trans {x y z : Exact} (hxy : cmp x y = .eq) (hyz : cmp y z = .eq) : cmp x z = .eq := by
  obtain ⟨e, hx, hy, hz⟩ : ∃ e, e ≤ x.exponent ∧ e ≤ y.exponent ∧ e ≤ z.exponent :=
    ⟨min x.exponent (min y.exponent z.exponent), by omega, by omega, by omega⟩
  rw [cmp_eq_eq_iff hx hy] at hxy
  rw [cmp_eq_eq_iff hy hz] at hyz
  rw [cmp_eq_eq_iff hx hz, hxy, hyz]

end Exact

namespace Double

variable {x y z : Double}

theorem cmp?_self (h : x ≠ .nan) : x.cmp? x = some .eq := by
  cases x with
  | finite s m e => exact congrArg some (Exact.cmp_self _)
  | infinite s => simp [cmp?]
  | nan => exact absurd rfl h

theorem eq_infinite_of_cmp? {s : Bool} (h : (infinite s).cmp? y = some .eq) : y = infinite s := by
  cases y with
  | finite t n f => cases s <;> cases h
  | infinite t => cases s <;> cases t <;> first | rfl | cases h
  | nan => cases h

theorem exists_of_cmp?_finite {s : Bool} {m : Nat} {e : Int}
    (h : (finite s m e).cmp? y = some .eq) : ∃ t n f, y = finite t n f := by
  cases y with
  | finite t n f => exact ⟨t, n, f, rfl⟩
  | infinite t => cases t <;> cases h
  | nan => cases h

theorem cmp?_trans (hxy : x.cmp? y = some .eq) (hyz : y.cmp? z = some .eq) :
    x.cmp? z = some .eq := by
  cases x with
  | finite s m e =>
    obtain ⟨t, n, f, rfl⟩ := exists_of_cmp?_finite hxy
    obtain ⟨u, k, g, rfl⟩ := exists_of_cmp?_finite hyz
    exact congrArg some (Exact.cmp_trans (Option.some.inj hxy) (Option.some.inj hyz))
  | infinite s =>
    obtain rfl := eq_infinite_of_cmp? hxy
    obtain rfl := eq_infinite_of_cmp? hyz
    exact cmp?_self nofun
  | nan => cases y <;> cases hxy

end Double

namespace Number

/-- Both integers or both doubles, of one value. -/
def Same : Number → Number → Prop
  | int m, int n => m = n
  | float x, float y => x.cmp? y = some .eq
  | _, _ => False

variable {x y z : Number}

theorem same_self (h : x ≠ .float .nan) : Same x x := by
  cases x with
  | int m => exact rfl
  | float x => exact Double.cmp?_self (h ∘ congrArg _)

theorem Same.symm (h : Same x y) : Same y x := by
  cases x with
  | int m =>
    cases y with
    | int n => exact h.symm
    | float y => exact h
  | float x =>
    cases y with
    | int n => exact h
    | float y =>
      rw [Same, ← Double.cmp?_swap x y, show x.cmp? y = some .eq from h]
      rfl

theorem Same.trans (hxy : Same x y) (hyz : Same y z) : Same x z := by
  cases y with
  | int n =>
    cases x with
    | int m =>
      cases z with
      | int k => exact Eq.trans hxy hyz
      | float z => exact hyz
    | float x => exact hxy.elim
  | float y =>
    cases x with
    | int m => exact hxy.elim
    | float x =>
      cases z with
      | int k => exact hyz
      | float z => exact Double.cmp?_trans hxy hyz

theorem Same.cmp? (h : Same x y) : x.cmp? y = some .eq := by
  cases x with
  | int m =>
    cases y with
    | int n =>
      obtain rfl : m = n := h
      exact congrArg some (Exact.cmp_self _)
    | float y => exact h.elim
  | float x =>
    cases y with
    | int n => exact h.elim
    | float y => exact h

end Number

namespace Value

theorem identical_numbers {x y : Number} :
    identical (number x) (number y) = .ok true ↔ Number.Same x y := by
  rw [identical]
  cases x with
  | int m =>
    cases y with
    | int n =>
      have hexact : Exact.cmp (Exact.ofInt m) (Exact.ofInt n) = .eq ↔ m = n := by
        rw [Exact.cmp_eq_eq_iff (e := 0) (Int.le_refl 0) (Int.le_refl 0)]
        simp [Exact.scaledTo, Exact.ofInt]
      simp [typeName, Number.cmp?, hexact, Number.Same]
    | float y => simp [typeName, Number.Same]
  | float x =>
    cases y with
    | int n => simp [typeName, Number.Same]
    | float y => simp [typeName, Number.Same, Number.cmp?]

/-! ## Arrays -/

/-- Entries under the same keys are identical if the values under each key are. -/
theorem identicalEntries_iff {l r : List (Key × Value)} (hkeys : Assoc.keys l = Assoc.keys r)
    (hnodup : (Assoc.keys l).Nodup) :
    identicalEntries l r = .ok true ↔
      ∀ k v w, Assoc.get? k l = some v → Assoc.get? k r = some w → identical v w = .ok true := by
  induction l generalizing r with
  | nil =>
    rw [identicalEntries]
    · exact ⟨fun _ _ _ _ h => (by cases h), fun _ => rfl⟩
    · exact nofun
  | cons p rest ih =>
    obtain ⟨k, v⟩ := p
    cases r with
    | nil => cases hkeys
    | cons q rest' =>
      obtain ⟨k', w⟩ := q
      obtain ⟨rfl, htail⟩ := List.cons.inj hkeys
      obtain ⟨hfresh, hnodup⟩ := List.nodup_cons.1 hnodup
      have hsplit : identicalEntries ((k, v) :: rest) ((k, w) :: rest') = .ok true ↔
          identical v w = .ok true ∧ identicalEntries rest rest' = .ok true := by
        rw [identicalEntries]
        rcases identical v w with _ | (_ | _) <;> simp [bind, Except.bind, pure, Except.pure]
      rw [hsplit, ih htail hnodup]
      constructor
      · rintro ⟨hfirst, hrest⟩ k' v' w' hv hw
        rw [Assoc.get?_cons] at hv hw
        split at hv
        · rename_i heq
          rw [if_pos heq] at hw
          rwa [← Option.some.inj hv, ← Option.some.inj hw]
        · rename_i hne
          rw [if_neg hne] at hw
          exact hrest k' v' w' hv hw
      · intro hall
        refine ⟨hall k v w (by simp) (by simp), fun k' v' w' hv hw => ?_⟩
        -- The first key is not among the others, so each of them is looked up past it.
        have hne : k ≠ k' := by
          rintro rfl
          exact hfresh (Assoc.mem_keys_of_get? hv)
        exact hall k' v' w' (by simpa [hne] using hv) (by simpa [hne] using hw)

/-- What identity comes to: the same null, boolean, text or object, numbers of one value, arrays
with the same keys in one order and identical values under them. -/
inductive Matches : Value → Value → Prop
  | null {a b : Value} : a.isNull = true → b.isNull = true → Matches a b
  | bool (x : Bool) : Matches (bool x) (bool x)
  | number {x y : Number} : Number.Same x y → Matches (number x) (number y)
  | string (s : String) : Matches (string s) (string s)
  | array {t u : Table Value} : t.keys = u.keys →
      (∀ k v w, t.get? k = some v → u.get? k = some w → identical v w = .ok true) →
      Matches (array t) (array u)
  | object (h : Int) (c : String) : Matches (object h c) (object h c)

/-- A value that can be told apart from others: it is a number if it is a double, the class of an
object does not have the name of a built-in type, and no key stands twice in an array. -/
structure Discernible (v : Value) : Prop where
  number : v ≠ .number (.float .nan)
  className : ∀ h c, v = .object h c → c ∉ typeNames
  keys : DistinctKeys v

variable {a b c : Value}

/-- Values that are not alike have different types. -/
theorem Discernible.identical_unlike (ha : a.Discernible) (hb : b.Discernible)
    (h : alike a b = false) : identical a b = .ok false := by
  rw [identical_of_unlike h, otherTypes, if_neg]
  intro hname
  obtain ⟨k, d, hobject, hmem⟩ := exists_object_of_unlike h hname
  rcases hobject with rfl | rfl
  · exact ha.className k d rfl hmem
  · exact hb.className k d rfl hmem

theorem Matches.alike (h : Matches a b) : alike a b = true := by
  cases h with
  | null ha hb => cases a <;> cases ha <;> cases b <;> cases hb <;> rfl
  | _ => rfl

theorem Discernible.identical_iff (ha : a.Discernible) (hb : b.Discernible) :
    identical a b = .ok true ↔ Matches a b := by
  by_cases hlike : a.alike b = true
  · match a, b with
    | .undefined, .undefined | .undefined, .null | .null, .undefined | .null, .null =>
      exact ⟨fun _ => .null rfl rfl, fun _ => rfl⟩
    | .bool x, .bool y =>
      rw [identical]
      refine ⟨fun h => ?_, fun h => ?_⟩
      · obtain rfl : x = y := by simpa using h
        exact .bool x
      · cases h with
        | null hx _ => cases hx
        | bool => simp
    | .number x, .number y =>
      rw [identical_numbers]
      refine ⟨.number, fun h => ?_⟩
      cases h with
      | null hx _ => cases hx
      | number hsame => exact hsame
    | .string s, .string t =>
      rw [identical]
      refine ⟨fun h => ?_, fun h => ?_⟩
      · obtain rfl : s = t := by simpa using h
        exact .string s
      · cases h with
        | null hs _ => cases hs
        | string => simp
    | .array ⟨entries, next⟩, .array u =>
      rw [identical]
      refine ⟨fun h => ?_, fun h => ?_⟩
      · split at h
        · rename_i hkeys
          exact .array hkeys ((identicalEntries_iff hkeys (ha.keys _ rfl)).1 h)
        · cases h
      · cases h with
        | null ht _ => cases ht
        | array hkeys hvalues =>
          have hkeys : Assoc.keys entries = u.keys := hkeys
          rw [if_pos hkeys]
          exact (identicalEntries_iff hkeys (ha.keys _ rfl)).2 hvalues
    | .object h c, .object k d =>
      rw [identical]
      refine ⟨fun hsame => ?_, fun hsame => ?_⟩
      · obtain ⟨rfl, rfl⟩ : c = d ∧ h = k := by simpa using hsame
        exact .object h c
      · cases hsame with
        | null hh _ => cases hh
        | object => simp
  · rw [ha.identical_unlike hb (Bool.eq_false_iff.2 hlike)]
    exact ⟨nofun, fun h => absurd h.alike hlike⟩

/-! ## The laws -/

theorem Throughout.identical_self (ha : a.Throughout Discernible) : identical a a = .ok true := by
  induction ha with
  | @intro a hself _ ih =>
    rw [hself.identical_iff hself]
    cases a with
    | undefined | null => exact .null rfl rfl
    | bool x => exact .bool x
    | number x => exact .number (Number.same_self (hself.number ∘ congrArg _))
    | string s => exact .string s
    | array t =>
      refine .array rfl fun k v w hv hw => ?_
      obtain rfl := Option.some.inj (hv.symm.trans hw)
      exact ih t rfl _ (Assoc.mem_of_get? hv)
    | object h c => exact .object h c

theorem Throughout.identical_symm (ha : a.Throughout Discernible) (hb : b.Throughout Discernible)
    (h : identical a b = .ok true) : identical b a = .ok true := by
  induction ha generalizing b with
  | @intro a hself _ ih =>
    rw [hb.self.identical_iff hself]
    cases (hself.identical_iff hb.self).1 h with
    | null hanull hbnull => exact .null hbnull hanull
    | bool x => exact .bool x
    | number hsame => exact .number hsame.symm
    | string s => exact .string s
    | @array t u hkeys hvalues =>
      refine .array hkeys.symm fun k w v hw hv => ?_
      exact ih t rfl _ (Assoc.mem_of_get? hv) (hb.entry hw) (hvalues k v w hv hw)
    | object handle c => exact .object handle c

theorem Throughout.identical_trans (ha : a.Throughout Discernible) (hb : b.Throughout Discernible)
    (hc : c.Throughout Discernible) (hab : identical a b = .ok true)
    (hbc : identical b c = .ok true) : identical a c = .ok true := by
  induction ha generalizing b c with
  | @intro a hself _ ih =>
    rw [hself.identical_iff hc.self]
    cases (hself.identical_iff hb.self).1 hab with
    | null hanull hbnull =>
      cases (hb.self.identical_iff hc.self).1 hbc with
      | null _ hcnull => exact .null hanull hcnull
      | _ => cases hbnull
    | bool x => exact (hb.self.identical_iff hc.self).1 hbc
    | number hxy =>
      cases (hb.self.identical_iff hc.self).1 hbc with
      | null hnull _ => cases hnull
      | number hyz => exact .number (hxy.trans hyz)
    | string s => exact (hb.self.identical_iff hc.self).1 hbc
    | @array t u hkeys hvalues =>
      cases (hb.self.identical_iff hc.self).1 hbc with
      | null hnull _ => cases hnull
      | @array _ w hkeys' hvalues' =>
        refine .array (hkeys.trans hkeys') fun k x z hx hz => ?_
        obtain ⟨y, hy⟩ : ∃ y, u.get? k = some y :=
          Assoc.mem_keys_iff.1 (show k ∈ u.keys from hkeys ▸ Assoc.mem_keys_of_get? hx)
        exact ih t rfl _ (Assoc.mem_of_get? hx) (hb.entry hy) (hc.entry hz) (hvalues k x y hx hy)
          (hvalues' k y z hy hz)
    | object h c => exact (hb.self.identical_iff hc.self).1 hbc

theorem exists_identicalEntries {l r : List (Key × Value)}
    (h : ∀ p ∈ l, ∀ q ∈ r, ∃ e, identical p.2 q.2 = .ok e) : ∃ e, identicalEntries l r = .ok e := by
  induction l generalizing r with
  | nil => exact ⟨true, by rw [identicalEntries]; exact nofun⟩
  | cons p rest ih =>
    cases r with
    | nil => exact ⟨true, by rw [identicalEntries]; exact nofun⟩
    | cons q rest' =>
      obtain ⟨e, he⟩ := h p List.mem_cons_self q List.mem_cons_self
      rw [identicalEntries, he]
      cases e with
      | true =>
        exact ih fun p hp q hq => h p (List.mem_cons_of_mem _ hp) q (List.mem_cons_of_mem _ hq)
      | false => exact ⟨false, rfl⟩

/-- Values that can be told apart are identical or not; nothing stops the comparison. -/
theorem Throughout.exists_identical (ha : a.Throughout Discernible)
    (hb : b.Throughout Discernible) : ∃ e, identical a b = .ok e := by
  induction ha generalizing b with
  | @intro a hself _ ih =>
    by_cases hlike : a.alike b = true
    · match a, b with
      | .undefined, .undefined | .undefined, .null | .null, .undefined | .null, .null =>
        exact ⟨true, rfl⟩
      | .bool _, .bool _ | .string _, .string _ | .object .., .object .. => exact ⟨_, rfl⟩
      | .number x, .number y =>
        rw [identical]
        split
        · exact ⟨_, rfl⟩
        · exact ⟨_, rfl⟩
      | .array ⟨entries, next⟩, .array u =>
        rw [identical]
        split
        · refine exists_identicalEntries fun p hp q hq => ih _ rfl p hp ?_
          cases hb with
          | intro _ hentries => exact hentries u rfl q hq
        · exact ⟨_, rfl⟩
    · exact ⟨false, hself.identical_unlike hb.self (Bool.eq_false_iff.2 hlike)⟩

/-- Identical values are equal, where equality can be decided. -/
theorem Throughout.equal_of_identical {d : Int} (ha : a.Throughout Discernible)
    (hb : b.Throughout Discernible) (h : identical a b = .ok true) (hd : compare a b = .ok d) :
    d = 0 := by
  induction ha generalizing b d with
  | @intro a hself _ ih =>
    cases (hself.identical_iff hb.self).1 h with
    | null hanull hbnull =>
      have hzero : compare a b = .ok 0 := by
        cases a <;> cases hanull <;> cases b <;> cases hbnull <;> rw [compare] <;> rfl
      exact Except.ok.inj (hd.symm.trans hzero)
    | bool x =>
      rw [compare] at hd
      have hswap := compareBools_swap x x
      have hd := Except.ok.inj hd
      rw [toBool] at hd
      omega
    | number hsame =>
      rw [compare] at hd
      rw [← Except.ok.inj hd]
      exact Number.compare_eq_zero_iff.2 hsame.cmp?
    | string s =>
      rw [compare] at hd
      have hself := opposite_compareStrings s s d d hd hd
      omega
    | @array t u hkeys hvalues =>
      have hsize : t.size = u.size := by
        simpa [Table.keys, Assoc.keys, Table.size] using congrArg List.length hkeys
      obtain ⟨-, hentries⟩ := (compare_arrays hd).resolve_right fun h => h.1 hsize
      refine eq_zero_of_compareEntries hentries fun p hp => ?_
      have hv : t.get? p.1 = some p.2 := Assoc.get?_of_mem (hself.keys t rfl) hp
      obtain ⟨w, hw⟩ : ∃ w, u.get? p.1 = some w :=
        Assoc.mem_keys_iff.1 (show p.1 ∈ u.keys from hkeys ▸ Assoc.mem_keys_of_mem hp)
      exact ⟨w, hw, fun c hc => ih t rfl p hp (hb.entry hw) (hvalues _ _ _ hv hw) hc⟩
    | object h c =>
      rw [compare, if_pos rfl] at hd
      exact (Except.ok.inj hd).symm

/-- On the values that can be told apart identity is reflexive, symmetric and transitive, and it
always decides. Identical values are equal, where loose comparison returns. -/
theorem identical_equivalence (ha : a.Throughout Discernible) (hb : b.Throughout Discernible)
    (hc : c.Throughout Discernible) :
    identical a a = .ok true ∧
    (∃ e, identical a b = .ok e ∧ identical b a = .ok e) ∧
    (identical a b = .ok true → identical b c = .ok true → identical a c = .ok true) ∧
    (identical a b = .ok true → ∀ d, compare a b = .ok d → looselyEquals a b = .ok true) := by
  refine ⟨ha.identical_self, ?_, ha.identical_trans hb hc, fun h d hd => ?_⟩
  · obtain ⟨e, he⟩ := ha.exists_identical hb
    obtain ⟨e', he'⟩ := hb.exists_identical ha
    refine ⟨e, he, ?_⟩
    rw [he', Except.ok.injEq, Bool.eq_iff_iff]
    constructor
    · rintro rfl
      exact Except.ok.inj (he.symm.trans (hb.identical_symm ha he'))
    · rintro rfl
      exact Except.ok.inj (he'.symm.trans (ha.identical_symm hb he))
  · obtain rfl := ha.equal_of_identical hb h hd
    rw [looselyEquals, hd]
    rfl

/-- Zeros of either sign are identical, and the counters of arrays do not matter. -/
theorem identical_equivalence_zeros :
    ∃ a b c : Value, a = array ⟨[(.int 0, float (.finite false 0 (-1074)))], 1⟩ ∧
      b = array ⟨[(.int 0, float (.finite true 0 (-1074)))], 1⟩ ∧
      c = array ⟨[(.int 0, float (.finite false 0 (-1074)))], 7⟩ ∧
      a.Throughout Discernible ∧ b.Throughout Discernible ∧ c.Throughout Discernible ∧
      identical a b = .ok true ∧ identical b c = .ok true ∧ identical a c = .ok true ∧
      compare a b = .ok 0 ∧ looselyEquals a b = .ok true := by
  have harray : ∀ (s : Bool) (next : Int),
      (array ⟨[(.int 0, float (.finite s 0 (-1074)))], next⟩).Throughout Discernible := by
    intro s next
    have hzero : (float (.finite s 0 (-1074))).Discernible :=
      ⟨by simp [float], by simp [float], distinctKeys_single (by simp [float])⟩
    refine throughout_array ⟨nofun, nofun, distinctKeys_array (List.nodup_singleton _)⟩ ?_
    exact List.forall_mem_singleton.2 (throughout_single hzero (by simp [float]))
  obtain ⟨-, -, htrans, hequal⟩ :=
    identical_equivalence (harray false 1) (harray true 1) (harray false 7)
  exact ⟨_, _, _, rfl, rfl, rfl, harray false 1, harray true 1, harray false 7, rfl, rfl,
    htrans rfl rfl, rfl, hequal rfl 0 rfl⟩

end Value

end PhpInterpreter
