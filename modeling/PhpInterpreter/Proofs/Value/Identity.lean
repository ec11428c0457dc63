import PhpInterpreter.Proofs.Value.Tidy

/-!
Identity of values. Values of different types differ, but the type of an object is the name of its
class: an object of a class with the name of a built-in type cannot be compared with the values of
that type.
-/

namespace PhpInterpreter

namespace Value

variable {P : String → Prop} {v : Value}

/-- The names of the types that are built in. -/
def typeNames : List String := ["null", "bool", "int", "float", "string", "array"]

theorem typeName_mem (h : ∀ k d, v ≠ .object k d) : v.typeName ∈ typeNames := by
  match v with
  | .undefined | .null | .bool _ | .string _ | .array _ => simp [typeName, typeNames]
  | .number (.int _) | .number (.float _) => simp [typeName, typeNames]
  | .object k d => exact (h k d rfl).elim

theorem otherTypes_error {a b : String} {c : Crash} (h : otherTypes a b = .error c) :
    c = .incomparable ∧ a = b := by
  rw [otherTypes] at h
  split at h
  · rename_i heq
    exact ⟨(Except.error.inj h).symm, heq⟩
  · cases h

/-- Whether two values are of one built-in type, integers and floats as one, or both objects. -/
def alike : Value → Value → Bool
  | undefined, undefined | undefined, null | null, undefined | null, null => true
  | bool _, bool _ | number _, number _ | string _, string _ | array _, array _ => true
  | object .., object .. => true
  | _, _ => false

theorem identical_of_unlike {a b : Value} (h : alike a b = false) :
    identical a b = otherTypes a.typeName b.typeName := by
  -- Pairs that are alike are ruled out; of the others the types are compared.
  cases a <;> cases b <;> first | rfl | cases h

theorem alike_of_typeName {a b : Value} (ha : ∀ k d, a ≠ .object k d) (hb : ∀ k d, b ≠ .object k d)
    (h : a.typeName = b.typeName) : alike a b = true := by
  unfold typeName at h
  split at h <;> split at h <;> simp_all [alike]

/-- Values that are not alike have one type name only where a class has the name of a built-in
type. -/
theorem exists_object_of_unlike {a b : Value} (h : alike a b = false)
    (hname : a.typeName = b.typeName) :
    ∃ k d, (a = .object k d ∨ b = .object k d) ∧ d ∈ typeNames := by
  by_cases haobject : ∃ k d, a = .object k d
  · obtain ⟨k, d, rfl⟩ := haobject
    refine ⟨k, d, .inl rfl, ?_⟩
    rw [show d = b.typeName from hname]
    refine typeName_mem ?_
    rintro k' d' rfl
    cases h
  · by_cases hbobject : ∃ k d, b = .object k d
    · obtain ⟨k, d, rfl⟩ := hbobject
      refine ⟨k, d, .inr rfl, ?_⟩
      rw [← show a.typeName = d from hname]
      exact typeName_mem fun k' d' heq => haobject ⟨k', d', heq⟩
    · have hsame := alike_of_typeName (fun k d heq => haobject ⟨k, d, heq⟩)
        (fun k d heq => hbobject ⟨k, d, heq⟩) hname
      simp [hsame] at h

mutual

/-- Identity stops only at an object whose class has the name of a built-in type. -/
theorem Tidy.identical_error {a b : Value} {c : Crash} (ha : a.Tidy P) (hb : b.Tidy P)
    (h : identical a b = .error c) : c = .incomparable ∧ ∃ name ∈ typeNames, P name := by
  by_cases hlike : alike a b = true
  · match a, b with
    | .array ⟨entries, next⟩, .array u =>
      rw [identical] at h
      split at h
      · exact Tidy.identicalEntries_error ha.entries hb.entries h
      · cases h
    | .number x, .number y =>
      rw [identical] at h
      split at h <;> cases h
    | .undefined, .undefined | .undefined, .null | .null, .undefined | .null, .null => cases h
    | .bool _, .bool _ | .string _, .string _ | .object .., .object .. => cases h
  · rw [Bool.not_eq_true] at hlike
    rw [identical_of_unlike hlike] at h
    obtain ⟨rfl, hname⟩ := otherTypes_error h
    obtain ⟨k, d, hobject, hmem⟩ := exists_object_of_unlike hlike hname
    refine ⟨rfl, d, hmem, ?_⟩
    rcases hobject with rfl | rfl
    · cases ha with
      | object _ hd => exact hd
    · cases hb with
      | object _ hd => exact hd

theorem Tidy.identicalEntries_error {l r : List (Key × Value)} {c : Crash}
    (hl : ∀ p ∈ l, p.2.Tidy P) (hr : ∀ p ∈ r, p.2.Tidy P) (h : identicalEntries l r = .error c) :
    c = .incomparable ∧ ∃ name ∈ typeNames, P name := by
  match l, r with
  | [], _ => cases h
  | _ :: _, [] => cases h
  | (k, v) :: rest, (k', w) :: rest' =>
    rw [identicalEntries] at h
    cases hv : identical v w with
    | error c' =>
      rw [hv] at h
      obtain rfl := Except.error.inj h
      exact Tidy.identical_error (hl _ List.mem_cons_self) (hr _ List.mem_cons_self) hv
    | ok same =>
      cases same with
      | false =>
        rw [hv] at h
        cases h
      | true =>
        rw [hv] at h
        exact Tidy.identicalEntries_error (fun p hp => hl p (List.mem_cons_of_mem _ hp))
          (fun p hp => hr p (List.mem_cons_of_mem _ hp)) h

end

end Value

end PhpInterpreter
