import PhpInterpreter.Operator

/-!
Comparison and numeric reading stop only at the limits of numbers, and a comparison gives a sign.
-/

namespace PhpInterpreter

/-- A number has passed what doubles or decimal texts can hold. -/
def Crash.IsLimit (c : Crash) : Prop := c = outOfRange ∨ c = digitLimit

/-- A pure computation returns with `P`, or stops at a limit. -/
def Limited {α : Type} (P : α → Prop) (x : Except Crash α) : Prop :=
  match x with
  | .ok a => P a
  | .error c => c.IsLimit

variable {α β : Type} {P : α → Prop} {Q : β → Prop}

@[simp] theorem limited_ok {a : α} : Limited P (.ok a) ↔ P a := .rfl

@[simp] theorem limited_pure {a : α} : Limited P (pure a) ↔ P a := .rfl

theorem Limited.bind {x : Except Crash α} {f : α → Except Crash β} (h : Limited P x)
    (hf : ∀ a, P a → Limited Q (f a)) : Limited Q (x >>= f) := by
  cases x with
  | ok a => exact hf a h
  | error c => exact h

theorem Limited.map {x : Except Crash α} {f : α → β} (h : Limited P x) (hf : ∀ a, P a → Q (f a)) :
    Limited Q (x.map f) := by
  cases x with
  | ok a => exact hf a h
  | error c => exact h

theorem limited_toNumber (n : Numeral) : Limited (fun _ => True) n.toNumber := by
  unfold Numeral.toNumber
  split
  · split
    · exact .inr rfl
    · split
      · trivial
      · split
        · trivial
        · exact .inl rfl
  · trivial

theorem limited_readNumeric (s : String) : Limited (fun _ => True) (readNumeric s) := by
  unfold readNumeric
  split
  · trivial
  · exact (limited_toNumber _).bind fun _ _ => trivial

theorem limited_wholeNumber? (s : String) : Limited (fun _ => True) (wholeNumber? s) := by
  refine (limited_readNumeric s).bind fun p _ => ?_
  split <;> trivial

theorem limited_ofString (s : String) : Limited (fun _ => True) (Key.ofString s) := by
  unfold Key.ofString
  split
  · trivial
  · split
    · exact .inr rfl
    · trivial

theorem limited_integerText (n : Int) : Limited (fun _ => True) (integerText n) := by
  unfold integerText
  split
  · exact .inr rfl
  · trivial

theorem limited_missing (k : Key) : Limited (fun _ => True) (Remark.missing k) := by
  cases k with
  | int n => exact (limited_integerText n).map fun _ _ => trivial
  | str s => trivial

theorem limited_text (x : Number) : Limited (fun _ => True) x.text := by
  cases x with
  | int n => exact limited_integerText n
  | float d => trivial

/-! ## Signs -/

/-- The result of a comparison. -/
def IsSign (c : Int) : Prop := c = -1 ∨ c = 0 ∨ c = 1

theorem isSign_signOf (o : Ordering) : IsSign (signOf o) := by
  cases o <;> simp [IsSign, signOf]

theorem Number.isSign_compare (x y : Number) : IsSign (x.compare y) := by
  unfold Number.compare
  split
  · exact isSign_signOf _
  · exact .inr (.inr rfl)

namespace Value

theorem isSign_compareBools (a b : Bool) : IsSign (compareBools a b) := by
  cases a <;> cases b <;> simp [IsSign, compareBools]

theorem limited_compareStrings (s t : String) : Limited IsSign (compareStrings s t) := by
  refine (limited_wholeNumber? s).bind fun x? _ => ?_
  split
  · exact isSign_signOf _
  · refine (limited_wholeNumber? t).bind fun y? _ => ?_
    split
    · exact isSign_signOf _
    · exact Number.isSign_compare _ _

theorem limited_compareNumberString (x : Number) (s : String) :
    Limited IsSign (compareNumberString x s) := by
  refine (limited_wholeNumber? s).bind fun y? _ => ?_
  split
  · exact Number.isSign_compare _ _
  · exact (limited_text x).bind fun _ _ => limited_compareStrings _ _

theorem limited_compareStringNumber (s : String) (y : Number) :
    Limited IsSign (compareStringNumber s y) := by
  refine (limited_wholeNumber? s).bind fun x? _ => ?_
  split
  · exact Number.isSign_compare _ _
  · exact (limited_text y).bind fun _ _ => limited_compareStrings _ _

theorem limited_compareNull (b : Value) : Limited IsSign (compareNull b) := by
  unfold compareNull
  split
  · exact limited_compareStrings _ _
  · exact isSign_compareBools _ _

mutual

theorem limited_compare (a b : Value) : Limited IsSign (compare a b) := by
  have hless : IsSign (-1) := .inl rfl
  have hgreater : IsSign 1 := .inr (.inr rfl)
  match a with
  | undefined | null =>
    rw [compare]
    exact limited_compareNull b
  | bool x =>
    rw [compare]
    exact isSign_compareBools _ _
  | number x =>
    cases b <;> simp [compare, limited_compareNumberString, isSign_compareBools,
      Number.isSign_compare, hless]
  | string s =>
    cases b <;> simp [compare, limited_compareStrings, limited_compareStringNumber,
      isSign_compareBools, hless]
  | array ⟨entries, next⟩ =>
    cases b with
    | array u =>
      rw [compare]
      split
      · exact limited_compareEntries entries u
      · split
        · exact hless
        · exact hgreater
    | _ => simp [compare, isSign_compareBools, hgreater]
  | object h c =>
    cases b with
    | object k d =>
      rw [compare]
      split
      · exact .inr (.inl rfl)
      · exact hgreater
    | _ => simp [compare, isSign_compareBools, hless, hgreater]

theorem limited_compareEntries (entries : List (Key × Value)) (u : Table Value) :
    Limited IsSign (compareEntries entries u) := by
  match entries with
  | [] =>
    rw [compareEntries]
    exact .inr (.inl rfl)
  | (k, v) :: rest =>
    rw [compareEntries]
    split
    · exact .inr (.inr rfl)
    · refine (limited_compare v _).bind fun c hc => ?_
      split
      · exact limited_compareEntries rest u
      · exact hc

end

end Value

end PhpInterpreter
