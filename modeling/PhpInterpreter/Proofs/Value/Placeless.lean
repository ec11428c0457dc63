import PhpInterpreter.Proofs.Outcome

/-!
Conversions and operators know nothing of places: the faults they stop with have none.
-/

namespace PhpInterpreter

/-- The fault has no place yet. -/
def Fault.Placeless : Fault → Prop
  | .error e => e.place? = none
  | .crash _ => True

/-- The computation stops with faults without a place only. -/
def Placeless {α : Type} (act : Noting α) : Prop :=
  ∀ rs, Ends act rs (fun _ _ => True) fun f _ => f.Placeless

namespace Placeless

variable {α β : Type} {act : Noting α}

theorem pure (a : α) : Placeless (pure a) := fun _ => trivial

theorem fatal (e : Fatal) : Placeless (Noting.fatal e : Noting α) := fun _ => rfl

theorem crash (c : Crash) : Placeless (Noting.crash c : Noting α) := fun _ => trivial

theorem remark (r : Remark) : Placeless (Noting.remark r) := fun _ => trivial

theorem mention (quiet : Bool) (r : Except Crash Remark) : Placeless (Noting.mention quiet r) := by
  unfold Noting.mention
  split
  · exact pure ()
  · cases r with
    | ok r => exact remark r
    | error c => exact crash c

theorem bind {f : α → Noting β} (h : Placeless act) (hf : ∀ a, Placeless (f a)) :
    Placeless (act >>= f) := by
  intro rs
  rw [ends_bind]
  exact (h rs).mono (fun a t _ => hf a t) fun _ _ h => h

theorem lift (x : Except Crash α) : Placeless (Value.lift x) := by
  cases x with
  | ok a => exact pure a
  | error c => exact crash c

theorem toKey (v : Value) : Placeless v.toKey := by
  cases v with
  | undefined | bool b | number n => exact pure _
  | string s =>
    simp only [Value.toKey]
    split
    · exact pure _
    · exact crash _
  | null | array t | object h c => exact (remark _).bind fun _ => pure _

theorem toText (v : Value) : Placeless v.toText := by
  cases v with
  | undefined | null | bool b | string s => exact pure _
  | number n => exact lift _
  | array t => exact (remark _).bind fun _ => pure _
  | object h c => exact fatal _

theorem toNumber (v : Value) : Placeless v.toNumber := by
  cases v with
  | undefined | null | bool b | number n | array t | object h c => exact pure _
  | string s =>
    simp only [Value.toNumber]
    split
    · exact crash _
    · exact (remark _).bind fun _ => pure _
    · exact pure _
    · exact (remark _).bind fun _ => pure _

theorem inRange (n? : Option Number) : Placeless (Value.inRange n?) := by
  cases n? with
  | some n => exact pure _
  | none => exact crash _

theorem compute (op : BinaryOp) (x y : Number) : Placeless (Value.compute op x y) := by
  unfold Value.compute
  split
  · exact inRange _
  · exact inRange _
  · exact inRange _
  · split
    · exact fatal _
    · exact inRange _
  · split
    · exact fatal _
    · exact pure _
  · exact pure _

theorem arithmetic (op : BinaryOp) (v w : Value) : Placeless (Value.arithmetic op v w) := by
  unfold Value.arithmetic
  split
  · split
    · exact pure _
    · exact fun _ => rfl
  · exact (toNumber v).bind fun x => (toNumber w).bind fun y => compute op x y

theorem test (p : Int → Bool) (c : Except Crash Int) : Placeless (Value.test p c) :=
  (lift c).bind fun _ => pure _

theorem applyBinary (op : BinaryOp) (v w : Value) : Placeless (Value.applyBinary op v w) := by
  unfold Value.applyBinary
  cases op with
  | concat => exact (toText _).bind fun _ => (toText _).bind fun _ => pure _
  | equal | notEqual | differs | less | lessOrEqual | greater | greaterOrEqual => exact test _ _
  | identical | notIdentical | spaceship => exact (lift _).bind fun _ => pure _
  | and | or | lowAnd | lowOr | lowXor | coalesce => exact pure _
  | add | sub | mul | div | mod | pow => exact arithmetic _ _ _

theorem applyUnary (op : UnaryOp) (v : Value) : Placeless (Value.applyUnary op v) := by
  cases op with
  | not => exact pure _
  | plus | minus =>
    simp only [Value.applyUnary]
    split
    · exact fun _ => rfl
    · exact (toNumber _).bind fun _ => pure _

theorem charAt (quiet : Bool) (s : String) (k : Key) : Placeless (Value.charAt quiet s k) := by
  unfold Value.charAt
  cases k with
  | int n =>
    refine (pure n).bind fun offset => ?_
    dsimp only
    split
    · exact pure _
    · exact (mention _ _).bind fun _ => pure _
  | str t =>
    refine (remark _).bind fun _ => (pure 0).bind fun offset => ?_
    dsimp only
    split
    · exact pure _
    · exact (mention _ _).bind fun _ => pure _

end Placeless

end PhpInterpreter
