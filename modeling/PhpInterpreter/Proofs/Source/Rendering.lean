import PhpInterpreter.Proofs.Source.Literal
import PhpInterpreter.Proofs.Source.Printing
import PhpInterpreter.Proofs.Value.Tidy
import PhpInterpreter.Value.Render

/-!
Texts of values as source. Both texts of a value without doubles and objects, the display form and
the rendering, are laid out as the tokens of an array literal, and are read as one expression.
-/

namespace PhpInterpreter

/-- Integers whose decimal text is read back. The sign is no part of a literal, so the smallest of
64 bits is not among them. -/
def Legible (n : Int) : Prop := minInt < n ∧ n ≤ maxInt

/-- Values whose texts are literals: no doubles and no objects, and the arrays are ordered. -/
inductive Value.Plain : Value → Prop
  | null : Plain .null
  | bool (b : Bool) : Plain (.bool b)
  | int {n : Int} : Legible n → Plain (.int n)
  | string (s : String) : Plain (.string s)
  | array {t : Table Value} : t.Ordered → (∀ n, .int n ∈ t.keys → Legible n) →
    (∀ p ∈ t.entries, Plain p.2) → Plain (.array t)

namespace Source

open StringLiteral

/-! ## Expressions of values -/

/-- The expression of an integer: a number, with a sign before it if it is negative. -/
def Expr.integer (n : Int) : Expr :=
  if n < 0 then .unary .start .minus (.number .start (String.ofList (decimalDigits n.natAbs)))
  else .number .start (String.ofList (decimalDigits n.natAbs))

def Expr.ofKey : Key → Expr
  | .int n => .integer n
  | .str s => .string .start (encodeSingle s)

mutual

/-- The expression of a value, with arrays in brackets or after `array`. -/
def Expr.ofValue (short : Bool) : Value → Expr
  | .bool b => .boolean .start b
  | .number (.int n) => .integer n
  | .string s => .string .start (encodeSingle s)
  | .array ⟨entries, _⟩ => .array .start short (Entry.ofValues short entries)
  | _ => .null .start

def Entry.ofValues (short : Bool) : List (Key × Value) → List Entry
  | [] => []
  | (k, v) :: rest => .keyed .start (.ofKey k) (.ofValue short v) false :: Entry.ofValues short rest

end

/-! ## Texts that show an expression -/

/-- Before a separator the text is laid out as these tokens. -/
def LaidOut (text : String) (texts : List String) : Prop :=
  ∀ more rest, Layout more rest → Terminal.Separated rest →
    Layout (texts ++ more) (text.toList ++ rest)

/-- Before a separator the text is read as the expression. -/
def Shows (text : String) (e : Expr) : Prop :=
  ∃ texts, (∀ k ≤ unaryLevel, Reads k texts e) ∧ LaidOut text texts

/-- Before a separator the text is read as the entry. -/
def ShowsEntry (text : String) (entry : Entry) : Prop :=
  ∃ texts, ReadsEntry texts entry ∧ LaidOut text texts

theorem IsToken.laidOut {text : String} (h : IsToken text) : LaidOut text [text] :=
  fun _ rest hmore hrest => .token (h rest hrest) hmore

theorem shows_null : Shows "NULL" (.null .start) :=
  ⟨["NULL"], fun _ _ => Reads.atom Terminal.ofText_nullUpper fun _ _ => rfl,
    (isToken_of_mem (by decide +kernel)).laidOut⟩

theorem shows_boolean (b : Bool) : Shows (if b then "true" else "false") (.boolean .start b) := by
  refine ⟨_, fun _ _ => reads_boolean b, IsToken.laidOut ?_⟩
  cases b <;> exact isToken_of_mem (by decide +kernel)

theorem shows_string (s : String) : Shows (encodeSingle s) (.string .start (encodeSingle s)) := by
  have hspells := Terminal.spells_encodeSingle s
  refine ⟨_, fun _ _ => reads_string (.inr hspells), IsToken.laidOut ?_⟩
  exact isToken_of_first fun rest _ => hspells.first?_quoted rfl (fun _ => rfl) (by decide) rfl rest

theorem shows_integer (n : Int) : Shows (decimalText n) (.integer n) := by
  have hspells := Terminal.spells_decimalDigits n.natAbs
  have hdigits : LaidOut (String.ofList (decimalDigits n.natAbs))
      [String.ofList (decimalDigits n.natAbs)] :=
    IsToken.laidOut (isToken_of_first fun _ => hspells.first?_number)
  rw [decimalText, Expr.integer]
  split
  · refine ⟨["-", String.ofList (decimalDigits n.natAbs)],
      fun k hk => Reads.unary .minus hk (reads_number hspells), ?_⟩
    intro more rest hmore hrest
    have hnumber := hdigits more rest hmore hrest
    obtain ⟨c, cs, hcons, -⟩ := decimalDigits_cons n.natAbs
    have hc : c.isDigit = true := isDigit_of_mem_decimalDigits (hcons ▸ List.mem_cons_self)
    rw [String.toList_ofList] at hnumber ⊢
    have hminus : Terminal.Lexes "-" (decimalDigits n.natAbs ++ rest) := by
      rw [hcons]
      exact Terminal.lexes_minus hc _
    exact .token hminus hnumber
  · exact ⟨_, fun _ _ => reads_number hspells, hdigits⟩

theorem shows_key (k : Key) : Shows k.display (.ofKey k) := by
  cases k with
  | int n => exact shows_integer n
  | str s => exact shows_string s

/-- A key, an arrow and a value, with spaces around the arrow. -/
theorem Shows.keyed {keyText text : String} {key value : Expr} (hkey : Shows keyText key)
    (h : Shows text value) :
    ShowsEntry (keyText ++ " => " ++ text) (.keyed .start key value false) := by
  obtain ⟨keyTexts, hkeyReads, hkeyLaid⟩ := hkey
  obtain ⟨texts, hreads, hlaid⟩ := h
  refine ⟨_, ReadsEntry.keyed (hkeyReads 0 (Nat.zero_le _)) (hreads 0 (Nat.zero_le _)), ?_⟩
  intro more rest hmore hrest
  have hvalue : Layout (texts ++ more) (' ' :: (text.toList ++ rest)) :=
    .space rfl (hlaid more rest hmore hrest)
  have harrow : Layout ("=>" :: (texts ++ more))
      (' ' :: ("=>".toList ++ ' ' :: (text.toList ++ rest))) :=
    .space rfl (.token (isToken_of_mem (by decide +kernel) _ rfl) hvalue)
  have hall := hkeyLaid _ _ harrow rfl
  simpa using hall

/-! ## The display form -/

/-- Entries with a comma and a space between them. -/
theorem laidOut_join {parts : List String} {entries : List Entry}
    (h : List.Forall₂ ShowsEntry parts entries) :
    ∃ texts, ReadsRest texts entries ∧ LaidOut (Text.join ", " parts) texts := by
  induction h with
  | nil => exact ⟨[], ReadsRest.nil, fun _ _ hmore _ => by simpa [Text.join] using hmore⟩
  | @cons part entry parts entries hentry hrest ih =>
    obtain ⟨texts, hreads, hlaid⟩ := hentry
    cases hrest with
    | nil =>
      refine ⟨texts, ReadsRest.last hreads, fun more rest hmore hrest => ?_⟩
      simpa [Text.join] using hlaid more rest hmore hrest
    | @cons part' entry' parts entries hentry' hrest' =>
      obtain ⟨moreTexts, hmoreReads, hmoreLaid⟩ := ih
      refine ⟨_, ReadsRest.cons hreads hmoreReads, fun more rest hmore hrest => ?_⟩
      have hcomma : Layout ("," :: (moreTexts ++ more))
          (",".toList ++ ' ' :: ((Text.join ", " (part' :: parts)).toList ++ rest)) :=
        .token (Terminal.lexes_bracket (by decide) _) (.space rfl (hmoreLaid more rest hmore hrest))
      have hall := hlaid _ _ hcomma rfl
      simpa [Text.join, String.toList_intercalate] using hall

/-- The display form of a value is read as its expression. -/
theorem shows_display {v : Value} (h : v.Plain) : Shows v.display (.ofValue true v) := by
  induction h with
  | null => exact shows_null
  | bool b => exact shows_boolean b
  | int _ => exact shows_integer _
  | string s => exact shows_string s
  | @array t _ _ _ ih =>
    obtain ⟨entries, next⟩ := t
    have hentries : List.Forall₂ ShowsEntry (Value.displayEntries entries)
        (Entry.ofValues true entries) := by
      clear * - ih
      induction entries with
      | nil => exact .nil
      | cons p rest ihrest =>
        obtain ⟨hp, hrest⟩ := List.forall_mem_cons.1 ih
        exact .cons ((shows_key p.1).keyed hp) (ihrest hrest)
    obtain ⟨texts, hreads, hlaid⟩ := laidOut_join hentries
    refine ⟨_, fun _ _ => hreads.short, fun more rest hmore hrest => ?_⟩
    have hclose : Layout ("]" :: more) ("]".toList ++ rest) :=
      .token (Terminal.lexes_bracket (by decide) _) hmore
    have hopen : Layout ("[" :: (texts ++ "]" :: more))
        ("[".toList ++ ((Text.join ", " (Value.displayEntries entries)).toList ++
          ("]".toList ++ rest))) :=
      .token (Terminal.lexes_bracket (by decide) _) (hlaid _ _ hclose rfl)
    simpa [Value.display] using hopen

/-! ## The rendering -/

theorem layout_spaces {texts : List String} {cs : List Char} (n : Nat) (h : Layout texts cs) :
    Layout texts ((Text.spaces n).toList ++ cs) := by
  rw [Text.spaces, String.toList_ofList]
  induction n with
  | zero => exact h
  | succ n ih => exact .space rfl ih

/-- Entries on lines of their own, each with a comma after it. -/
theorem laidOut_renderEntries {entries : List (Key × Value)} (indent : Int)
    (h : ∀ p ∈ entries, ∀ indent, Shows (p.2.render indent) (.ofValue false p.2)) :
    ∃ texts, ReadsRest texts (Entry.ofValues false entries) ∧
      ∀ more rest, Layout more rest →
        Layout (texts ++ more) ((Value.renderEntries entries indent).toList ++ rest) := by
  induction entries with
  | nil => exact ⟨[], ReadsRest.nil, fun _ _ hmore => by simpa [Value.renderEntries] using hmore⟩
  | cons p rest ih =>
    obtain ⟨k, v⟩ := p
    obtain ⟨hv, hrest⟩ := List.forall_mem_cons.1 h
    obtain ⟨texts, hreads, hlaid⟩ := (shows_key k).keyed (hv (indent + 2))
    obtain ⟨moreTexts, hmoreReads, hmoreLaid⟩ := ih hrest
    refine ⟨_, ReadsRest.cons hreads hmoreReads, fun more cs hmore => ?_⟩
    have hcomma : Layout ("," :: (moreTexts ++ more))
        (",".toList ++ '\n' :: ((Value.renderEntries rest indent).toList ++ cs)) :=
      .token (Terminal.lexes_bracket (by decide) _) (.space rfl (hmoreLaid more cs hmore))
    have hall := layout_spaces indent.toNat (.space (c := ' ') rfl (.space (c := ' ') rfl
      (hlaid _ _ hcomma rfl)))
    simpa [Value.renderEntries] using hall

/-- The rendering of a value is read as its expression. -/
theorem shows_render {v : Value} (h : v.Plain) (indent : Int) :
    Shows (v.render indent) (.ofValue false v) := by
  induction h generalizing indent with
  | null => exact shows_null
  | bool b => exact shows_boolean b
  | int _ => exact shows_integer _
  | string s => exact shows_string s
  | @array t _ _ _ ih =>
    obtain ⟨entries, next⟩ := t
    obtain ⟨texts, hreads, hlaid⟩ := laidOut_renderEntries indent ih
    refine ⟨_, fun _ _ => hreads.long, fun more rest hmore hrest => ?_⟩
    have hclose :
        Layout (")" :: more) ((Text.spaces indent.toNat).toList ++ (")".toList ++ rest)) :=
      layout_spaces _ (.token (Terminal.lexes_bracket (by decide) _) hmore)
    have hopen : Layout ("(" :: (texts ++ ")" :: more))
        ("(".toList ++ '\n' :: ((Value.renderEntries entries indent).toList ++
          ((Text.spaces indent.toNat).toList ++ (")".toList ++ rest)))) :=
      .token (Terminal.lexes_bracket (by decide) _) (.space rfl (hlaid _ _ hclose))
    have hword : Layout ("array" :: "(" :: (texts ++ ")" :: more))
        ("array".toList ++ ' ' :: ("(".toList ++ '\n' ::
          ((Value.renderEntries entries indent).toList ++
            ((Text.spaces indent.toNat).toList ++ (")".toList ++ rest))))) :=
      .token (isToken_of_mem (by decide +kernel) _ rfl) (.space rfl hopen)
    simpa [Value.render] using hword

end Source

end PhpInterpreter
