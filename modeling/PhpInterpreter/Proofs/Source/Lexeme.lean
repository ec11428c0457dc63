import PhpInterpreter.Proofs.Source.Extent

/-!
Texts of one token. A terminal matches the text it spells again, whatever separator follows.
-/

namespace PhpInterpreter.Source.Terminal

variable {c : Char} {cs : List Char}

/-! ## Spelt texts before a separator -/

/-- The text ends here or goes on with a separator. -/
def Separated (rest : List Char) : Prop := rest.head?.all separates = true

theorem Spells.numberLength_eq {text : String} {rest : List Char} (h : number.Spells text)
    (hrest : Separated rest) : numberLength (text.toList ++ rest) = text.length := by
  obtain ⟨cs, hlength, rfl⟩ := h
  have htake : numberLength (cs.take (numberLength cs)) = numberLength cs :=
    numberLength_take (Nat.le_refl _)
  rw [← String.length_toList, String.toList_ofList, List.length_take_of_le (length_le _ _)]
  cases rest with
  | nil => rwa [List.append_nil]
  | cons c rest =>
    rw [numberLength_append (by simpa [Separated] using hrest)]
    exact htake

theorem run_take_append {p : Char → Bool} (cs : List Char) {rest : List Char}
    (hrest : rest.head?.all (!p ·) = true) : run p (cs.take (run p cs) ++ rest) = run p cs := by
  have htake : run p (cs.take (run p cs)) = run p cs := by
    rw [run_take, Nat.min_self]
  cases rest with
  | nil => rwa [List.append_nil]
  | cons c rest =>
    rw [run_append (by simpa using hrest)]
    exact htake

theorem Spells.variableLength_eq {text : String} {rest : List Char}
    (h : Terminal.variable.Spells text) (hrest : Separated rest) :
    variableLength (text.toList ++ rest) = text.length := by
  obtain ⟨cs, hlength, rfl⟩ := h
  rw [← String.length_toList, String.toList_ofList, List.length_take_of_le (length_le _ _)]
  simp only [length, variableLength] at hlength ⊢
  split at hlength
  · rename_i d ds
    split at hlength
    · rename_i hd
      have hname : rest.head?.all (!continuesName ·) = true := by
        cases rest with
        | nil => rfl
        | cons c rest =>
          obtain ⟨-, -, -, -, -, -, -, -, -, -, hc⟩ := separates_not (c := c) hrest
          simp [hc]
      rw [if_pos hd, Nat.add_comm]
      simp only [List.take_succ_cons, List.cons_append]
      rw [if_pos hd, run_take_append ds hname, Nat.add_comm]
    · exact absurd rfl hlength
  · exact absurd rfl hlength

theorem closingQuote_escape (quote d : Char) (cs : List Char) :
    closingQuote quote ('\\' :: d :: cs) =
      if closingQuote quote cs = 0 then 0 else closingQuote quote cs + 2 := by
  rw [closingQuote]
  split <;> simp_all

theorem closingQuote_cons {quote d : Char} (hd : d ≠ '\\') (cs : List Char) :
    closingQuote quote (d :: cs) =
      if d == quote then 1
      else if closingQuote quote cs = 0 then 0 else closingQuote quote cs + 1 := by
  rw [closingQuote.eq_def]
  split
  · contradiction
  · rename_i heq
    exact absurd (List.cons.inj heq).1 hd
  · rename_i heq
    obtain ⟨rfl, rfl⟩ := List.cons.inj heq
    split
    · rfl
    · rw [if_neg (by simpa using hd)]
      split <;> simp_all

/-- Characters between two quotes: every backslash takes the next one with it, and no quote is
left. -/
inductive Closed (quote : Char) : List Char → Prop
  | nil : Closed quote []
  | plain {d ds} : d ≠ '\\' → d ≠ quote → Closed quote ds → Closed quote (d :: ds)
  | taken {d ds} : Closed quote ds → Closed quote ('\\' :: d :: ds)

/-- They are closed by the quote after them. -/
theorem Closed.closingQuote_eq {quote : Char} (hquote : quote ≠ '\\') (h : Closed quote cs)
    (rest : List Char) : closingQuote quote (cs ++ quote :: rest) = cs.length + 1 := by
  induction h with
  | nil => simp [closingQuote_cons hquote]
  | plain hc hne _ ih => simp [closingQuote_cons hc, hne, ih]
  | taken _ ih => simp [closingQuote_escape, ih]

theorem exists_closed {quote : Char} {cs : List Char} (h : closingQuote quote cs ≠ 0) :
    ∃ inner rest, cs = inner ++ quote :: rest ∧ Closed quote inner := by
  fun_induction closingQuote quote cs with
  | case1 | case2 | case5 | case6 => exact absurd rfl h
  | case3 d cs hcs ih =>
    obtain ⟨inner, rest, rfl, hinner⟩ := ih hcs
    exact ⟨'\\' :: d :: inner, rest, rfl, .taken hinner⟩
  | case4 d cs hescape hd => exact ⟨[], cs, congrArg (· :: cs) (eq_of_beq hd), .nil⟩
  | case7 d cs hescape hd hd' hcs ih =>
    obtain ⟨inner, rest, rfl, hinner⟩ := ih hcs
    exact ⟨d :: inner, rest, rfl, .plain (by simpa using hd') (by simpa using hd) hinner⟩

theorem Closed.quotedLength_eq {quote : Char} (hquote : quote ≠ '\\') (h : Closed quote cs)
    (rest : List Char) : quotedLength quote (quote :: (cs ++ quote :: rest)) = cs.length + 2 := by
  rw [quotedLength_cons, h.closingQuote_eq hquote]
  simp

/-- A quoted text is one that is closed, with its quotes. -/
theorem exists_quoted {quote : Char} (h : quotedLength quote cs ≠ 0) :
    ∃ inner rest, cs = quote :: (inner ++ quote :: rest) ∧ Closed quote inner := by
  cases cs with
  | nil => exact absurd rfl h
  | cons d cs =>
    rw [quotedLength_cons] at h
    split at h
    · rename_i hd
      split at h
      · exact absurd rfl h
      · rename_i hcs
        obtain ⟨inner, rest, rfl, hinner⟩ := exists_closed hcs
        exact ⟨inner, rest, congrArg (· :: _) (eq_of_beq hd), hinner⟩
    · exact absurd rfl h

theorem take_quoted {quote : Char} (inner rest : List Char) :
    (quote :: (inner ++ quote :: rest)).take (inner.length + 2) = quote :: (inner ++ [quote]) := by
  rw [List.take_succ_cons, List.take_length_add_append]
  rfl

/-- A quoted text that is closed ends at its closing quote. -/
theorem quotedLength_take_append {quote : Char} (hquote : quote ≠ '\\') {cs : List Char}
    (rest : List Char) (h : quotedLength quote cs ≠ 0) :
    quotedLength quote (cs.take (quotedLength quote cs) ++ rest) = quotedLength quote cs := by
  obtain ⟨inner, after, rfl, hinner⟩ := exists_quoted h
  rw [hinner.quotedLength_eq hquote, take_quoted, List.cons_append, List.append_assoc]
  exact hinner.quotedLength_eq hquote rest

theorem quotedLength_of_spells {t : Terminal} {quote : Char} {text : String}
    (ht : ∀ cs, t.length cs = quotedLength quote cs) (hquote : quote ≠ '\\') (h : t.Spells text)
    (rest : List Char) : quotedLength quote (text.toList ++ rest) = text.length := by
  obtain ⟨cs, hlength, rfl⟩ := h
  rw [← String.length_toList, String.toList_ofList, List.length_take_of_le (length_le _ _), ht]
  exact quotedLength_take_append hquote rest (ht cs ▸ hlength)

/-! ## Texts of one token -/

/-- The terminal of a text that is one token. -/
def ofText (text : String) : Terminal :=
  ((first? (fun _ => true) text.toList).map Prod.fst).getD .space

/-- Whatever is looked for, the text is read as one token before `rest`. -/
def Lexes (text : String) (rest : List Char) : Prop :=
  first? (fun _ => true) (text.toList ++ rest) = some (ofText text, text.length)

theorem lexes_of_first {t : Terminal} {text : String} {rest : List Char}
    (halone : first? (fun _ => true) text.toList = some (t, text.length))
    (hrest : first? (fun _ => true) (text.toList ++ rest) = some (t, text.length)) :
    Lexes text rest := by
  rw [Lexes, hrest, ofText, halone]
  rfl

/-- No other terminal starts with the first character of the text. -/
theorem first?_of_only {p : Terminal → Bool} {t : Terminal} {d : Char} (hp : p t = true)
    (honly : all.filter (starts d) = [t]) (hlength : t.length (d :: cs) ≠ 0) :
    first? p (d :: cs) = some (t, t.length (d :: cs)) := by
  rw [first?_cons, honly, List.find?_cons_of_pos (by simpa [hp] using hlength), Option.map_some]

theorem Spells.length_pos {t : Terminal} {text : String} (h : t.Spells text) : 0 < text.length := by
  obtain ⟨cs, hlength, rfl⟩ := h
  rw [← String.length_toList, String.toList_ofList, List.length_take_of_le (length_le _ _)]
  omega

theorem Spells.first?_number {text : String} {rest : List Char} (h : number.Spells text)
    (hrest : Separated rest) :
    first? (fun _ => true) (text.toList ++ rest) = some (number, text.length) := by
  have hlength := h.numberLength_eq hrest
  have hpos := h.length_pos
  have hfind : all.find? (fun t => true && t.length (text.toList ++ rest) != 0) = some number := by
    apply List.find?_cons_of_pos
    simp only [length, hlength, Bool.true_and, bne_iff_ne]
    omega
  rw [first?_eq_find?, hfind, Option.map_some, length, hlength]

theorem Spells.first?_variable {text : String} {rest : List Char}
    (h : Terminal.variable.Spells text) (hrest : Separated rest) :
    first? (fun _ => true) (text.toList ++ rest) = some (.variable, text.length) := by
  have hlength := h.variableLength_eq hrest
  have hpos := h.length_pos
  obtain ⟨d, ds, -, htext⟩ := h.variable_toList
  rw [htext] at hlength ⊢
  rw [List.cons_append] at hlength ⊢
  rw [first?_of_only (t := .variable) rfl (by decide) (by rw [length, hlength]; omega), length,
    hlength]

/-- A text spelt by a quoted literal is closed characters between its quotes. -/
theorem Spells.quoted_toList {t : Terminal} {quote : Char} {text : String} (hquote : quote ≠ '\\')
    (ht : ∀ cs, t.length cs = quotedLength quote cs) (h : t.Spells text) :
    ∃ inner, text.toList = quote :: (inner ++ [quote]) ∧ Closed quote inner := by
  obtain ⟨cs, hlength, rfl⟩ := h
  rw [ht] at hlength
  obtain ⟨inner, rest, rfl, hinner⟩ := exists_quoted hlength
  refine ⟨inner, ?_, hinner⟩
  rw [String.toList_ofList, ht, hinner.quotedLength_eq hquote, take_quoted]

/-- Closed characters between quotes are a quoted literal. -/
theorem Closed.spells {t : Terminal} {quote : Char} {inner : List Char} (hquote : quote ≠ '\\')
    (ht : ∀ cs, t.length cs = quotedLength quote cs) (h : Closed quote inner) :
    t.Spells (String.ofList (quote :: (inner ++ [quote]))) := by
  have hlength := h.quotedLength_eq hquote []
  refine ⟨quote :: (inner ++ [quote]), ?_, ?_⟩
  · rw [ht, hlength]
    exact Nat.succ_ne_zero _
  · rw [ht, hlength, take_quoted]

theorem Spells.first?_quoted {p : Terminal → Bool} {t : Terminal} {quote : Char} {text : String}
    (hp : p t = true) (ht : ∀ cs, t.length cs = quotedLength quote cs) (hquote : quote ≠ '\\')
    (honly : all.filter (starts quote) = [t]) (h : t.Spells text) (rest : List Char) :
    first? p (text.toList ++ rest) = some (t, text.length) := by
  have hlength := quotedLength_of_spells ht hquote h rest
  have hpos := h.length_pos
  obtain ⟨inner, htext, -⟩ := h.quoted_toList hquote ht
  rw [htext] at hlength ⊢
  rw [List.cons_append] at hlength ⊢
  rw [first?_of_only hp honly (by rw [ht, hlength]; omega), ht, hlength]

theorem ofText_of_first {t : Terminal} {text : String}
    (h : first? (fun _ => true) (text.toList ++ []) = some (t, text.length)) : ofText text = t := by
  rw [List.append_nil] at h
  rw [ofText, h]
  rfl

theorem Spells.ofText_number {text : String} (h : number.Spells text) : ofText text = number :=
  ofText_of_first (h.first?_number rfl)

theorem Spells.ofText_variable {text : String} (h : Terminal.variable.Spells text) :
    ofText text = .variable :=
  ofText_of_first (h.first?_variable rfl)

theorem Spells.ofText_doubleQuoted {text : String} (h : doubleQuoted.Spells text) :
    ofText text = doubleQuoted :=
  ofText_of_first (h.first?_quoted rfl (fun _ => rfl) (by decide) rfl [])

theorem Spells.ofText_singleQuoted {text : String} (h : singleQuoted.Spells text) :
    ofText text = singleQuoted :=
  ofText_of_first (h.first?_quoted rfl (fun _ => rfl) (by decide) rfl [])

/-- The terminal of a binary operator. -/
def ofBinary : BinaryOp → Terminal
  | .lowOr => lowOr
  | .lowXor => lowXor
  | .lowAnd => lowAnd
  | .coalesce => coalesce
  | .or => orOp
  | .and => andOp
  | .equal | .notEqual | .differs | .identical | .notIdentical | .spaceship => equalityOp
  | .less | .lessOrEqual | .greater | .greaterOrEqual => comparisonOp
  | .concat => dot
  | .add | .sub => sumOp
  | .mul | .div | .mod => productOp
  | .pow => powerOp

/-- Texts of one token that may stand before any separator, and their terminals. -/
def symbols : List (String × Terminal) :=
  [("(", openParen), (")", closeParen), ("[", openBracket), ("]", closeBracket), (",", comma),
    (";", semicolon), ("=>", arrow), ("&", ampersand), ("!", bang), ("=", equals),
    ("array", array), ("true", trueWord), ("false", falseWord), ("null", nullWord),
    ("NULL", nullWord)] ++
  BinaryOp.all.map (fun op => (op.symbol, ofBinary op)) ++
  ["**=", "??=", "+=", "-=", "*=", "/=", ".=", "%="].map (·, assignOp)

theorem mem_symbols_binary (op : BinaryOp) : (op.symbol, ofBinary op) ∈ symbols := by
  have hop : op ∈ BinaryOp.all := by
    cases op <;> decide
  refine List.mem_append_left _ (List.mem_append_right _ ?_)
  exact List.mem_map_of_mem (f := fun op => (op.symbol, ofBinary op)) hop

theorem mem_symbols_assign {text : String} (h : assignOp.Spells text) :
    (text, assignOp) ∈ symbols :=
  List.mem_append_right _ (List.mem_map_of_mem (f := (·, assignOp)) h.assignOp_text)

theorem first?_symbol : ∀ s ∈ symbols,
    first? (fun _ => true) s.1.toList = some (s.2, s.1.length) := by
  decide +kernel

theorem ofText_symbol (t : Terminal) {text : String} (h : (text, t) ∈ symbols) :
    ofText text = t := by
  rw [ofText, first?_symbol _ h]
  rfl

theorem ofText_openParen : ofText "(" = openParen := ofText_symbol _ (by simp [symbols])

theorem ofText_closeParen : ofText ")" = closeParen := ofText_symbol _ (by simp [symbols])

theorem ofText_openBracket : ofText "[" = openBracket := ofText_symbol _ (by simp [symbols])

theorem ofText_closeBracket : ofText "]" = closeBracket := ofText_symbol _ (by simp [symbols])

theorem ofText_comma : ofText "," = comma := ofText_symbol _ (by simp [symbols])

theorem ofText_semicolon : ofText ";" = semicolon := ofText_symbol _ (by simp [symbols])

theorem ofText_arrow : ofText "=>" = arrow := ofText_symbol _ (by simp [symbols])

theorem ofText_ampersand : ofText "&" = ampersand := ofText_symbol _ (by simp [symbols])

theorem ofText_bang : ofText "!" = bang := ofText_symbol _ (by simp [symbols])

theorem ofText_equals : ofText "=" = equals := ofText_symbol _ (by simp [symbols])

theorem ofText_array : ofText "array" = array := ofText_symbol _ (by simp [symbols])

theorem ofText_trueWord : ofText "true" = trueWord := ofText_symbol _ (by simp [symbols])

theorem ofText_falseWord : ofText "false" = falseWord := ofText_symbol _ (by simp [symbols])

theorem ofText_nullWord : ofText "null" = nullWord := ofText_symbol _ (by simp [symbols])

theorem ofText_nullUpper : ofText "NULL" = nullWord := ofText_symbol _ (by simp [symbols])

theorem first?_congr {p : Terminal → Bool} {d : Char} {as bs : List Char}
    (h : ∀ t ∈ all.filter (starts d), t.length (d :: as) = t.length (d :: bs)) :
    first? p (d :: as) = first? p (d :: bs) := by
  rw [first?_cons, first?_cons]
  generalize all.filter (starts d) = ts at h
  induction ts with
  | nil => rfl
  | cons t ts ih =>
    rw [List.forall_mem_cons] at h
    by_cases ht : (p t && t.length (d :: bs) != 0) = true
    · rw [List.find?_cons_of_pos (by rwa [h.1]), List.find?_cons_of_pos (by exact ht),
        Option.map_some, Option.map_some, h.1]
    · rw [List.find?_cons_of_neg (by rwa [h.1]), List.find?_cons_of_neg (by exact ht), ih h.2]

theorem lexes_of_only {t : Terminal} {text : String} {d : Char}
    (ht : ∀ cs, t.length cs = oneOf [text] cs) (htext : text.toList = [d])
    (honly : all.filter (starts d) = [t]) (rest : List Char) : Lexes text rest := by
  have hlength : ∀ rest, t.length (d :: rest) = text.length := by
    intro rest
    simp [ht, oneOf, htext]
  have hpos : text.length = 1 := by
    rw [← String.length_toList, htext]
    rfl
  have hfirst : ∀ rest, first? (fun _ => true) (d :: rest) = some (t, text.length) := by
    intro rest
    rw [first?_of_only rfl honly (by rw [hlength]; omega), hlength]
  refine lexes_of_first (t := t) ?_ ?_
  · rw [htext]
    exact hfirst []
  · rw [htext]
    exact hfirst rest

/-- Brackets, commas and semicolons are tokens whatever follows. -/
theorem lexes_bracket {text : String} (h : text ∈ ["(", ")", "[", "]", ",", ";"])
    (rest : List Char) : Lexes text rest := by
  simp only [List.mem_cons, List.not_mem_nil, or_false] at h
  rcases h with rfl | rfl | rfl | rfl | rfl | rfl
  · exact lexes_of_only (t := openParen) (fun _ => rfl) rfl rfl rest
  · exact lexes_of_only (t := closeParen) (fun _ => rfl) rfl rfl rest
  · exact lexes_of_only (t := openBracket) (fun _ => rfl) rfl rfl rest
  · exact lexes_of_only (t := closeBracket) (fun _ => rfl) rfl rfl rest
  · exact lexes_of_only (t := comma) (fun _ => rfl) rfl rfl rest
  · exact lexes_of_only (t := semicolon) (fun _ => rfl) rfl rfl rest

/-- What starts with a slash is no comment before a separator. -/
theorem length_slash_append {t : Terminal} {cs : List Char} (hcs : cs ∈ [[], ['=']])
    (ht : t ∈ [blockComment, lineComment, assignOp, productOp]) (hc : separates c = true)
    (rest : List Char) : t.length ('/' :: cs ++ c :: rest) = t.length ('/' :: cs) := by
  have hne : c ≠ '*' ∧ c ≠ '/' := by
    refine of_separates hc ?_
    decide
  simp only [List.mem_cons, List.not_mem_nil, or_false] at hcs ht
  rcases ht with rfl | rfl | rfl | rfl
  · rcases hcs with rfl | rfl <;> simp [length, blockCommentLength, hne.1]
  · rcases hcs with rfl | rfl <;> simp [length, lineCommentLength, hne.2]
  · exact length_append rfl hc _ rest
  · exact length_append rfl hc _ rest

/-- The first character of a symbol starts no terminal that goes on past a separator, brackets and
slashes apart. -/
theorem compact_symbol : ∀ s ∈ symbols,
    s.1 ∈ ["(", ")", "[", "]", ",", ";"] ∨ s.1 ∈ ["/", "/="] ∨
      (s.1.toList.head?.any fun d => (all.filter (starts d)).all compact) = true := by
  decide +kernel

theorem lexes_of_mem {t : Terminal} {text : String} {rest : List Char} (h : (text, t) ∈ symbols)
    (hrest : Separated rest) : Lexes text rest := by
  have halone := first?_symbol _ h
  dsimp only at halone
  cases rest with
  | nil => exact lexes_of_first halone (by rwa [List.append_nil])
  | cons c rest =>
    rcases compact_symbol _ h with hmem | hslash | hcompact
    · exact lexes_bracket hmem (c :: rest)
    · obtain ⟨cs, hcs, htext⟩ : ∃ cs ∈ [[], ['=']], text.toList = '/' :: cs := by
        simp only [List.mem_cons, List.not_mem_nil, or_false] at hslash
        rcases hslash with rfl | rfl
        · exact ⟨[], by decide, rfl⟩
        · exact ⟨['='], by decide, rfl⟩
      refine lexes_of_first halone ?_
      rw [← halone, htext, List.cons_append]
      apply first?_congr
      intro t ht
      exact length_slash_append hcs ht hrest rest
    · dsimp only at hcompact
      cases htext : text.toList with
      | nil => simp [htext] at hcompact
      | cons d ds =>
        rw [htext, List.head?_cons, Option.any_some, List.all_eq_true] at hcompact
        refine lexes_of_first halone ?_
        rw [← halone, htext, List.cons_append]
        apply first?_congr
        intro t ht
        exact length_append (hcompact t ht) hrest (d :: ds) rest

end PhpInterpreter.Source.Terminal
