import PhpInterpreter.Proofs.Scope.Operation

/-!
Cells and the places inside them: setting under a path and reading under it agree, and a place that
can be set stays one after it was set.
-/

namespace PhpInterpreter

namespace Value

variable {v w new : Value} {k : Key} {path : List Key}

/-- There is something to set under the path, whatever is set there. -/
def Settable (v : Value) (path : List Key) : Prop := ∀ new, (v.setAt? path new).isSome

theorem settable_nil (v : Value) : v.Settable [] := fun new => by
  rw [setAt?_nil, Option.isSome_some]

theorem get?_replace {t : Table Value} (h : t.get? k = some v) :
    (t.replace k new).get? k = some new := by
  rw [Table.get?] at h
  simp [Table.get?, Table.replace, Assoc.get?_modify, h]

theorem descend_setAt? (h : v.setAt? path new = some w) : w.descend path = new := by
  induction path generalizing v w with
  | nil =>
    obtain rfl : new = w := by simpa [setAt?_nil] using h
    rw [descend_nil]
  | cons k rest ih =>
    cases v with
    | array t =>
      cases rest with
      | nil =>
        obtain rfl : array (t.set k new) = w := by simpa [setAt?] using h
        simp [descend, Table.get?, Table.set, Assoc.get?_insert]
      | cons k' rest =>
        simp only [setAt?, Option.bind_eq_bind, Option.bind_eq_some_iff] at h
        obtain ⟨inner, hinner, inner', hinner', hw⟩ := h
        obtain rfl : array (t.replace k inner') = w := by simpa using hw
        rw [descend, get?_replace hinner]
        exact ih hinner'
    | _ => simp [setAt?] at h

theorem settable_setAt? (h : v.setAt? path new = some w) : w.Settable path := by
  intro other
  induction path generalizing v w with
  | nil => rw [setAt?_nil, Option.isSome_some]
  | cons k rest ih =>
    cases v with
    | array t =>
      cases rest with
      | nil =>
        obtain rfl : array (t.set k new) = w := by simpa [setAt?] using h
        simp [setAt?]
      | cons k' rest =>
        simp only [setAt?, Option.bind_eq_bind, Option.bind_eq_some_iff] at h
        obtain ⟨inner, hinner, inner', hinner', hw⟩ := h
        obtain rfl : array (t.replace k inner') = w := by simpa using hw
        obtain ⟨x, hx⟩ := Option.isSome_iff_exists.1 (ih hinner')
        simp [setAt?, get?_replace hinner, hx]
    | _ => simp [setAt?] at h

/-- Under an array there is always something to set. -/
theorem settable_concat {t : Table Value} (h : v.descend path = array t) (k : Key) :
    v.Settable (path ++ [k]) := by
  intro new
  induction path generalizing v with
  | nil =>
    obtain rfl : v = array t := by simpa [descend] using h
    simp [setAt?]
  | cons k' rest ih =>
    cases v with
    | array u =>
      rw [descend] at h
      cases hget : u.get? k' with
      | none => simp [hget] at h
      | some inner =>
        obtain ⟨inner', hinner⟩ := Option.isSome_iff_exists.1 (ih (by simpa [hget] using h))
        cases rest <;> simp_all [setAt?]
    | _ => simp [descend] at h

end Value

namespace Environment

variable {e e' : Environment} {l : Location} {v : Value}

/-- The whole cell that a location lies in. -/
def cell? (e : Environment) (l : Location) : Option Value :=
  (e.scope? l.scope).bind fun s => Assoc.get? l.slot s.cells

/-- The location lies in a cell and can be written; a character lies in a string. -/
def Valid (e : Environment) (l : Location) : Prop :=
  ∃ v, e.cell? l = some v ∧ v.Settable l.path ∧
    (l.char?.isSome → ∃ s, v.descend l.path = .string s)

theorem load_eq (hc : e.cell? l = some v) (hchar : l.char? = none) :
    e.load l = v.descend l.path := by
  have hcell : (e.scope? l.scope).bind (fun s => Assoc.get? l.slot s.cells) = some v := hc
  rw [load, hcell, hchar]

theorem cell?_written {new old : Value} (hc : e.cell? l = some old) :
    (Scoped.written l new e).cell? l = some new := by
  obtain ⟨s, hs, hslot⟩ := Option.bind_eq_some_iff.1 hc
  simp [cell?, Scoped.written, hs, hslot, Assoc.get?_modify]

/-- A store at a valid location of a slot succeeds, and the value is there. -/
theorem Valid.ends_store (h : e.Valid l) (hchar : l.char? = none) :
    Ends (Scoped.store l v) e
      (fun _ e' => e'.Valid l ∧ ∃ new, e'.cell? l = some new ∧ new.descend l.path = v)
      (fun _ _ => False) := by
  obtain ⟨old, hc, hset, -⟩ := h
  obtain ⟨s, hs, hslot⟩ := Option.bind_eq_some_iff.1 hc
  rw [Scoped.ends_store]
  refine ⟨fun hsome => by simp [hchar] at hsome, fun _ => ⟨fun hnone => by simp [hs] at hnone, ?_⟩⟩
  intro t ht
  obtain rfl : s = t := by simpa [hs] using ht
  refine ⟨fun hnone => by simp [hslot] at hnone, fun o ho => ?_⟩
  obtain rfl : old = o := by simpa [hslot] using ho
  refine ⟨fun hnone => by simpa [hnone] using hset v, fun new hnew => ?_⟩
  exact ⟨⟨new, cell?_written hc, Value.settable_setAt? hnew, by simp [hchar]⟩,
    new, cell?_written hc, Value.descend_setAt? hnew⟩

/-- What a name of a linked environment stands for is valid. -/
theorem Linked.valid_of_names {i : Int} {name : String} (h : Linked e) (hn : e.Names i name l) :
    e.Valid l := by
  obtain ⟨-, -, -, ho, hpath, hchar⟩ := hn
  obtain ⟨s, hs, hslot⟩ := (h.owner_iff _ _).1 ho
  obtain ⟨v, hv⟩ := Assoc.mem_keys_iff.1 hslot
  refine ⟨v, by simp [cell?, hs, hv], ?_, by simp [hchar]⟩
  rw [hpath]
  exact v.settable_nil

end Environment

end PhpInterpreter
