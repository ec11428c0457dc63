import PhpInterpreter.Assoc
import Mathlib.Data.List.Nodup

/-!
Lookups in association lists after each change, and what a change does to the keys.
-/

namespace PhpInterpreter.Assoc

variable {κ α β : Type} [DecidableEq κ]

@[simp] theorem get?_cons (key k : κ) (v : α) (rest : List (κ × α)) :
    get? key ((k, v) :: rest) = if k = key then some v else get? key rest := rfl

theorem insert_cons (key k : κ) (v w : α) (rest : List (κ × α)) :
    insert key v ((k, w) :: rest) =
      if k = key then (k, v) :: rest else (k, w) :: insert key v rest := rfl

theorem modify_cons (key k : κ) (f : α → α) (v : α) (rest : List (κ × α)) :
    modify key f ((k, v) :: rest) =
      if k = key then (k, f v) :: rest else (k, v) :: modify key f rest := rfl

theorem erase_cons (key k : κ) (v : α) (rest : List (κ × α)) :
    erase key ((k, v) :: rest) = if k = key then rest else (k, v) :: erase key rest := rfl

theorem mem_of_get? {key : κ} {v : α} {l : List (κ × α)} (h : get? key l = some v) :
    (key, v) ∈ l := by
  induction l with
  | nil => simp at h
  | cons e rest ih =>
    obtain ⟨k, w⟩ := e
    grind [get?_cons]

omit [DecidableEq κ] in
theorem mem_keys_of_mem {p : κ × α} {l : List (κ × α)} (h : p ∈ l) : p.1 ∈ keys l :=
  List.mem_map_of_mem h

theorem mem_keys_iff {key : κ} {l : List (κ × α)} : key ∈ keys l ↔ ∃ v, get? key l = some v := by
  induction l with
  | nil => simp [keys]
  | cons e rest ih =>
    obtain ⟨k, w⟩ := e
    by_cases hk : k = key
    · simp [keys, hk]
    · simpa [keys, hk, Ne.symm hk] using ih

theorem get?_eq_none_iff {key : κ} {l : List (κ × α)} : get? key l = none ↔ key ∉ keys l := by
  rw [mem_keys_iff, Option.eq_none_iff_forall_ne_some, not_exists]

theorem mem_keys_of_get? {key : κ} {v : α} {l : List (κ × α)} (h : get? key l = some v) :
    key ∈ keys l := mem_keys_iff.2 ⟨v, h⟩

/-- Where no key stands twice, every entry is found under its key. -/
theorem get?_of_mem {key : κ} {v : α} {l : List (κ × α)} (hl : (keys l).Nodup)
    (h : (key, v) ∈ l) : get? key l = some v := by
  induction l with
  | nil => simp at h
  | cons e rest ih =>
    obtain ⟨hne, hrest⟩ := List.nodup_cons.1 hl
    rcases List.mem_cons.1 h with rfl | h
    · simp
    · have hk : e.1 ≠ key := by
        intro he
        exact hne (show e.1 ∈ keys rest from he ▸ mem_keys_of_mem h)
      exact (get?_cons key e.1 e.2 rest).trans ((if_neg hk).trans (ih hrest h))

theorem get?_map (key : κ) (g : α → β) (l : List (κ × α)) :
    get? key (l.map fun p => (p.1, g p.2)) = (get? key l).map g := by
  induction l with
  | nil => rfl
  | cons p rest ih =>
    rw [List.map_cons, get?_cons, ih, get?_cons]
    split <;> rfl

theorem contains_iff {key : κ} {l : List (κ × α)} : contains key l = true ↔ key ∈ keys l := by
  rw [contains, mem_keys_iff, Option.isSome_iff_exists]

/-! ## Insertion -/

theorem insert_of_notMem {key : κ} {l : List (κ × α)} (v : α) (h : key ∉ keys l) :
    insert key v l = l ++ [(key, v)] := by
  induction l with
  | nil => rfl
  | cons e rest ih =>
    obtain ⟨k, w⟩ := e
    grind [insert_cons, keys]

theorem mem_insert {key : κ} {v : α} {p : κ × α} {l : List (κ × α)} (h : p ∈ insert key v l) :
    p = (key, v) ∨ p ∈ l := by
  induction l with
  | nil => exact .inl (List.mem_singleton.1 h)
  | cons e rest ih =>
    obtain ⟨k, w⟩ := e
    grind [insert_cons]

theorem mem_keys_insert {key k : κ} {v : α} {l : List (κ × α)} :
    k ∈ keys (insert key v l) ↔ k = key ∨ k ∈ keys l := by
  simp only [mem_keys_iff, get?_insert]
  by_cases hk : key = k
  · simp [hk]
  · simp [hk, Ne.symm hk]

theorem nodup_keys_insert {key : κ} {v : α} {l : List (κ × α)} (hl : (keys l).Nodup) :
    (keys (insert key v l)).Nodup := by
  rw [keys_insert]
  split
  · exact hl
  · rename_i h
    rw [contains_iff] at h
    exact List.nodup_append.2 ⟨hl, by simp, by grind⟩

theorem insert_insert (key : κ) (v w : α) (l : List (κ × α)) :
    insert key v (insert key w l) = insert key v l := by
  induction l with
  | nil => exact (insert_cons key key v w []).trans (if_pos rfl)
  | cons e rest ih =>
    obtain ⟨k, w⟩ := e
    grind [insert_cons]

theorem insert_eq_self {key : κ} {v : α} {l : List (κ × α)} (h : get? key l = some v) :
    insert key v l = l := by
  induction l with
  | nil => simp at h
  | cons e rest ih =>
    obtain ⟨k, w⟩ := e
    grind [insert_cons, get?_cons]

/-! ## Modification -/

theorem get?_modify (key k : κ) (f : α → α) (l : List (κ × α)) :
    get? k (modify key f l) = if key = k then (get? k l).map f else get? k l := by
  induction l with
  | nil => exact (ite_self none).symm
  | cons e rest ih =>
    obtain ⟨k, w⟩ := e
    grind [modify_cons, get?_cons]

@[simp] theorem keys_modify (key : κ) (f : α → α) (l : List (κ × α)) :
    keys (modify key f l) = keys l := by
  induction l with
  | nil => rfl
  | cons e rest ih =>
    obtain ⟨k, w⟩ := e
    grind [modify_cons, keys]

theorem mem_modify {key : κ} {f : α → α} {p : κ × α} {l : List (κ × α)}
    (h : p ∈ modify key f l) : p ∈ l ∨ ∃ v, get? key l = some v ∧ p = (key, f v) := by
  induction l with
  | nil => exact absurd h List.not_mem_nil
  | cons e rest ih =>
    obtain ⟨k, w⟩ := e
    grind [modify_cons, get?_cons]

/-- A change that a function of the entries does not see is not seen in their images. -/
theorem map_modify (key : κ) {f : α → α} {g : κ × α → β} (l : List (κ × α))
    (h : ∀ v, get? key l = some v → g (key, f v) = g (key, v)) :
    (modify key f l).map g = l.map g := by
  induction l with
  | nil => rfl
  | cons e rest ih =>
    obtain ⟨k, v⟩ := e
    by_cases hk : k = key
    · subst k
      simp [modify_cons, h v]
    · simp only [modify_cons, hk, if_false, List.map_cons, ih fun w hw => h w (by simpa [hk])]

theorem modify_modify (key : κ) (f g : α → α) (l : List (κ × α)) :
    modify key f (modify key g l) = modify key (fun v => f (g v)) l := by
  induction l with
  | nil => rfl
  | cons e rest ih =>
    obtain ⟨k, w⟩ := e
    grind [modify_cons]

theorem modify_eq_self {key : κ} {f : α → α} {l : List (κ × α)}
    (h : ∀ v, get? key l = some v → f v = v) : modify key f l = l := by
  induction l with
  | nil => rfl
  | cons e rest ih =>
    obtain ⟨k, w⟩ := e
    grind [modify_cons, get?_cons]

theorem modify_insert (key : κ) (f : α → α) (v : α) (l : List (κ × α)) :
    modify key f (insert key v l) = insert key (f v) l := by
  induction l with
  | nil => exact (modify_cons key key f v []).trans (if_pos rfl)
  | cons e rest ih =>
    obtain ⟨k, w⟩ := e
    grind [insert_cons, modify_cons]

/-! ## Removal -/

theorem get?_erase_of_ne {key k : κ} (h : k ≠ key) (l : List (κ × α)) :
    get? k (erase key l) = get? k l := by
  induction l with
  | nil => rfl
  | cons e rest ih =>
    obtain ⟨k, w⟩ := e
    grind [erase_cons, get?_cons]

theorem keys_erase (key : κ) (l : List (κ × α)) : keys (erase key l) = (keys l).erase key := by
  induction l with
  | nil => rfl
  | cons e rest ih =>
    obtain ⟨k, w⟩ := e
    grind [erase_cons, keys]

theorem nodup_keys_erase {key : κ} {l : List (κ × α)} (hl : (keys l).Nodup) :
    (keys (erase key l)).Nodup := by
  rw [keys_erase]
  exact hl.erase key

theorem get?_erase_self {key : κ} {l : List (κ × α)} (hl : (keys l).Nodup) :
    get? key (erase key l) = none := by
  rw [get?_eq_none_iff, keys_erase]
  exact fun h => (hl.mem_erase_iff.1 h).1 rfl

theorem mem_of_mem_erase {key : κ} {p : κ × α} {l : List (κ × α)} (h : p ∈ erase key l) :
    p ∈ l := by
  induction l with
  | nil => exact absurd h List.not_mem_nil
  | cons e rest ih =>
    obtain ⟨k, w⟩ := e
    grind [erase_cons]

theorem mem_erase_of_ne {key : κ} {v : α} {p : κ × α} {l : List (κ × α)}
    (hv : get? key l = some v) (hne : p ≠ (key, v)) (h : p ∈ l) : p ∈ erase key l := by
  induction l with
  | nil => simp at h
  | cons e rest ih =>
    obtain ⟨k, w⟩ := e
    grind [erase_cons, get?_cons]

/-- Removing the keys of a class one after the other leaves the entries outside it. -/
theorem foldl_erase_filter (p : κ → Bool) {l : List (κ × α)} (hl : (keys l).Nodup) :
    ((keys l).filter p).foldl (fun l k => erase k l) l = l.filter fun e => !p e.1 := by
  induction l with
  | nil => rfl
  | cons e rest ih =>
    obtain ⟨hne, hrest⟩ := List.nodup_cons.1 hl
    -- The keys that are removed from the rest are not the first one, so the first entry stays.
    have hcons : ∀ (ks : List κ) (r : List (κ × α)), e.1 ∉ ks →
        ks.foldl (fun l k => erase k l) (e :: r) = e :: ks.foldl (fun l k => erase k l) r := by
      intro ks
      induction ks with
      | nil => intro r _; rfl
      | cons k ks ihk =>
        intro r hk
        have hek : e.1 ≠ k := fun h => hk (h ▸ List.mem_cons_self)
        simp only [List.foldl_cons, erase, hek, if_false]
        exact ihk _ fun h => hk (List.mem_cons_of_mem _ h)
    by_cases hp : p e.1
    · simpa [keys, hp, erase] using ih hrest
    · have hout : e.1 ∉ (keys rest).filter p := fun h => hne (List.mem_filter.1 h).1
      have hih := ih hrest
      simp only [keys] at hih hout
      simp only [keys, List.map_cons, List.filter_cons, hp, Bool.false_eq_true, if_false,
        Bool.not_false, if_true]
      rw [hcons _ _ hout, hih]

end PhpInterpreter.Assoc
