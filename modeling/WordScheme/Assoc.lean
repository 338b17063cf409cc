/-!
# Association lists

Small maps whose order of first insertion matters or does no harm. A key occurs at most once as
long as values are only put with `Assoc.put`, which replaces in place.
-/

namespace WordScheme

/-- Keys with a value each. -/
abbrev Assoc (α β : Type) := List (α × β)

namespace Assoc

variable {α β : Type} [DecidableEq α]

/-- The value of a key. -/
def get? : Assoc α β → α → Option β
  | [], _ => none
  | (k, v) :: rest, key => if k = key then some v else get? rest key

/-- Whether the key has a value. -/
def has (m : Assoc α β) (key : α) : Bool :=
  (m.get? key).isSome

/-- Gives a key a value: in place of its old one, or at the end. -/
def put : Assoc α β → α → β → Assoc α β
  | [], key, value => [(key, value)]
  | (k, v) :: rest, key, value =>
    if k = key then (key, value) :: rest else (k, v) :: put rest key value

@[simp]
theorem get?_put_self (m : Assoc α β) (key : α) (value : β) :
    (m.put key value).get? key = some value := by
  induction m with
  | nil => simp [put, get?]
  | cons p m ih =>
    by_cases h : p.1 = key
    · simp [put, get?, h]
    · simp [put, get?, h, ih]

theorem get?_put_of_ne (m : Assoc α β) {key other : α} (value : β) (h : other ≠ key) :
    (m.put key value).get? other = m.get? other := by
  induction m with
  | nil => simp [put, get?, h.symm]
  | cons p m ih =>
    by_cases hp : p.1 = key
    · simp [put, get?, hp, h.symm]
    · simp [put, get?, hp, ih]

/-- A value that is found stands in the list. -/
theorem mem_of_get? {m : Assoc α β} {key : α} {value : β} (h : m.get? key = some value) :
    (key, value) ∈ m := by
  induction m with
  | nil => cases h
  | cons p m ih =>
    rw [get?] at h
    split at h
    · next hp =>
      cases h
      exact hp ▸ List.mem_cons_self
    · exact List.mem_cons_of_mem _ (ih h)

/-- What stands in a list after a change is what stood there, or the new value. -/
theorem mem_put {m : Assoc α β} {key : α} {value : β} {x : α × β} (h : x ∈ m.put key value) :
    x ∈ m ∨ x = (key, value) := by
  induction m with
  | nil => exact .inr (List.mem_singleton.mp h)
  | cons p m ih =>
    rw [put] at h
    split at h
    · exact (List.mem_cons.mp h).symm.imp_left (List.mem_cons_of_mem _)
    · rcases List.mem_cons.mp h with rfl | h
      · exact .inl List.mem_cons_self
      · exact (ih h).imp_left (List.mem_cons_of_mem _)

/-- The keys that have a value are those in the list. -/
theorem isSome_get?_iff {m : Assoc α β} {key : α} :
    (m.get? key).isSome = true ↔ key ∈ m.map Prod.fst := by
  induction m with
  | nil => simp [get?]
  | cons p m ih =>
    rw [get?, List.map_cons, List.mem_cons]
    by_cases h : p.1 = key
    · simp [h]
    · rw [if_neg h, ih, or_iff_right (Ne.symm h)]

/-- A key that has no value gets it at the end. -/
theorem put_of_notMem {m : Assoc α β} {key : α} (h : key ∉ m.map Prod.fst) (value : β) :
    m.put key value = m ++ [(key, value)] := by
  induction m with
  | nil => rfl
  | cons p m ih =>
    rw [List.map_cons, List.mem_cons, not_or] at h
    rw [put, if_neg (Ne.symm h.1), ih h.2, List.cons_append]

/-- Where keys are distinct, a value that stands in the list is found. -/
theorem get?_of_mem {m : Assoc α β} (hm : (m.map Prod.fst).Nodup) {key : α} {value : β}
    (h : (key, value) ∈ m) : m.get? key = some value := by
  induction m with
  | nil => cases h
  | cons p m ih =>
    rw [List.map_cons, List.nodup_cons] at hm
    rw [get?]
    rcases List.mem_cons.mp h with rfl | h
    · exact if_pos rfl
    · rw [if_neg, ih hm.2 h]
      rintro rfl
      exact hm.1 (List.mem_map.mpr ⟨_, h, rfl⟩)

end Assoc

end WordScheme
