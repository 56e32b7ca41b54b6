/-!
# Association lists in insertion order

A key is bound at most once. Binding a key again keeps its place and changes its value.
-/

namespace Sigil

/-- Values by name, in the order in which the names were first bound. -/
abbrev Assoc (β : Type) := List (String × β)

namespace Assoc

variable {β : Type}

/-- The value of a key. -/
def get? (key : String) : Assoc β → Option β
  | [] => none
  | (k, v) :: rest => if k = key then some v else get? key rest

/-- Binds a key, in its old place or at the end. -/
def put (key : String) (value : β) : Assoc β → Assoc β
  | [] => [(key, value)]
  | (k, v) :: rest => if k = key then (k, value) :: rest else (k, v) :: put key value rest

/-- Whether a key is bound. -/
def has (key : String) (m : Assoc β) : Bool :=
  (get? key m).isSome

/-- Binds a key if it is not bound. -/
def putNew (key : String) (value : β) (m : Assoc β) : Assoc β :=
  if has key m then m else m ++ [(key, value)]

@[simp] theorem get?_put_self (key : String) (value : β) (m : Assoc β) :
    get? key (put key value m) = some value := by
  induction m with
  | nil => simp [put, get?]
  | cons kv rest ih =>
    obtain ⟨k, v⟩ := kv
    by_cases h : k = key <;> simp [put, get?, h, ih]

theorem get?_put_of_ne {key other : String} (h : key ≠ other) (value : β) (m : Assoc β) :
    get? other (put key value m) = get? other m := by
  induction m with
  | nil => simp [put, get?, h]
  | cons kv rest ih =>
    obtain ⟨k, v⟩ := kv
    by_cases hk : k = key
    · subst hk
      simp [put, get?, h]
    · by_cases ho : k = other <;> simp [put, get?, hk, ho, ih, h.symm]

theorem get?_append (key : String) (m₁ m₂ : Assoc β) :
    get? key (m₁ ++ m₂) = (get? key m₁).or (get? key m₂) := by
  induction m₁ with
  | nil => rfl
  | cons kv rest ih =>
    obtain ⟨k, v⟩ := kv
    by_cases hk : k = key
    · simp [get?, hk]
    · simpa [get?, hk] using ih

/-- Binding a key that is new adds it at the end. -/
theorem put_of_not_has {key : String} {m : Assoc β} (h : has key m = false) (value : β) :
    put key value m = m ++ [(key, value)] := by
  induction m with
  | nil => rfl
  | cons kv rest ih =>
    obtain ⟨k, v⟩ := kv
    by_cases hk : k = key
    · simp [has, get?, hk] at h
    · simp only [has, get?, hk, if_false] at h
      simp [put, hk, ih h]

end Assoc

end Sigil
