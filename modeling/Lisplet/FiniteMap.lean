/-
# Lisplet.FiniteMap -- finite maps in insertion order

A finite map as a list of entries.  A new key goes to the end and a known key keeps its place, so the
order of the entries is the order in which the keys first appeared.  The two laws `find?_insert_self`
and `find?_insert_of_ne` say all that a reader of the map can see.
-/

namespace Lisplet

/-- A finite map from `κ` to `ν`, as its entries in the order in which their keys first appeared. -/
structure FiniteMap (κ : Type) (ν : Type) where
  entries : List (κ × ν) := []

namespace FiniteMap

variable {κ ν : Type}

instance : Inhabited (FiniteMap κ ν) := ⟨{}⟩

/-- The map without entries. -/
def empty : FiniteMap κ ν := {}

/-- The number of entries. -/
def size (m : FiniteMap κ ν) : Nat := m.entries.length

variable [DecidableEq κ]

/-- Look a key up in a list of entries. -/
def findIn (k : κ) : List (κ × ν) → Option ν
  | [] => none
  | (k', v) :: rest => if k' = k then some v else findIn k rest

/-- Set a key in a list of entries: in place if it is there, at the end if it is not. -/
def insertIn (k : κ) (v : ν) : List (κ × ν) → List (κ × ν)
  | [] => [(k, v)]
  | (k', v') :: rest => if k' = k then (k, v) :: rest else (k', v') :: insertIn k v rest

/-- The value stored under `k`, if there is one. -/
def find? (m : FiniteMap κ ν) (k : κ) : Option ν := findIn k m.entries

/-- Store `v` under `k`, in place of what was stored there. -/
def insert (m : FiniteMap κ ν) (k : κ) (v : ν) : FiniteMap κ ν := ⟨insertIn k v m.entries⟩

/-- Store the pairs one after the other, so that of two pairs with one key the later wins. -/
def ofList (pairs : List (κ × ν)) : FiniteMap κ ν :=
  pairs.foldl (fun m p => m.insert p.1 p.2) empty

/-! ## What a reader sees -/

@[simp] theorem find?_empty (k : κ) : (empty : FiniteMap κ ν).find? k = none := rfl

theorem findIn_insertIn_self (k : κ) (v : ν) (es : List (κ × ν)) :
    findIn k (insertIn k v es) = some v := by
  induction es with
  | nil => simp [insertIn, findIn]
  | cons e rest ih =>
    obtain ⟨k', v'⟩ := e
    by_cases h : k' = k <;> simp [insertIn, findIn, h, ih]

theorem findIn_insertIn_of_ne {k j : κ} (h : j ≠ k) (v : ν) (es : List (κ × ν)) :
    findIn j (insertIn k v es) = findIn j es := by
  induction es with
  | nil => simp [insertIn, findIn, Ne.symm h]
  | cons e rest ih =>
    obtain ⟨k', v'⟩ := e
    by_cases hk : k' = k
    · subst hk
      simp [insertIn, findIn, Ne.symm h]
    · by_cases hj : k' = j
      · subst hj
        simp [insertIn, findIn, hk]
      · simp [insertIn, findIn, hk, hj, ih]

/-- A key reads back what was stored last. -/
@[simp] theorem find?_insert_self (m : FiniteMap κ ν) (k : κ) (v : ν) :
    (m.insert k v).find? k = some v :=
  findIn_insertIn_self k v m.entries

/-- Storing under one key leaves every other key alone. -/
theorem find?_insert_of_ne (m : FiniteMap κ ν) {k j : κ} (h : j ≠ k) (v : ν) :
    (m.insert k v).find? j = m.find? j :=
  findIn_insertIn_of_ne h v m.entries

end FiniteMap

end Lisplet
