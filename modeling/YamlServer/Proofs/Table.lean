/-!
# Tables

Lists of keys with values, where looking up takes the first entry of a key. Open texts and kept
parses are such tables.

* `Table.put`: set the value of a key; a key that is there keeps its place.
* `Table.lookup_put`, `Table.lookup_erase`: what is found afterwards.
-/

namespace YamlServer
namespace Table

variable {β : Type}

def put (key : String) (value : β) : List (String × β) → List (String × β)
  | [] => [(key, value)]
  | (k, old) :: rest => if k == key then (k, value) :: rest else (k, old) :: put key value rest

theorem lookup_cons_eq (key other : String) (value : β) (rest : List (String × β)) :
    ((key, value) :: rest).lookup other =
      if other = key then some value else rest.lookup other := by
  by_cases h : other = key
  · simp [h]
  · have hne : (other == key) = false := beq_false_of_ne h
    simp [List.lookup_cons, hne, h]

@[simp]
theorem lookup_put (key other : String) (value : β) (table : List (String × β)) :
    (put key value table).lookup other =
      if other = key then some value else table.lookup other := by
  induction table with
  | nil => simp [put, lookup_cons_eq]
  | cons entry rest ih =>
    rcases entry with ⟨k, old⟩
    by_cases hk : k = key
    · subst hk
      by_cases h : other = k
      · simp [put, h]
      · simp [put, lookup_cons_eq, h]
    · by_cases h : other = k
      · subst h
        simp [put, hk]
      · simp [put, lookup_cons_eq, hk, h, ih]

@[simp]
theorem lookup_erase (key other : String) (table : List (String × β)) :
    (table.filter fun e => e.1 != key).lookup other =
      if other = key then none else table.lookup other := by
  induction table with
  | nil => simp
  | cons entry rest ih =>
    rcases entry with ⟨k, value⟩
    by_cases hk : k = key
    · subst hk
      by_cases h : other = k
      · simpa [h] using ih
      · simpa [lookup_cons_eq, h] using ih
    · by_cases h : other = k
      · subst h
        simp [hk]
      · simpa [lookup_cons_eq, hk, h] using ih

end Table
end YamlServer
