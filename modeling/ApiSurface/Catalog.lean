namespace ApiSurface

-- Entries that are found by their keys, of which no two have the same.
structure Catalog {α : Type} (key : α → String) where
  entries : List α
  unique  : (entries.map key).Nodup

namespace Catalog

variable {α : Type} {key : α → String}

def empty : Catalog key where
  entries := []
  unique  := by simp

instance : Inhabited (Catalog key) := ⟨empty⟩

def insert (c : Catalog key) (a : α) : Catalog key where
  entries := a :: c.entries.filter (key · ≠ key a)
  unique  := by
    have h := c.unique
    simp only [List.map_cons, List.nodup_cons]
    refine ⟨by simp, ?_⟩
    exact h.sublist (List.filter_sublist.map key)

def find? (c : Catalog key) (name : String) : Option α :=
  c.entries.find? (key · = name)

def contains (c : Catalog key) (name : String) : Bool :=
  (c.find? name).isSome

def size (c : Catalog key) : Nat :=
  c.entries.length

-- The entries of a list, a later one taking the place of an earlier one with its key.
def ofList (as : List α) : Catalog key :=
  as.foldl insert empty

theorem key_of_find? {c : Catalog key} {name : String} {a : α} (h : c.find? name = some a) :
    key a = name := by
  simpa using List.find?_some h

theorem mem_of_find? {c : Catalog key} {name : String} {a : α} (h : c.find? name = some a) :
    a ∈ c.entries :=
  List.mem_of_find?_eq_some h

@[simp] theorem find?_empty (name : String) : (empty : Catalog key).find? name = none := rfl

@[simp] theorem find?_insert_self (c : Catalog key) (a : α) :
    (c.insert a).find? (key a) = some a := by
  simp [find?, insert]

theorem find?_insert_of_ne (c : Catalog key) {a : α} {name : String} (h : name ≠ key a) :
    (c.insert a).find? name = c.find? name := by
  simp only [find?, insert, List.find?_cons, decide_eq_false h.symm, List.find?_filter]
  congr 1
  funext b
  by_cases hb : key b = name <;> simp [hb, h]

end Catalog

end ApiSurface
