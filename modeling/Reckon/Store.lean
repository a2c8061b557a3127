import Reckon.Value

/-!
The store of variables: names in increasing order, each with its last value.
-/

set_option autoImplicit false

namespace Reckon

abbrev Entry := String × Value

def insertEntry (name : String) (value : Value) : List Entry → List Entry
  | [] => [(name, value)]
  | (n, v) :: rest =>
    if name < n then (name, value) :: (n, v) :: rest
    else if name = n then (name, value) :: rest
    else (n, v) :: insertEntry name value rest

abbrev Increasing (entries : List Entry) : Prop := entries.Pairwise fun a b => a.1 < b.1

theorem mem_insertEntry {name : String} {value : Value} {entries : List Entry} {e : Entry}
    (h : e ∈ insertEntry name value entries) : e = (name, value) ∨ e ∈ entries := by
  induction entries with
  | nil => simpa [insertEntry] using h
  | cons a rest ih =>
    simp only [insertEntry] at h
    split at h
    · simpa using h
    · split at h
      · rcases List.mem_cons.1 h with h | h
        · exact .inl h
        · exact .inr (List.mem_cons_of_mem _ h)
      · rcases List.mem_cons.1 h with h | h
        · exact .inr (by simp [h])
        · rcases ih h with h | h
          · exact .inl h
          · exact .inr (List.mem_cons_of_mem _ h)

theorem lt_of_not_lt_of_ne {a b : String} (h : ¬ a < b) (hne : a ≠ b) : b < a :=
  Decidable.byContradiction fun hn =>
    hne (String.le_antisymm (String.not_lt.1 hn) (String.not_lt.1 h))

theorem increasing_insertEntry {name : String} {value : Value} {entries : List Entry}
    (h : Increasing entries) : Increasing (insertEntry name value entries) := by
  induction entries with
  | nil => simp [insertEntry]
  | cons a rest ih =>
    obtain ⟨ha, hr⟩ := List.pairwise_cons.1 h
    simp only [insertEntry]
    split
    · rename_i hlt
      refine List.pairwise_cons.2 ⟨fun e he => ?_, h⟩
      rcases List.mem_cons.1 he with he | he
      · simpa [he] using hlt
      · exact String.lt_trans hlt (ha e he)
    · split
      · rename_i heq
        exact List.pairwise_cons.2 ⟨fun e he => heq ▸ ha e he, hr⟩
      · rename_i hlt hne
        refine List.pairwise_cons.2 ⟨fun e he => ?_, ih hr⟩
        rcases mem_insertEntry he with he | he
        · rw [he]; exact lt_of_not_lt_of_ne hlt hne
        · exact ha e he

theorem lookup_entry (name other : String) (value : Value) (entries : List Entry) :
    ((name, value) :: entries).lookup other =
      if other = name then some value else entries.lookup other := by
  rw [List.lookup_cons]
  by_cases h : other = name
  · simp [h]
  · have hb : (other == name) = false := by simpa using h
    simp [hb, h]

theorem lookup_insertEntry (name other : String) (value : Value) (entries : List Entry) :
    (insertEntry name value entries).lookup other =
      if other = name then some value else entries.lookup other := by
  induction entries with
  | nil => rw [insertEntry, lookup_entry]
  | cons a rest ih =>
    obtain ⟨n, v⟩ := a
    simp only [insertEntry]
    split
    · rw [lookup_entry]
    · split
      · rename_i heq
        by_cases h : other = name <;> simp [lookup_entry, ← heq, h]
      · rename_i hne
        by_cases h : other = n
        · simp [h, Ne.symm hne]
        · simp [lookup_entry, h, ih]

structure Store where
  entries : List Entry
  increasing : Increasing entries

namespace Store

def empty : Store := ⟨[], List.Pairwise.nil⟩

instance : Inhabited Store := ⟨empty⟩

def set (s : Store) (name : String) (value : Value) : Store :=
  ⟨insertEntry name value s.entries, increasing_insertEntry s.increasing⟩

def get? (s : Store) (name : String) : Option Value := s.entries.lookup name

@[simp] theorem get?_empty (name : String) : empty.get? name = none := rfl

@[simp] theorem get?_set (s : Store) (name other : String) (value : Value) :
    (s.set name value).get? other = if other = name then some value else s.get? other :=
  lookup_insertEntry name other value s.entries

def size (s : Store) : Nat := s.entries.length

def isEmpty (s : Store) : Bool := s.entries.isEmpty

def equals (s t : Store) : Bool :=
  s.size == t.size && (s.entries.zip t.entries).all fun (a, b) => a.1 == b.1 && a.2.equals b.2

end Store
end Reckon
