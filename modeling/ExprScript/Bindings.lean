import ExprScript.Value

namespace ExprScript

/-- Values under names, one under each name, in the order of the names. -/
structure Bindings where
  entries : List (String × Value)
  sorted : entries.Pairwise (fun a b => a.1 < b.1)
deriving DecidableEq

namespace Bindings

def empty : Bindings := ⟨[], .nil⟩

/-- Puts an entry at its place, over one of the same name. -/
def insert (name : String) (v : Value) : List (String × Value) → List (String × Value)
  | [] => [(name, v)]
  | (other, w) :: rest =>
    if name = other then (name, v) :: rest
    else if name < other then (name, v) :: (other, w) :: rest
    else (other, w) :: insert name v rest

theorem mem_insert {name : String} {v : Value} {entries : List (String × Value)}
    {entry : String × Value} (h : entry ∈ insert name v entries) :
    entry = (name, v) ∨ entry ∈ entries := by
  induction entries with
  | nil => exact .inl (List.mem_singleton.mp h)
  | cons first rest ih =>
    obtain ⟨other, w⟩ := first
    rw [insert] at h
    split at h
    · exact (List.mem_cons.mp h).imp_right (List.mem_cons_of_mem _)
    split at h
    · exact List.mem_cons.mp h
    · rcases List.mem_cons.mp h with h | h
      · exact .inr (h ▸ List.mem_cons_self)
      · exact (ih h).imp_right (List.mem_cons_of_mem _)

theorem insert_sorted (name : String) (v : Value) {entries : List (String × Value)}
    (sorted : entries.Pairwise (fun a b => a.1 < b.1)) :
    (insert name v entries).Pairwise (fun a b => a.1 < b.1) := by
  induction entries with
  | nil => exact List.pairwise_singleton _ _
  | cons first rest ih =>
    obtain ⟨other, w⟩ := first
    obtain ⟨below, ordered⟩ := List.pairwise_cons.mp sorted
    rw [insert]
    split
    · rename_i same
      subst same
      exact List.pairwise_cons.mpr ⟨below, ordered⟩
    split
    · rename_i before
      refine List.pairwise_cons.mpr ⟨?_, List.pairwise_cons.mpr ⟨below, ordered⟩⟩
      intro entry h
      rcases List.mem_cons.mp h with rfl | h
      · exact before
      · exact String.lt_trans before (below entry h)
    · rename_i differs notBefore
      refine List.pairwise_cons.mpr ⟨?_, ih ordered⟩
      intro entry h
      rcases mem_insert h with rfl | h
      · exact Std.lt_of_le_of_ne (String.not_lt.mp notBefore) (Ne.symm differs)
      · exact below entry h

def define (b : Bindings) (name : String) (v : Value) : Bindings :=
  ⟨insert name v b.entries, insert_sorted name v b.sorted⟩

def get? (b : Bindings) (name : String) : Option Value := b.entries.lookup name

def contains (b : Bindings) (name : String) : Bool := (b.get? name).isSome

theorem lookup_entry (name : String) (v : Value) (rest : List (String × Value)) (other : String) :
    ((name, v) :: rest).lookup other = if other = name then some v else rest.lookup other := by
  by_cases same : other = name
  · simp [same]
  · have differs : (other == name) = false := beq_eq_false_iff_ne.mpr same
    simp [List.lookup_cons, differs, same]

theorem lookup_insert (name : String) (v : Value) (entries : List (String × Value))
    (other : String) :
    (insert name v entries).lookup other =
      if other = name then some v else entries.lookup other := by
  induction entries with
  | nil => simp [insert, lookup_entry]
  | cons entry rest ih =>
    obtain ⟨first, w⟩ := entry
    rw [insert]
    split
    · rename_i replaced
      subst replaced
      simp only [lookup_entry]
      split <;> rfl
    split
    · rw [lookup_entry]
    · rename_i differs _
      simp only [lookup_entry, ih]
      split
      · rename_i found
        rw [if_neg fun same => differs (same.symm.trans found)]
      · rfl

/-- A definition changes the value under its own name alone. -/
theorem get?_define (b : Bindings) (name : String) (v : Value) (other : String) :
    (b.define name v).get? other = if other = name then some v else b.get? other :=
  lookup_insert name v b.entries other

end Bindings

end ExprScript
