/-! # Totals -/

namespace Espalier

/-- The sum of the numbers in a list. -/
def total : List Nat → Nat
  | [] => 0
  | n :: ns => n + total ns

@[simp]
theorem total_nil : total [] = 0 := rfl

@[simp]
theorem total_cons (n : Nat) (ns : List Nat) : total (n :: ns) = n + total ns := rfl

@[simp]
theorem total_append (ms ns : List Nat) : total (ms ++ ns) = total ms + total ns := by
  induction ms with
  | nil => rw [List.nil_append, total_nil, Nat.zero_add]
  | cons m ms ih => rw [List.cons_append, total_cons, total_cons, ih, Nat.add_assoc]

theorem total_map_flatMap {α β : Type} (g : α → Nat) (h : β → List α) (xs : List β) :
    total ((xs.flatMap h).map g) = total (xs.map fun x => total ((h x).map g)) := by
  induction xs with
  | nil => rfl
  | cons x xs ih =>
    rw [List.flatMap_cons, List.map_append, total_append, ih, List.map_cons, total_cons]

theorem length_flatMap {α β : Type} (h : β → List α) (xs : List β) :
    (xs.flatMap h).length = total (xs.map fun x => (h x).length) := by
  induction xs with
  | nil => rfl
  | cons x xs ih => rw [List.flatMap_cons, List.length_append, ih, List.map_cons, total_cons]

end Espalier
