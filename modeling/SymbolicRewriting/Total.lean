/-!
The total of a quantity over the members of a list.
-/

namespace SymbolicRewriting

variable {α β : Type}

def total (quantity : α → Nat) : List α → Nat
  | [] => 0
  | item :: items => quantity item + total quantity items

@[simp]
theorem total_nil (quantity : α → Nat) : total quantity [] = 0 :=
  rfl

@[simp]
theorem total_cons (quantity : α → Nat) (item : α) (items : List α) :
    total quantity (item :: items) = quantity item + total quantity items :=
  rfl

@[simp]
theorem total_append (quantity : α → Nat) (left right : List α) :
    total quantity (left ++ right) = total quantity left + total quantity right := by
  induction left with
  | nil => simp
  | cons item items ih => simp [ih, Nat.add_assoc]

theorem total_eq_zero {quantity : α → Nat} {items : List α}
    (hzero : ∀ item ∈ items, quantity item = 0) : total quantity items = 0 := by
  induction items with
  | nil => rfl
  | cons first items ih =>
      obtain ⟨hfirst, hitems⟩ := List.forall_mem_cons.1 hzero
      rw [total_cons, hfirst, ih hitems]

theorem total_map (quantity : β → Nat) (f : α → β) (items : List α) :
    total quantity (items.map f) = total (fun item => quantity (f item)) items := by
  induction items with
  | nil => rfl
  | cons item items ih => simp [ih]

theorem total_attach (quantity : α → Nat) (items : List α) :
    total (fun item => quantity item.1) items.attach = total quantity items := by
  rw [← total_map quantity Subtype.val, List.attach_map_subtype_val]

theorem total_modify {items : List α} {place : Nat} {item : α} (hitem : items[place]? = some item)
    (quantity : α → Nat) (change : α → α) :
    total quantity (items.modify place change) + quantity item =
      total quantity items + quantity (change item) := by
  induction items generalizing place with
  | nil => simp at hitem
  | cons first items ih =>
      cases place with
      | zero =>
          cases hitem
          simp only [List.modify_zero_cons, total_cons]
          omega
      | succ place =>
          have := ih (by simpa using hitem)
          simp only [List.modify_succ_cons, total_cons]
          omega

end SymbolicRewriting
