/-!
First-in, first-out queues.
-/

namespace SymbolicRewriting

/-- What was pushed last stands first in `back`. -/
structure Queue (α : Type) where
  front : List α := []
  back : List α := []

namespace Queue

variable {α : Type}

def toList (queue : Queue α) : List α := queue.front ++ queue.back.reverse

def length (queue : Queue α) : Nat := queue.front.length + queue.back.length

def push (queue : Queue α) (item : α) : Queue α := { queue with back := item :: queue.back }

def pop? (queue : Queue α) : Option (α × Queue α) :=
  match queue.front with
  | item :: front => some (item, { queue with front })
  | [] =>
      match queue.back.reverse with
      | item :: front => some (item, { front, back := [] })
      | [] => none

theorem length_toList (queue : Queue α) : queue.toList.length = queue.length := by
  simp [toList, length]

@[simp]
theorem toList_push (queue : Queue α) (item : α) :
    (queue.push item).toList = queue.toList ++ [item] := by
  simp [toList, push]

theorem length_push (queue : Queue α) (item : α) :
    (queue.push item).length = queue.length + 1 := by
  simp only [length, push, List.length_cons]
  omega

theorem toList_of_pop? {queue rest : Queue α} {item : α} (hpop : queue.pop? = some (item, rest)) :
    queue.toList = item :: rest.toList := by
  unfold pop? at hpop
  split at hpop
  · rename_i hfront
    cases hpop
    simp [toList, hfront]
  · rename_i hfront
    split at hpop
    · rename_i hback
      cases hpop
      simp [toList, hfront, hback]
    · simp at hpop

theorem toList_of_pop?_eq_none {queue : Queue α} (hpop : queue.pop? = none) :
    queue.toList = [] := by
  unfold pop? at hpop
  split at hpop
  · simp at hpop
  · rename_i hfront
    split at hpop
    · simp at hpop
    · rename_i hback
      simp [toList, hfront, hback]

theorem length_of_pop? {queue rest : Queue α} {item : α} (hpop : queue.pop? = some (item, rest)) :
    queue.length = rest.length + 1 := by
  rw [← length_toList, toList_of_pop? hpop, List.length_cons, length_toList]

end Queue

end SymbolicRewriting
