import Mathlib.Data.List.Basic

/-!
# Terminated strings, one behind the other

`terminate z l` is the strings of `l`, each followed by the terminator `z`, and `cstr z s` is the string
that a pointer to the memory `s` leads to.  Strings without terminators in them are found again where they
were put (`cstr_append`), and a conversion that does not look across a terminator converts each of them on
its own (`conv_terminate`).
-/

namespace UtilWin

universe u v

variable {α : Type u} {β : Type v}

/-- The strings, each with a terminator. -/
def terminate (z : α) (l : List (List α)) : List α := l.flatMap (· ++ [z])

@[simp] theorem terminate_nil (z : α) : terminate z [] = [] := rfl

theorem terminate_cons (z : α) (s : List α) (l : List (List α)) :
    terminate z (s :: l) = s ++ z :: terminate z l := by
  rw [terminate, List.flatMap_cons, List.append_assoc, List.singleton_append, ← terminate]

theorem terminate_append (z : α) (l l' : List (List α)) :
    terminate z (l ++ l') = terminate z l ++ terminate z l' := List.flatMap_append

/-- There is at least a terminator for each string. -/
theorem length_le_terminate (z : α) (l : List (List α)) : l.length ≤ (terminate z l).length := by
  induction l with
  | nil => exact Nat.le_refl 0
  | cons s l ih =>
    rw [terminate_cons, List.length_append, List.length_cons, List.length_cons]
    omega

/-- **String by string**, for a conversion that is a homomorphism at the terminator. -/
theorem conv_terminate {z : α} {z' : β} {conv : List α → List β}
    (hconv : ∀ a b, conv (a ++ z :: b) = conv a ++ z' :: conv b) (l : List (List α)) (rest : List α) :
    conv (terminate z l ++ rest) = terminate z' (l.map conv) ++ conv rest := by
  induction l with
  | nil => rfl
  | cons s l ih =>
    rw [terminate_cons, List.append_assoc, List.cons_append, hconv, ih, List.map_cons, terminate_cons,
      List.append_assoc, List.cons_append]

/-- The memory behind a string. -/
theorem drop_terminated (z : α) (s rest : List α) : (s ++ z :: rest).drop (s.length + 1) = rest := by
  rw [List.drop_append, Nat.add_sub_cancel_left, List.drop_of_length_le (Nat.le_succ _)]
  rfl

section

variable [DecidableEq α] (z : α)

/-- The string at the start of a memory, if it has an end. -/
def cstr (s : List α) : Option (List α) :=
  if z ∈ s then some (s.takeWhile (· ≠ z)) else none

variable {z} {s : List α}

/-- **A string is found where it has been put.** -/
theorem cstr_append (hs : z ∉ s) (rest : List α) : cstr z (s ++ z :: rest) = some s := by
  have hall : ∀ c ∈ s, decide (c ≠ z) = true := fun c hc => decide_eq_true fun h => hs (h ▸ hc)
  rw [cstr, if_pos (by simp), List.takeWhile_append_of_pos hall,
    List.takeWhile_cons_of_neg (by simp), List.append_nil]

end

end UtilWin
