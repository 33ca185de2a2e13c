import UtilWin.Library.Run
import Mathlib.Data.List.TakeDrop

/-!
# Enumerating a list

What an enumerator is for, without saying how it is built: it goes through a fixed list once, in
order, and starts over when it is rewound.  Its only state is the number of elements handed out since
then.  A call may also fail, and then nothing has happened.

`delivered` reads off a trace what has been handed out since the last rewinding, and
`Run.delivered_eq_take` says that along every run of the enumerator it is a prefix of the list.
-/

namespace UtilWin

universe u v

/-- What a caller sees of one call. -/
inductive Event (α : Type u) (ε : Type v) where
  /-- An element was handed out. -/
  | entry : α → Event α ε
  /-- The end was reported. -/
  | done : Event α ε
  /-- The call failed. -/
  | failed : ε → Event α ε
  /-- The enumeration was rewound. -/
  | rewound : Event α ε

namespace Enumeration

variable {α : Type u} {ε : Type v}

/-- One call of an enumerator of `l` that stands at position `k`. -/
inductive Step (l : List α) : ℕ → Event α ε → ℕ → Prop where
  /-- The element at the position, and on to the next. -/
  | entry {k : ℕ} {x : α} : l[k]? = some x → Step l k (.entry x) (k + 1)
  /-- The end, which is reported at the end only. -/
  | done {k : ℕ} : l.length ≤ k → Step l k .done k
  /-- A failure moves nothing. -/
  | failed {k : ℕ} {e : ε} : Step l k (.failed e) k
  /-- Back to the start. -/
  | rewound {k : ℕ} : Step l k .rewound 0

/-- What an event does to the list of elements handed out since the last rewinding. -/
def deliver : List α → Event α ε → List α
  | d, .entry x => d ++ [x]
  | _, .rewound => []
  | d, _ => d

/-- The elements handed out since the last rewinding, or since the beginning. -/
def delivered (tr : List (Event α ε)) : List α := tr.foldl deliver []

@[simp] theorem delivered_snoc (tr : List (Event α ε)) (a : Event α ε) :
    delivered (tr ++ [a]) = deliver (delivered tr) a := by
  rw [delivered, List.foldl_append, List.foldl_cons, List.foldl_nil, delivered]

/-- **An enumerator hands out a prefix**: as many elements as its position says, from the start, in
order, each once. -/
theorem delivered_eq_take {l : List α} {tr : List (Event α ε)} {k : ℕ}
    (hrun : Run (Step l) 0 tr k) : k ≤ l.length ∧ delivered tr = l.take k := by
  induction hrun with
  | nil => exact ⟨Nat.zero_le _, rfl⟩
  | @snoc tr k k' a _ hs ih =>
    obtain ⟨hk, hd⟩ := ih
    rw [delivered_snoc, hd]
    cases hs with
    | entry hx =>
      have hlt : k < l.length := (List.getElem?_eq_some_iff.mp hx).1
      refine ⟨hlt, ?_⟩
      rw [deliver, List.take_add_one, hx]
      rfl
    | done _ => exact ⟨hk, rfl⟩
    | failed => exact ⟨hk, rfl⟩
    | rewound => exact ⟨Nat.zero_le _, rfl⟩

end Enumeration

end UtilWin
