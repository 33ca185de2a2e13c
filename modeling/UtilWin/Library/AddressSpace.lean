import Mathlib.Data.List.Basic

/-!
# Address spaces with reservations

The pages of an address space are free, reserved or committed, and a committed page has contents,
which may be hidden from a reader.  A range is reserved if all of it is free, committed if it lies
inside one reservation, and written if all of it is committed; otherwise nothing happens.

`restore` reserves a range, commits a part up to its end and writes it.  What comes of it turns on one
question, whether the part lies inside a reservation then (`canRead_restore`, `page_restore`), and that
is so if it did before or if the range was free (`inside_reserve`).
-/

namespace UtilWin

universe u

/-- A page of an address space. -/
inductive Page (α : Type u)
  | free
  | reserved
  | hidden (x : α)
  | shown (x : α)

namespace Page

variable {α : Type u}

def isFree : Page α → Bool
  | free => true
  | _ => false

def isCommitted : Page α → Bool
  | hidden _ => true
  | shown _ => true
  | _ => false

def isShown : Page α → Bool
  | shown _ => true
  | _ => false

/-- A page is committed: it can be read, and a fresh one is `zero`. -/
def commit (zero : α) : Page α → Page α
  | hidden x => shown x
  | shown x => shown x
  | _ => shown zero

/-- A page is written if it is committed. -/
def write (y : α) : Page α → Page α
  | hidden _ => hidden y
  | shown _ => shown y
  | page => page

@[simp] theorem isFree_commit (zero : α) (page : Page α) : (page.commit zero).isFree = false := by
  cases page <;> rfl

@[simp] theorem isShown_commit (zero : α) (page : Page α) : (page.commit zero).isShown = true := by
  cases page <;> rfl

@[simp] theorem isCommitted_commit (zero : α) (page : Page α) :
    (page.commit zero).isCommitted = true := by
  cases page <;> rfl

@[simp] theorem isFree_write (y : α) (page : Page α) : (page.write y).isFree = page.isFree := by
  cases page <;> rfl

@[simp] theorem isShown_write (y : α) (page : Page α) : (page.write y).isShown = page.isShown := by
  cases page <;> rfl

theorem write_commit (zero y : α) (page : Page α) : (page.commit zero).write y = shown y := by
  cases page <;> rfl

end Page

/-- An address space: its pages, and the ranges that are reserved, in which no page is free. -/
structure Space (α : Type u) where
  page : ℕ → Page α
  reservations : List (ℕ × ℕ)
  not_free : ∀ r ∈ reservations, ∀ q, r.1 ≤ q → q < r.2 → (page q).isFree = false

namespace Space

variable {α : Type u} (s : Space α) (a b e : ℕ)

def canRead (q : ℕ) : Bool := (s.page q).isShown

/-- All pages from `b` up to `e` are free. -/
def IsFree : Prop := ∀ q < e, b ≤ q → (s.page q).isFree = true

/-- The range lies inside one reservation. -/
def Inside : Prop := ∃ r ∈ s.reservations, r.1 ≤ b ∧ e ≤ r.2

def IsCommitted : Prop := ∀ q < e, b ≤ q → (s.page q).isCommitted = true

instance : Decidable (s.IsFree b e) := by unfold IsFree; infer_instance
instance : Decidable (s.Inside b e) := by unfold Inside; infer_instance
instance : Decidable (s.IsCommitted b e) := by unfold IsCommitted; infer_instance

/-- `MEM_RESERVE`. -/
def reserve : Space α :=
  if s.IsFree b e then
    { page := fun q => if b ≤ q ∧ q < e then .reserved else s.page q
      reservations := (b, e) :: s.reservations
      not_free := by
        intro r hr q hb he
        split_ifs with hq
        · rfl
        · rcases List.mem_cons.mp hr with rfl | hr
          · exact absurd ⟨hb, he⟩ hq
          · exact s.not_free r hr q hb he }
  else s

/-- `MEM_COMMIT`. -/
def commit (zero : α) : Space α :=
  if s.Inside b e then
    { s with
      page := fun q => if b ≤ q ∧ q < e then (s.page q).commit zero else s.page q
      not_free := by
        intro r hr q hb he
        split_ifs
        · exact Page.isFree_commit zero _
        · exact s.not_free r hr q hb he }
  else s

/-- Write to all pages of a range. -/
def write (bytes : ℕ → α) : Space α :=
  if s.IsCommitted b e then
    { s with
      page := fun q => if b ≤ q ∧ q < e then (s.page q).write (bytes q) else s.page q
      not_free := by
        intro r hr q hb he
        split_ifs
        · rw [Page.isFree_write]
          exact s.not_free r hr q hb he
        · exact s.not_free r hr q hb he }
  else s

/-- Reserve from `a` up to `e`, commit from `b` on and write what was committed. -/
def restore (zero : α) (bytes : ℕ → α) : Space α :=
  ((s.reserve a e).commit b e zero).write b e bytes

variable {s a b e} {zero : α} {bytes : ℕ → α} {q : ℕ} {x : α}

/-! ## Reservations -/

theorem mem_reservations_reserve {r : ℕ × ℕ} :
    r ∈ (s.reserve a e).reservations ↔ s.IsFree a e ∧ r = (a, e) ∨ r ∈ s.reservations := by
  rw [reserve]
  split_ifs with h
  · rw [List.mem_cons]
    simp [h]
  · simp [h]

theorem reservations_restore : (s.restore a b e zero bytes).reservations =
    (s.reserve a e).reservations := by
  rw [restore, write, commit]
  split_ifs <;> rfl

/-- **When the part lies inside a reservation** after the range has been asked for. -/
theorem inside_reserve (hab : a ≤ b) :
    (s.reserve a e).Inside b e ↔ s.IsFree a e ∨ s.Inside b e := by
  constructor
  · rintro ⟨r, hr, hb, he⟩
    rcases mem_reservations_reserve.mp hr with ⟨hfree, -⟩ | hr
    · exact Or.inl hfree
    · exact Or.inr ⟨r, hr, hb, he⟩
  · rintro (hfree | ⟨r, hr, hb, he⟩)
    · exact ⟨(a, e), mem_reservations_reserve.mpr (Or.inl ⟨hfree, rfl⟩), hab, Nat.le_refl e⟩
    · exact ⟨r, mem_reservations_reserve.mpr (Or.inr hr), hb, he⟩

/-! ## Pages -/

theorem isFree_page_reserve : ((s.reserve a e).page q).isFree = true ↔
    (s.page q).isFree = true ∧ ¬ (s.IsFree a e ∧ a ≤ q ∧ q < e) := by
  rw [reserve]
  split_ifs with h
  · dsimp only
    split_ifs with hq
    · simp [h, hq, Page.isFree]
    · simp [h, hq]
  · simp [h]

theorem page_reserve_eq_shown : (s.reserve a e).page q = .shown x ↔ s.page q = .shown x := by
  rw [reserve]
  split_ifs with h
  · dsimp only
    split_ifs with hq
    · have hfree := h q hq.2 hq.1
      refine ⟨fun hp => (by cases hp), fun hp => ?_⟩
      rw [hp] at hfree
      cases hfree
    · rfl
  · rfl

theorem isFree_page_commit : ((s.commit b e zero).page q).isFree = (s.page q).isFree := by
  rw [commit]
  split_ifs with h
  · dsimp only
    split_ifs with hq
    · obtain ⟨r, hr, hb, he⟩ := h
      rw [Page.isFree_commit, s.not_free r hr q (by omega) (by omega)]
    · rfl
  · rfl

theorem isFree_page_write : ((s.write b e bytes).page q).isFree = (s.page q).isFree := by
  rw [write]
  split_ifs
  · dsimp only
    split_ifs
    · exact Page.isFree_write _ _
    · rfl
  · rfl

/-- What is free is a matter of reservations alone. -/
theorem isFree_page_restore : ((s.restore a b e zero bytes).page q).isFree = true ↔
    (s.page q).isFree = true ∧ ¬ (s.IsFree a e ∧ a ≤ q ∧ q < e) := by
  rw [restore, isFree_page_write, isFree_page_commit, isFree_page_reserve]

theorem page_commit_of_notMem (h : ¬ (b ≤ q ∧ q < e)) : (s.commit b e zero).page q = s.page q := by
  rw [commit]
  split_ifs
  · exact if_neg h
  · rfl

theorem page_write_of_notMem (h : ¬ (b ≤ q ∧ q < e)) : (s.write b e bytes).page q = s.page q := by
  rw [write]
  split_ifs
  · exact if_neg h
  · rfl

theorem page_restore_of_notMem (h : ¬ (b ≤ q ∧ q < e)) :
    (s.restore a b e zero bytes).page q = .shown x ↔ s.page q = .shown x := by
  rw [restore, page_write_of_notMem h, page_commit_of_notMem h, page_reserve_eq_shown]

/-- **Inside a reservation** the part is restored. -/
theorem page_restore (h : (s.reserve a e).Inside b e) (hb : b ≤ q) (he : q < e) :
    (s.restore a b e zero bytes).page q = .shown (bytes q) := by
  have hpage : ∀ q, b ≤ q → q < e →
      ((s.reserve a e).commit b e zero).page q = ((s.reserve a e).page q).commit zero := by
    intro q hb he
    rw [commit, if_pos h]
    exact if_pos ⟨hb, he⟩
  have hcommitted : ((s.reserve a e).commit b e zero).IsCommitted b e := by
    intro q he hb
    rw [hpage q hb he, Page.isCommitted_commit]
  rw [restore, write, if_pos hcommitted]
  dsimp only
  rw [if_pos ⟨hb, he⟩, hpage q hb he, Page.write_commit]

theorem canRead_iff : s.canRead q = true ↔ ∃ x, s.page q = .shown x := by
  rw [canRead]
  cases s.page q <;> simp [Page.isShown]

theorem canRead_write : (s.write b e bytes).canRead q = s.canRead q := by
  rw [write, canRead, canRead]
  split_ifs
  · dsimp only
    split_ifs
    · exact Page.isShown_write _ _
    · rfl
  · rfl

theorem canRead_commit : (s.commit b e zero).canRead q = true ↔
    s.canRead q = true ∨ s.Inside b e ∧ b ≤ q ∧ q < e := by
  rw [commit, canRead, canRead]
  split_ifs with h
  · dsimp only
    split_ifs with hq
    · simp [h, hq]
    · simp [hq]
  · simp [h]

theorem canRead_reserve : (s.reserve a e).canRead q = true ↔ s.canRead q = true := by
  simp only [canRead_iff, page_reserve_eq_shown]

/-- **What can be read** afterwards: what could be read before, and the part if it lies inside a
reservation. -/
theorem canRead_restore : (s.restore a b e zero bytes).canRead q = true ↔
    s.canRead q = true ∨ (s.reserve a e).Inside b e ∧ b ≤ q ∧ q < e := by
  rw [restore, canRead_write, canRead_commit, canRead_reserve]

/-- What is right stays right. -/
theorem page_restore_of_shown (h : s.page q = .shown (bytes q)) :
    (s.restore a b e zero bytes).page q = .shown (bytes q) := by
  have hcommit : ((s.reserve a e).commit b e zero).page q = .shown (bytes q) := by
    rw [commit]
    split_ifs
    · dsimp only
      rw [page_reserve_eq_shown.mpr h]
      split_ifs <;> rfl
    · exact page_reserve_eq_shown.mpr h
  rw [restore, write]
  split_ifs
  · dsimp only
    rw [hcommit]
    split_ifs <;> rfl
  · exact hcommit

end Space

end UtilWin
