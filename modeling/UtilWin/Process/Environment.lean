import UtilWin.Library.Terminated
import UtilWin.Win32u.Converter
import Mathlib.Data.List.Infix

/-!
# The narrow environment

`early_patch_utf8` rebuilds the table of the environment from the wide environment block: it counts the
strings of the block that do not start with `=`, converts the block as a whole, and then copies the
strings that do not start with `=` out of the bytes.

So it goes through the strings twice, once in units and once in bytes.  The two agree: the terminators
are where they were, and a string that starts with `=` starts with its byte.

Lengths are `int`s, so that only holds as long as the bytes are less than `2 ^ 31`.  What would be
undefined makes the computation `none`: reading what has not been written, and writing behind the end of
the table.
-/

namespace UtilWin
namespace Environment

open Utf16

/-- The table: the slots it has been allocated with, and what has been stored. -/
structure Table where
  slots : ℕ
  tenv : List (Option (List UInt8))

/-- The first loop, from `p` on: the count, and how far `p` is from the start of the block in the end. -/
def countVars (i : ℤ) (off : ℕ) (p : List UInt16) : Option (ℤ × ℕ) :=
  match p with
  | [] => none
  | c :: p =>
    if c = 0 then some (i, off)
    else
      let i := if c ≠ 0x3d then int32 (i + 1) else i
      match cstr 0 (c :: p) with
      | none => none
      | some s => countVars i (off + (s.length + 1)) ((c :: p).drop (s.length + 1))
termination_by p.length
decreasing_by
  rw [List.length_drop, List.length_cons]
  omega

/-- The second loop, from `p1` on: what has been stored, each string with its terminator. -/
def storeVars (slots : ℕ) (p1 : List UInt8) (tenv : List (List UInt8)) :
    Option (List (List UInt8)) :=
  match p1 with
  | [] => none
  | c :: p1 =>
    if c = 0 then some tenv
    else
      match cstr 0 (c :: p1) with
      | none => none
      | some s =>
        if c ≠ 0x3d then
          if tenv.length < slots then
            storeVars slots ((c :: p1).drop (s.length + 1)) (tenv ++ [s ++ [0]])
          else none
        else storeVars slots ((c :: p1).drop (s.length + 1)) tenv
termination_by p1.length
decreasing_by
  all_goals
    rw [List.length_drop, List.length_cons]
    omega

/-- How `early_patch_utf8` rebuilds the table from the block at `w`. -/
def rebuild (w : List UInt16) : Option Table := do
  let (i, off) ← countVars 0 0 w
  let ncch := int32 (off + 1)
  let need := (wideCharToMultiByte w ncch 0).1
  let buf1 := (wideCharToMultiByte w ncch need).2
  let slots := (i + 1).toNat
  let tenv ← storeVars slots buf1 []
  if tenv.length < slots then some ⟨slots, tenv.map some ++ [none]⟩ else none

/-! ## The block -/

/-- A string of the block that is not hidden. -/
def Shown (s : List UInt16) : Prop := s.head? ≠ some 0x3d

instance (s : List UInt16) : Decidable (Shown s) := by unfold Shown; infer_instance

/-- The strings that are not hidden. -/
def shown (vars : List (List UInt16)) : List (List UInt16) := vars.filter fun s => Shown s

/-- A string of a block is not empty, and has no terminator in it. -/
def IsVar (s : List UInt16) : Prop := s ≠ [] ∧ 0 ∉ s

variable {vars : List (List UInt16)} {s : List UInt16}

theorem shown_cons (s : List UInt16) (vars : List (List UInt16)) :
    shown (s :: vars) = if Shown s then s :: shown vars else shown vars := by
  rw [shown, List.filter_cons]
  by_cases h : Shown s
  · rw [if_pos h, if_pos (decide_eq_true h)]
    rfl
  · rw [if_neg h, if_neg (by simpa using h)]
    rfl

/-- **The first loop** counts the strings that are not hidden, and finds the end of the block. -/
theorem countVars_eq (hvars : ∀ s ∈ vars, IsVar s) (rest : List UInt16) (i off : ℕ)
    (hi : i + vars.length < 2 ^ 31) :
    countVars i off (terminate 0 vars ++ 0 :: rest) =
      some (((i + (shown vars).length : ℕ) : ℤ), off + (terminate 0 vars).length) := by
  induction vars generalizing i off with
  | nil =>
    rw [terminate_nil, List.nil_append, countVars, if_pos rfl]
    rfl
  | cons s vars ih =>
    obtain ⟨hne, hnul⟩ := hvars s (List.mem_cons_self ..)
    have hblock : terminate 0 (s :: vars) ++ 0 :: rest =
        s ++ 0 :: (terminate 0 vars ++ 0 :: rest) := by
      rw [terminate_cons, List.append_assoc, List.cons_append]
    have hcstr := cstr_append hnul (terminate 0 vars ++ 0 :: rest)
    have hdrop := drop_terminated 0 s (terminate 0 vars ++ 0 :: rest)
    have hoff : off + (terminate 0 (s :: vars)).length =
        off + (s.length + 1) + (terminate 0 vars).length := by
      rw [terminate_cons, List.length_append, List.length_cons]
      omega
    have hrest : ∀ s ∈ vars, IsVar s := fun t ht => hvars t (List.mem_cons_of_mem s ht)
    rw [List.length_cons] at hi
    obtain ⟨c, s', rfl⟩ := List.exists_cons_of_ne_nil hne
    have hc : c ≠ 0 := fun h => hnul (h ▸ List.mem_cons_self ..)
    rw [hblock, List.cons_append, countVars, if_neg hc, ← List.cons_append, hcstr]
    dsimp only
    rw [hdrop, hoff, shown_cons]
    by_cases heq : c = 0x3d
    · have hhidden : ¬ Shown (c :: s') := fun h => h (congrArg some heq)
      rw [if_neg (not_not.mpr heq), if_neg hhidden]
      exact ih hrest i _ (by omega)
    · have hshown : Shown (c :: s') := fun h => heq (Option.some.inj h)
      have hcount : int32 ((i : ℤ) + 1) = ((i + 1 : ℕ) : ℤ) := int32_of_lt (n := i + 1) (by omega)
      have hsum : i + ((c :: s') :: shown vars).length = i + 1 + (shown vars).length := by
        rw [List.length_cons]
        omega
      rw [if_pos heq, if_pos hshown, hcount, hsum]
      exact ih hrest (i + 1) _ (by omega)

/-- A string of bytes that is stored. -/
def Stored (s : List UInt8) : Prop := s.head? ≠ some 0x3d

instance (s : List UInt8) : Decidable (Stored s) := by unfold Stored; infer_instance

/-- **The second loop** stores the strings of bytes that do not start with `=`. -/
theorem storeVars_eq {bs : List (List UInt8)} (hbs : ∀ s ∈ bs, s ≠ [] ∧ 0 ∉ s) (rest : List UInt8)
    (slots : ℕ) (tenv : List (List UInt8))
    (hslots : tenv.length + (bs.filter fun s => Stored s).length ≤ slots) :
    storeVars slots (terminate 0 bs ++ 0 :: rest) tenv =
      some (tenv ++ (bs.filter fun s => Stored s).map (· ++ [0])) := by
  induction bs generalizing tenv with
  | nil =>
    rw [terminate_nil, List.nil_append, storeVars, if_pos rfl, List.filter_nil, List.map_nil,
      List.append_nil]
  | cons s bs ih =>
    obtain ⟨hne, hnul⟩ := hbs s (List.mem_cons_self ..)
    have hblock : terminate 0 (s :: bs) ++ 0 :: rest = s ++ 0 :: (terminate 0 bs ++ 0 :: rest) := by
      rw [terminate_cons, List.append_assoc, List.cons_append]
    have hcstr := cstr_append hnul (terminate 0 bs ++ 0 :: rest)
    have hdrop := drop_terminated 0 s (terminate 0 bs ++ 0 :: rest)
    have hrest : ∀ s ∈ bs, s ≠ [] ∧ 0 ∉ s := fun t ht => hbs t (List.mem_cons_of_mem s ht)
    obtain ⟨c, s', rfl⟩ := List.exists_cons_of_ne_nil hne
    have hc : c ≠ 0 := fun h => hnul (h ▸ List.mem_cons_self ..)
    rw [hblock, List.cons_append, storeVars, if_neg hc, ← List.cons_append, hcstr]
    dsimp only
    rw [hdrop]
    by_cases heq : c = 0x3d
    · have hhidden : ¬ Stored (c :: s') := fun h => h (congrArg some heq)
      rw [List.filter_cons_of_neg (by simpa using hhidden)] at hslots ⊢
      rw [if_neg (not_not.mpr heq)]
      exact ih hrest tenv hslots
    · have hshown : Stored (c :: s') := fun h => heq (Option.some.inj h)
      rw [List.filter_cons_of_pos (by simpa using hshown)] at hslots ⊢
      rw [List.length_cons] at hslots
      rw [if_pos heq, if_pos (by omega), ih hrest _ ?_, List.map_cons, List.append_assoc,
        List.singleton_append]
      rw [List.length_append, List.length_singleton]
      omega

/-- A string is stored if it is not hidden. -/
theorem filter_stored (vars : List (List UInt16)) :
    (vars.map toUtf8).filter (fun s => Stored s) = (shown vars).map toUtf8 := by
  have hhead : ∀ s, Stored (toUtf8 s) ↔ Shown s := fun s =>
    not_congr (head?_toUtf8_iff (x := 0x3d) (by decide))
  rw [List.filter_map, shown]
  refine congrArg _ (List.filter_congr fun s _ => ?_)
  exact decide_eq_decide.mpr (hhead s)

/-! ## The table -/

/-- **The narrow environment is the wide one**, as long as its bytes, with the terminators, are less than
`2 ^ 31`: the table has the strings that are not hidden, in order, each converted, complete and
terminated, and `NULL` behind them; and there is a slot for each of them and the `NULL`. -/
theorem rebuild_spec {vars : List (List UInt16)} (hvars : ∀ s ∈ vars, IsVar s)
    (hlen : (terminate 0 (vars.map toUtf8)).length + 1 < 2 ^ 31) (rest : List UInt16) :
    ∃ table, rebuild (terminate 0 vars ++ 0 :: rest) = some table ∧
      table.tenv = (shown vars).map (fun s => some (toUtf8 s ++ [0])) ++ [none] ∧
      table.slots = (shown vars).length + 1 ∧ table.tenv.length ≤ table.slots := by
  have htext : toUtf8 (terminate 0 vars ++ [0]) = terminate 0 (vars.map toUtf8) ++ [0] := by
    rw [conv_terminate toUtf8_append_zero, toUtf8_zero]
  have hbytes : (toUtf8 (terminate 0 vars ++ [0])).length < 2 ^ 31 := by
    rwa [htext, List.length_append, List.length_singleton]
  have hunits : (terminate 0 vars ++ [0]).length < 2 ^ 31 :=
    Nat.lt_of_le_of_lt (length_le_toUtf8 _) hbytes
  have hlength : (terminate 0 vars ++ [0]).length = (terminate 0 vars).length + 1 := by
    rw [List.length_append, List.length_singleton]
  have hcount := countVars_eq hvars rest 0 0 (by
    have := length_le_terminate 0 vars
    omega)
  rw [Nat.zero_add, Nat.zero_add, Int.natCast_zero] at hcount
  have hncch : int32 (((terminate 0 vars).length : ℤ) + 1) = (terminate 0 vars ++ [0]).length := by
    rw [← int32_of_lt hunits, hlength]
    rfl
  obtain ⟨hmeasure, hconvert⟩ := wideCharToMultiByte_eq
    (s := terminate 0 vars ++ 0 :: rest) (by rw [List.append_assoc]; rfl)
    (List.append_ne_nil_of_right_ne_nil _ (List.cons_ne_nil 0 [])) hbytes
  have hstored : ((vars.map toUtf8).filter fun s => Stored s).length = (shown vars).length := by
    rw [filter_stored, List.length_map]
  have hbs : ∀ b ∈ vars.map toUtf8, b ≠ [] ∧ 0 ∉ b := by
    intro b hb
    obtain ⟨s, hs, rfl⟩ := List.mem_map.mp hb
    obtain ⟨hne, hnul⟩ := hvars s hs
    refine ⟨List.length_pos_iff.mp (length_toUtf8_pos hne), ?_⟩
    rw [mem_toUtf8_iff (by decide)]
    exact hnul
  have hstore := storeVars_eq hbs [] ((shown vars).length + 1) [] (by
    rw [hstored, List.length_nil]
    omega)
  rw [← htext, List.nil_append, filter_stored, List.map_map] at hstore
  have hslots : (((shown vars).length : ℤ) + 1).toNat = (shown vars).length + 1 := by omega
  refine ⟨⟨(shown vars).length + 1, (shown vars).map (fun s => some (toUtf8 s ++ [0])) ++ [none]⟩,
    ?_, rfl, rfl, ?_⟩
  · simp only [rebuild, hcount, Option.bind_eq_bind, Option.bind_some, hncch, hmeasure, hconvert,
      hslots, hstore]
    rw [if_pos (by rw [List.length_map]; omega), List.map_map]
    rfl
  · dsimp only
    rw [List.length_append, List.length_map]
    rfl

/-- A block with a hidden string, and one that ends in half a surrogate pair. -/
theorem rebuild_half : ∃ table,
    rebuild ([0x3d, 97, 0] ++ ([98, 0x3d, 0xd83d, 0] ++ [0])) = some table ∧
      table.tenv = [some [98, 0x3d, 0xef, 0xbf, 0xbd, 0], none] := by
  have hvars : ∀ s ∈ [[0x3d, 97], [98, 0x3d, 0xd83d]], IsVar s := by
    intro s hs
    simp only [List.mem_cons, List.not_mem_nil, or_false] at hs
    rcases hs with rfl | rfl <;> exact ⟨List.cons_ne_nil _ _, by decide⟩
  obtain ⟨table, hrun, htenv, -⟩ := rebuild_spec hvars (by decide) []
  exact ⟨table, hrun, htenv.trans (by decide)⟩

/-- The variable `a`, with a value of `n` characters that are not ASCII. -/
def longVar (n : ℕ) : List UInt16 := 97 :: 0x3d :: List.replicate n 0xe9

theorem isVar_longVar (n : ℕ) : IsVar (longVar n) := by
  refine ⟨List.cons_ne_nil _ _, fun hzero => ?_⟩
  rw [longVar, List.mem_cons, List.mem_cons] at hzero
  rcases hzero with hzero | hzero | hzero
  · exact absurd hzero (by decide)
  · exact absurd hzero (by decide)
  · exact absurd (List.mem_replicate.mp hzero).2 (by decide)

theorem length_terminate_replicate (k n : ℕ) :
    (terminate 0 (List.replicate k (longVar n))).length = k * (n + 3) := by
  induction k with
  | zero => rw [Nat.zero_mul]; rfl
  | succ k ih =>
    rw [List.replicate_succ, terminate_cons, List.length_append, List.length_cons, ih, longVar,
      List.length_cons, List.length_cons, List.length_replicate, Nat.succ_mul]
    omega

/-- `2 ^ 17` strings, of `2 ^ 15` characters with the terminator, the last of one less: the length of
the block is 0 as an `int`, and nothing is converted. -/
theorem rebuild_long : ¬ ∀ (vars : List (List UInt16)) (rest : List UInt16), (∀ s ∈ vars, IsVar s) →
    ∃ table, rebuild (terminate 0 vars ++ 0 :: rest) = some table := by
  intro hall
  have hvars : ∀ s ∈ List.replicate (2 ^ 17 - 1) (longVar (2 ^ 15 - 3)) ++ [longVar (2 ^ 15 - 4)],
      IsVar s := by
    intro s hs
    rcases List.mem_append.mp hs with hs | hs
    · rw [(List.mem_replicate.mp hs).2]
      exact isVar_longVar _
    · rw [List.mem_singleton.mp hs]
      exact isVar_longVar _
  obtain ⟨table, hrun⟩ := hall _ [] hvars
  have hcount := countVars_eq hvars [] 0 0 (by
    rw [List.length_append, List.length_replicate]
    decide)
  have hlen : (terminate 0 (List.replicate (2 ^ 17 - 1) (longVar (2 ^ 15 - 3)) ++
      [longVar (2 ^ 15 - 4)])).length = 2 ^ 32 - 1 := by
    have hlast := length_terminate_replicate 1 (2 ^ 15 - 4)
    rw [List.replicate_one] at hlast
    rw [terminate_append, List.length_append, length_terminate_replicate, hlast]
    decide
  have hncch : int32 (((0 + (2 ^ 32 - 1) : ℕ) : ℤ) + 1) = 0 := by decide
  have hnone : ∀ (w : List UInt16) (cb : ℤ), wideCharToMultiByte w 0 cb = (0, []) :=
    fun w cb => if_pos (Or.inl rfl)
  rw [hlen] at hcount
  rw [Int.natCast_zero] at hcount
  simp only [rebuild, hcount, Option.bind_eq_bind, Option.bind_some, hncch, hnone, storeVars] at hrun
  cases hrun

end Environment
end UtilWin
