import UtilWin.Library.Terminated
import UtilWin.Win32u.Converter
import Mathlib.Data.List.Infix

/-!
# Arguments in UTF-8

`replace_args` puts the wide arguments one behind the other, each with its terminator, converts the
whole at once, and walks along the bytes to find where each argument begins.  That is the same as to
convert each argument on its own, because no surrogate pair goes across a terminator and no byte of
anything but a terminator is zero.

The length is counted in an `int`, so that only holds as long as the bytes are less than `2 ^ 31`.  What
would be undefined makes the computation `none`: writing behind the end of `allws`, and reading what has
not been written.
-/

namespace UtilWin
namespace Args

open Utf16

/-- The first loop: the length of all arguments with their terminators. -/
def needlen (av : List (List UInt16)) : ℤ :=
  av.foldl (fun n s => int32 (n + (int32 s.length + 1))) 0

/-- The second loop: the arguments are copied to `allws`, from `pp` on. -/
def copyArgs : List (List UInt16) → ℕ → List UInt16 → Option (List UInt16)
  | [], _, allws => some allws
  | s :: av, pp, allws =>
    let len := s.length + 1
    if pp + len ≤ allws.length then
      copyArgs av (pp + len) (allws.take pp ++ (s ++ [0]) ++ allws.drop (pp + len))
    else none

/-- The third loop: where the next `n` arguments begin in `m`, from `pb` on. -/
def splitArgs (m : List UInt8) : ℕ → ℕ → Option (List ℕ)
  | 0, _ => some []
  | n + 1, pb => do
    let s ← cstr 0 (m.drop pb)
    let argv ← splitArgs m n (pb + (s.length + 1))
    some (pb :: argv)

/-- `replace_args`, for the wide arguments `av` and what is on the stack: the block that is allocated, and
`argv`, with pointers into the block. -/
def replaceArgs (stack : ℕ → UInt16) (av : List (List UInt16)) :
    Option (List UInt8 × List (Option ℕ)) :=
  let needlen := needlen av
  if needlen < 0 then none
  else do
    let allws ← copyArgs av 0 ((List.range needlen.toNat).map stack)
    let olen := (wideCharToMultiByte allws needlen 0).1
    let m := (wideCharToMultiByte allws needlen olen).2
    let argv ← splitArgs m av.length 0
    some (m, argv.map some ++ [none])

variable {av : List (List UInt16)}

/-! ## The loops -/

theorem needlen_concat (av : List (List UInt16)) (s : List UInt16) :
    needlen (av ++ [s]) = int32 (needlen av + (int32 s.length + 1)) := by
  rw [needlen, List.foldl_append]
  rfl

/-- As long as an `int` holds it, the length is right. -/
theorem needlen_eq (h : (terminate 0 av).length < 2 ^ 31) : needlen av = (terminate 0 av).length := by
  induction av using List.reverseRecOn with
  | nil => rfl
  | append_singleton av s ih =>
    have hlen : (terminate 0 (av ++ [s])).length = (terminate 0 av).length + (s.length + 1) := by
      rw [terminate_append, List.length_append, terminate_cons, List.length_append]
      rfl
    rw [hlen] at h ⊢
    rw [needlen_concat, ih (by omega), int32_of_lt (by omega), ← int32_of_lt h]
    rfl

/-- The copy is the arguments with their terminators. -/
theorem copyArgs_eq (av : List (List UInt16)) (done rest : List UInt16)
    (hrest : rest.length = (terminate 0 av).length) :
    copyArgs av done.length (done ++ rest) = some (done ++ terminate 0 av) := by
  induction av generalizing done rest with
  | nil =>
    rw [terminate_nil, List.length_nil, List.length_eq_zero_iff] at hrest
    rw [copyArgs, hrest, terminate_nil]
  | cons s av ih =>
    have hlen : rest.length = s.length + 1 + (terminate 0 av).length := by
      rw [hrest, terminate_cons, List.length_append, List.length_cons]
      omega
    have hdone : (done ++ (s ++ [0])).length = done.length + (s.length + 1) := by
      rw [List.length_append, List.length_append, List.length_singleton]
    have hdrop : (rest.drop (s.length + 1)).length = (terminate 0 av).length := by
      rw [List.length_drop]
      omega
    rw [copyArgs, if_pos (by rw [List.length_append]; omega), List.take_left, List.drop_append,
      List.drop_of_length_le (Nat.le_add_right _ _), Nat.add_sub_cancel_left, List.nil_append, ← hdone,
      ih _ _ hdrop, terminate_cons]
    simp only [List.append_assoc, List.singleton_append]

/-- Each argument is found where it has been put. -/
theorem splitArgs_eq (front : List UInt8) (bs : List (List UInt8)) (hbs : ∀ s ∈ bs, 0 ∉ s) :
    ∃ argv, splitArgs (front ++ terminate 0 bs) bs.length front.length = some argv ∧
      argv.length = bs.length ∧ ∀ (i : ℕ) (s : List UInt8), bs[i]? = some s → ∃ off, argv[i]? = some off ∧
        off < (front ++ terminate 0 bs).length ∧
        cstr 0 ((front ++ terminate 0 bs).drop off) = some s := by
  induction bs generalizing front with
  | nil => exact ⟨[], rfl, rfl, fun i s hi => nomatch hi⟩
  | cons s bs ih =>
    obtain ⟨argv, hrun, hlen, hargv⟩ :=
      ih (front ++ (s ++ [0])) fun t ht => hbs t (List.mem_cons_of_mem s ht)
    have hall : front ++ terminate 0 (s :: bs) = front ++ (s ++ [0]) ++ terminate 0 bs := by
      rw [terminate_cons]
      simp only [List.append_assoc, List.singleton_append]
    have hfront : (front ++ (s ++ [0])).length = front.length + (s.length + 1) := by
      rw [List.length_append, List.length_append, List.length_singleton]
    have hfirst : cstr 0 ((front ++ terminate 0 (s :: bs)).drop front.length) = some s := by
      rw [List.drop_left, terminate_cons]
      exact cstr_append (hbs s (List.mem_cons_self ..)) _
    refine ⟨front.length :: argv, ?_, congrArg (· + 1) hlen, fun i t hi => ?_⟩
    · rw [List.length_cons, splitArgs, hfirst]
      simp only [Option.bind_eq_bind, Option.bind_some]
      rw [← hfront, hall, hrun]
      rfl
    · cases i with
      | zero =>
        obtain rfl : s = t := Option.some.inj hi
        refine ⟨front.length, rfl, ?_, hfirst⟩
        rw [List.length_append, terminate_cons, List.length_append, List.length_cons]
        omega
      | succ i =>
        rw [hall]
        exact hargv i t hi

/-! ## The arguments -/

/-- A conversion of several arguments is one of each. -/
theorem toUtf8_terminate (av : List (List UInt16)) :
    toUtf8 (terminate 0 av) = terminate 0 (av.map toUtf8) := by
  have h := conv_terminate toUtf8_append_zero av []
  rwa [List.append_nil, toUtf8_nil, List.append_nil] at h

/-- **`replace_args` converts each argument on its own**, as long as their bytes, with a terminator each,
are less than `2 ^ 31`: `argv[i]` points into the block, at the bytes of the argument `i`, and
`argv[argc]` is `NULL`. -/
theorem replaceArgs_spec {av : List (List UInt16)} (hargc : 1 ≤ av.length)
    (hnul : ∀ s ∈ av, 0 ∉ s) (hlen : (terminate 0 (av.map toUtf8)).length < 2 ^ 31)
    (stack : ℕ → UInt16) :
    ∃ m argv, replaceArgs stack av = some (m, argv) ∧ argv.length = av.length + 1 ∧
      (∀ (i : ℕ) (s : List UInt16), av[i]? = some s → ∃ off, argv[i]? = some (some off) ∧ off < m.length ∧
        cstr 0 (m.drop off) = some (toUtf8 s)) ∧
      argv[av.length]? = some none := by
  have hne : terminate 0 av ≠ [] := by
    intro hnil
    have := length_le_terminate 0 av
    rw [hnil, List.length_nil] at this
    omega
  have hbytes : (toUtf8 (terminate 0 av)).length < 2 ^ 31 := by rwa [toUtf8_terminate]
  have hunits : (terminate 0 av).length < 2 ^ 31 :=
    Nat.lt_of_le_of_lt (length_le_toUtf8 _) hbytes
  have hcopy : copyArgs av 0 ((List.range (terminate 0 av).length).map stack) =
      some (terminate 0 av) :=
    copyArgs_eq av [] _ (by rw [List.length_map, List.length_range])
  obtain ⟨hmeasure, hconvert⟩ := wideCharToMultiByte_eq (List.append_nil _).symm hne hbytes
  obtain ⟨argv, hsplit, hargv, hfound⟩ := splitArgs_eq [] (av.map toUtf8) fun b hb => by
    obtain ⟨s, hs, rfl⟩ := List.mem_map.mp hb
    rw [mem_toUtf8_iff (by decide)]
    exact hnul s hs
  rw [List.nil_append, List.length_map, List.length_nil] at hsplit
  rw [List.length_map] at hargv
  refine ⟨terminate 0 (av.map toUtf8), argv.map some ++ [none], ?_, ?_, fun i s hi => ?_, ?_⟩
  · simp only [replaceArgs, needlen_eq hunits, if_neg (Int.not_lt.mpr (Int.natCast_nonneg _)),
      Int.toNat_natCast, hcopy, Option.bind_eq_bind, Option.bind_some, hmeasure, hconvert]
    rw [toUtf8_terminate, hsplit]
    rfl
  · rw [List.length_append, List.length_map, hargv]
    rfl
  · obtain ⟨off, hoff, hlt, hstr⟩ := hfound i (toUtf8 s) (by rw [List.getElem?_map, hi]; rfl)
    refine ⟨off, ?_, hlt, hstr⟩
    have hi' : i < (argv.map some).length := by
      rw [List.length_map, hargv]
      exact (List.getElem?_eq_some_iff.mp hi).1
    rw [List.getElem?_append_left hi', List.getElem?_map, hoff]
    rfl
  · rw [List.getElem?_append_right (by rw [List.length_map, hargv]), List.length_map, hargv,
      Nat.sub_self]
    rfl

/-- An empty argument, one that ends in half a surrogate pair, and one that begins with the other
half. -/
theorem replaceArgs_halves : ∃ m argv,
    replaceArgs (fun _ => 0) [[], [97, 0xd83d], [0xde00]] = some (m, argv) ∧ argv.length = 4 ∧
      ∃ off, argv[1]? = some (some off) ∧ cstr 0 (m.drop off) = some [97, 0xef, 0xbf, 0xbd] := by
  obtain ⟨m, argv, hrun, hlen, hfound, -⟩ :=
    @replaceArgs_spec [[], [97, 0xd83d], [0xde00]] (by decide) (by decide) (by decide) fun _ => 0
  obtain ⟨off, hoff, -, hstr⟩ := hfound 1 _ rfl
  exact ⟨m, argv, hrun, hlen, off, hoff, hstr.trans (by decide)⟩

/-- One argument of `2 ^ 32 - 1` characters: its length with the terminator is 0 as an `int`, and nothing
is reserved for it. -/
theorem replaceArgs_long : ¬ ∀ (av : List (List UInt16)) (stack : ℕ → UInt16), 1 ≤ av.length →
    (∀ s ∈ av, 0 ∉ s) → ∃ m argv, replaceArgs stack av = some (m, argv) := by
  intro hall
  have hnul : ∀ s ∈ [List.replicate (2 ^ 32 - 1) (97 : UInt16)], 0 ∉ s := by
    intro s hs hzero
    rw [List.mem_singleton.mp hs, List.mem_replicate] at hzero
    exact absurd hzero.2 (by decide)
  obtain ⟨m, argv, hrun⟩ := hall [List.replicate (2 ^ 32 - 1) 97] (fun _ => 0) (Nat.le_refl 1) hnul
  have hneed : needlen [List.replicate (2 ^ 32 - 1) 97] = 0 := by
    rw [needlen, List.foldl_cons, List.foldl_nil, List.length_replicate]
    decide
  have hcopy : copyArgs [List.replicate (2 ^ 32 - 1) 97] 0 [] = none := by
    rw [copyArgs, List.length_replicate]
    exact if_neg (by decide)
  have hempty : (List.range (0 : ℤ).toNat).map (fun _ => (0 : UInt16)) = [] := rfl
  simp only [replaceArgs, hneed, Int.lt_irrefl, if_false, hempty, hcopy] at hrun
  cases hrun

end Args
end UtilWin
