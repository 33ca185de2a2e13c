import UtilWin.Library.Walk
import UtilWin.Regex.Glob
import Mathlib.Tactic.SplitIfs

/-!
# The tree under a pattern

A directory tree is the graph of its entries: each node with the entries that `readdir_r` reports of
it, among them `.` and `..`, and the node that each leads to.  A path is resolved name by name from the
current directory, whatever separators are between the names.

`Tree.Valid` says what a tree without reparse points looks like through `readdir_r`, and `Shows` that
the world of `glob` is such a tree and nothing fails.
-/

namespace UtilWin
namespace Glob

open Directory

/-- A directory tree over the nodes `N`. -/
structure Tree (N : Type) where
  out : N → List (Dirent × N)
  isDir : N → Bool

namespace Tree

variable {N : Type} (t : Tree N)

/-- The node that a path leads to. -/
def resolve : N → List Str → Option N
  | n, [] => some n
  | n, name :: names =>
    if t.isDir n then ((t.out n).find? (·.1.dName = name)).bind fun e => resolve e.2 names else none

/-- What there is to read at a path: nothing unless it is a directory. -/
def read (cwd : N) (path : Str) : Option Stream :=
  (if path = [period] then some cwd else t.resolve cwd (tokens isSep path)).bind fun n =>
    if t.isDir n then some ⟨(t.out n).map Prod.fst, 0⟩ else none

/-- A tree as `readdir_r` reports it: names are unique in their directory, have 1 to 260 bytes and
neither a separator nor a colon; the types are right; an entry covers its name; and `.` is the
directory itself. -/
structure Valid : Prop where
  unique : ∀ n, ((t.out n).map (·.1.dName)).Nodup
  nonempty : ∀ n, ∀ e ∈ t.out n, e.1.dName ≠ []
  short : ∀ n, ∀ e ∈ t.out n, e.1.dName.length ≤ 260
  noSep : ∀ n, ∀ e ∈ t.out n, ∀ x ∈ e.1.dName, isSep x = false
  noColon : ∀ n, ∀ e ∈ t.out n, colon ∉ e.1.dName
  type : ∀ n, ∀ e ∈ t.out n, e.1.dType = if t.isDir e.2 then dtDir else dtReg
  reclen : ∀ n, ∀ e ∈ t.out n, offsetofDName + e.1.dName.length + 1 ≤ e.1.dReclen.toNat
  dot : ∀ n, ∀ e ∈ t.out n, e.1.dName = [period] → e.2 = n

end Tree

/-- The world of `sys` is the tree `t`, seen from `cwd`: opening a directory always succeeds and
opening anything else fails, there is memory, and `fnmatch` agrees with equality on literals. -/
structure Shows {σ N : Type} (sys : System σ) (t : Tree N) (cwd : N) : Prop where
  opendir : ∀ path w, (sys.opendir path w).1 = t.read cwd path
  malloc : ∀ size w, (sys.malloc size w).1 = true
  oracle : ∀ p name, isLiteral p true = true → (sys.fnmatch p name fnmPeriod = true ↔ p = name)

/-! ## Paths -/

section

variable {N : Type} {t : Tree N} {n cwd : N} {c : List (Dirent × N)} {e : Dirent × N}

/-- `n1/n2/.../nk`. -/
def pathOf (c : List (Dirent × N)) : Str := [slash].intercalate (c.map (·.1.dName))

theorem pathOf_nil : pathOf ([] : List (Dirent × N)) = [] := rfl

theorem pathOf_singleton : pathOf [e] = e.1.dName := List.intercalate_singleton

theorem pathOf_snoc (hc : c ≠ []) : pathOf (c ++ [e]) = pathOf c ++ slash :: e.1.dName := by
  rw [pathOf, List.map_append, List.map_cons, List.map_nil,
    intercalate_snoc (List.map_eq_nil_iff.not.mpr hc)]
  rfl

/-- The names on a walk are names. -/
theorem names_valid (ht : t.Valid) (hc : IsWalk t.out Prod.snd n c) :
    ∀ name ∈ c.map (·.1.dName), name ≠ [] ∧ ∀ x ∈ name, isSep x = false := by
  induction c generalizing n with
  | nil =>
    intro name hname
    cases hname
  | cons e c ih =>
    intro name hname
    rcases List.mem_cons.mp hname with rfl | hname
    · exact ⟨ht.nonempty n e hc.1, ht.noSep n e hc.1⟩
    · exact ih hc.2 name hname

/-- **A path names its walk.** -/
theorem tokens_pathOf (ht : t.Valid) (hc : IsWalk t.out Prod.snd n c) :
    tokens isSep (pathOf c) = c.map (·.1.dName) :=
  tokens_intercalate (by decide) (names_valid ht hc)

theorem tokens_pathOf_slash (ht : t.Valid) (hc : IsWalk t.out Prod.snd n c) :
    tokens isSep (pathOf c ++ [slash]) = c.map (·.1.dName) := by
  rw [tokens_append_cons (by decide), tokens_pathOf ht hc, tokens_nil, List.append_nil]

theorem pathOf_ne_nil (ht : t.Valid) (hc : IsWalk t.out Prod.snd n c) (hne : c ≠ []) :
    pathOf c ≠ [] := by
  intro h
  have htokens := tokens_pathOf ht hc
  rw [h, tokens_nil] at htokens
  exact hne (List.map_eq_nil_iff.mp htokens.symm)

/-- There is no colon in a path. -/
theorem colon_notMem_pathOf (ht : t.Valid) (hc : IsWalk t.out Prod.snd n c) :
    colon ∉ pathOf c := by
  induction c generalizing n with
  | nil =>
    rw [pathOf_nil]
    exact List.not_mem_nil
  | cons e c ih =>
    have he := ht.noColon n e hc.1
    cases c with
    | nil => rwa [pathOf_singleton]
    | cons e' c =>
      have ih := ih hc.2
      simp only [pathOf, List.map_cons, List.intercalate_cons_cons, List.mem_append] at ih ⊢
      rintro ((h | h) | h)
      · exact he h
      · exact absurd (List.mem_singleton.mp h) (by decide)
      · exact ih h

/-- A path through directories is resolved to the end of its walk. -/
theorem resolve_names (ht : t.Valid) (hc : IsWalk t.out Prod.snd n c) (hn : t.isDir n = true)
    (hdirs : ∀ e ∈ c, t.isDir e.2 = true) :
    t.resolve n (c.map (·.1.dName)) = some (stop Prod.snd n c) := by
  induction c generalizing n with
  | nil => rfl
  | cons e c ih =>
    have hfind : (t.out n).find? (·.1.dName = e.1.dName) = some e := by
      obtain ⟨e', he'⟩ : ∃ e', (t.out n).find? (·.1.dName = e.1.dName) = some e' := by
        rw [← Option.isSome_iff_exists, List.find?_isSome]
        exact ⟨e, hc.1, by simp⟩
      have hname : e'.1.dName = e.1.dName := by simpa using List.find?_some he'
      rw [he', List.inj_on_of_nodup_map (ht.unique n) (List.mem_of_find?_eq_some he') hc.1 hname]
    rw [List.map_cons, Tree.resolve, if_pos hn, hfind, Option.bind_some, stop]
    exact ih hc.2 (hdirs e (List.mem_cons_self ..)) fun x hx => hdirs x (List.mem_cons_of_mem _ hx)

theorem isDir_stop (hn : t.isDir n = true) (hdirs : ∀ e ∈ c, t.isDir e.2 = true) :
    t.isDir (stop Prod.snd n c) = true := by
  induction c generalizing n with
  | nil => exact hn
  | cons e c ih =>
    exact ih (hdirs e (List.mem_cons_self ..)) fun x hx => hdirs x (List.mem_cons_of_mem _ hx)

/-- **What is opened** on the way is the directory where the walk ends. -/
theorem read_pathOf (ht : t.Valid) (hc : IsWalk t.out Prod.snd cwd c) (hcwd : t.isDir cwd = true)
    (hdirs : ∀ e ∈ c, t.isDir e.2 = true) :
    t.read cwd (if pathOf c ≠ [] then pathOf c else [period]) =
      some ⟨(t.out (stop Prod.snd cwd c)).map Prod.fst, 0⟩ := by
  have hstop := isDir_stop hcwd hdirs
  by_cases hnil : c = []
  · subst hnil
    rw [pathOf_nil, if_neg (fun h => h rfl), Tree.read, if_pos rfl, Option.bind_some, if_pos hcwd]
    rfl
  · rw [if_pos (pathOf_ne_nil ht hc hnil), Tree.read]
    by_cases hdot : pathOf c = [period]
    · -- the walk is the entry `.` alone
      have hnames := tokens_pathOf ht hc
      rw [hdot, tokens_eq_singleton (by decide) (List.forall_mem_singleton.2 rfl)] at hnames
      obtain ⟨e, rfl, he⟩ := List.map_eq_singleton_iff.mp hnames.symm
      have hend : stop Prod.snd cwd [e] = cwd := ht.dot cwd e hc.1 he
      rw [if_pos hdot, Option.bind_some, if_pos hcwd, hend]
    · rw [if_neg hdot, tokens_pathOf ht hc, resolve_names ht hc hcwd hdirs, Option.bind_some,
        if_pos hstop]

end

end Glob
end UtilWin
