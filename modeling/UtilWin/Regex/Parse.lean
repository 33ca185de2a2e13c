import UtilWin.Regex.ParseBracket

/-!
# The parser

`tre_parse` reads a pattern with one loop and a stack.  In each round it opens a subexpression, or reads an
atom with the repetitions behind it, and puts it behind the branch.  At the end of a branch the
branch becomes an alternative; at the end of a subexpression what was on the stack comes back, and the
subexpression is the next atom.

A place in the pattern is what is left of the pattern from there on; two places are the same if equally
much is left.  The two places in the loop from which it goes on are the two kinds of rounds of `parseFrom`:
in front of an atom, and behind one.  The rounds are counted, and there is a bound that they do not reach
(`treParse_isSome`).  A result is `none` if a bound is reached, and for the lists of `parse_bracket` of
which nothing is left.  Running out of memory is left out.
-/

namespace UtilWin
namespace Tre

open Glob
open Fnmatch (caret dash equals)

def parenOpen : UInt8 := 0x28
def parenClose : UInt8 := 0x29
def plus : UInt8 := 0x2b
def comma : UInt8 := 0x2c
def braceOpen : UInt8 := 0x7b
def bar : UInt8 := 0x7c
def braceClose : UInt8 := 0x7d
def dollar : UInt8 := 0x24
def less : UInt8 := 0x3c
def greater : UInt8 := 0x3e

/-- `RE_DUP_MAX`. -/
def reDupMax : ℕ := 255

/-- The byte of an ASCII character. -/
def byte (c : Char) : UInt8 := c.toNat.toUInt8

/-- `tre_macros`. -/
def treMacros : List (UInt8 × Str) :=
  [(byte 't', [9]), (byte 'n', [10]), (byte 'r', [13]), (byte 'f', [12]), (byte 'a', [7]),
    (byte 'e', [27]),
    (byte 'w', ['[', '[', ':', 'a', 'l', 'n', 'u', 'm', ':', ']', '_', ']'].map byte),
    (byte 'W', ['[', '^', '[', ':', 'a', 'l', 'n', 'u', 'm', ':', ']', '_', ']'].map byte),
    (byte 's', ['[', '[', ':', 's', 'p', 'a', 'c', 'e', ':', ']', ']'].map byte),
    (byte 'S', ['[', '^', '[', ':', 's', 'p', 'a', 'c', 'e', ':', ']', ']'].map byte),
    (byte 'd', ['[', '[', ':', 'd', 'i', 'g', 'i', 't', ':', ']', ']'].map byte),
    (byte 'D', ['[', '^', '[', ':', 'd', 'i', 'g', 'i', 't', ':', ']', ']'].map byte)]

/-- `tre_expand_macro`. -/
def treExpandMacro (s : Str) : Option Str :=
  s.head?.bind fun c => (treMacros.find? fun m => m.1 = c).map Prod.snd

/-! ## Atoms -/

/-- What `parse_atom` leaves in the parse context. -/
structure Atom where
  n : Ast
  s : Str
  position : ℕ
  maxBackref : Option ℕ

variable (loc : Locale) (cflags : BitVec 32)

/-- `ctx->cflags & REG_EXTENDED`. -/
def isEre : Bool := has cflags regExtended

/-- A node for the empty string. -/
def emptyNode : Ast := .literal none .empty

/-- A node for an assertion. -/
def assertionNode (x : Assertion) : Ast := .literal none (.assertion x)

/-- A node for the characters of a range. -/
def rangeNode (position : ℕ) (codeMin codeMax : ℤ) : Ast :=
  .literal none (.char position (.range codeMin codeMax))

/-- `hexval`. -/
def hexval (c : UInt8) : Option ℕ :=
  if byte '0' ≤ c ∧ c ≤ byte '9' then some (c.toNat - 0x30)
  else if byte 'a' ≤ c ||| 32 ∧ c ||| 32 ≤ byte 'f' then some ((c ||| 32).toNat - 0x61 + 10)
  else none

/-- The loop over the digits behind `\x`: the number, and what follows. -/
def hexDigits : ℕ → ℕ → Str → ℕ × Str
  | 0, v, s => (v, s)
  | _ + 1, v, [] => (v, [])
  | len + 1, v, c :: s =>
    if 0x110000 ≤ v then (v, c :: s)
    else
      match hexval c with
      | none => (v, c :: s)
      | some d => hexDigits len (16 * v + d) s

/-- The number behind `\x`. -/
def parseHex (s : Str) : Except RegError (ℕ × Str) :=
  if s.head? = some braceOpen then
    let p := hexDigits 8 0 (s.drop 1)
    if p.2.head? = some braceClose then .ok (p.1, p.2.drop 1) else .error .ebrace
  else .ok (hexDigits 2 0 s)

/-- `parse_atom` from the label `parse_literal` on. -/
def parseLiteral (position : ℕ) (maxBackref : Option ℕ) (s : Str) : Except RegError Atom :=
  match loc.wideAt s with
  | none => .error .badpat
  | some (wc, len) =>
    .ok
      { n :=
          if has cflags regIcase ∧ (loc.iswupper wc ∨ loc.iswlower wc) then
            .union none (rangeNode position (loc.towupper wc) (loc.towupper wc))
              (rangeNode position (loc.towlower wc) (loc.towlower wc))
          else rangeNode position wc wc
        s := s.drop len
        position := position + 1
        maxBackref := maxBackref }

/-- What `parse_atom` does behind a `\`. -/
def parseEscape (position : ℕ) (maxBackref : Option ℕ) (s : Str) : Except RegError Atom :=
  match s with
  | [] => .error .eescape
  | c :: q =>
    if c = byte 'b' then .ok ⟨assertionNode .atWb, q, position, maxBackref⟩
    else if c = byte 'B' then .ok ⟨assertionNode .atWbNeg, q, position, maxBackref⟩
    else if c = less then .ok ⟨assertionNode .atBow, q, position, maxBackref⟩
    else if c = greater then .ok ⟨assertionNode .atEow, q, position, maxBackref⟩
    else if c = byte 'x' then
      (parseHex q).map fun p => ⟨rangeNode position p.1 p.1, p.2, position + 1, maxBackref⟩
    else if (c = braceOpen ∨ c = plus ∨ c = question) ∧ !isEre cflags then .error .badrpt
    else if c = bar ∧ !isEre cflags then .ok ⟨emptyNode, backslash :: s, position, maxBackref⟩
    else if !isEre cflags ∧ byte '1' ≤ c ∧ c ≤ byte '9' then
      let val := c.toNat - 0x30
      .ok ⟨.literal none (.backref position val), q, position + 1,
        some (maxBackref.elim val (max val))⟩
    else parseLiteral loc cflags position maxBackref s

/-- `parse_atom`, where `expand` is how it calls itself for a macro.  Whether `s` is `ctx->start` is
`atStart`. -/
def parseAtomWith (expand : Str → Option (Except RegError Atom)) (atStart : Bool) (position : ℕ)
    (maxBackref : Option ℕ) (s : Str) : Option (Except RegError Atom) :=
  match s with
  | [] => some (.ok ⟨emptyNode, s, position, maxBackref⟩)
  | c :: q =>
    if c = bracketOpen then
      (parseBracket loc cflags position q).map fun r =>
        r.map fun p => ⟨p.1, p.2, position + 1, maxBackref⟩
    else if c = backslash then
      match treExpandMacro q with
      | some p => (expand p).map fun r => r.map fun a => { a with s := q.drop 1 }
      | none => some (parseEscape loc cflags position maxBackref q)
    else if c = period then
      some (.ok
        (if has cflags regNewline then
          ⟨.union none (rangeNode position 0 (newline - 1))
            (rangeNode (position + 1) (newline + 1) treCharMax), q, position + 2, maxBackref⟩
        else ⟨rangeNode position 0 treCharMax, q, position + 1, maxBackref⟩))
    else if c = caret ∧ (isEre cflags ∨ atStart) then
      some (.ok ⟨assertionNode .atBol, q, position, maxBackref⟩)
    else if c = dollar ∧ (isEre cflags ∨ q = [] ∨
        q.head? = some backslash ∧ (q[1]? = some parenClose ∨ q[1]? = some bar)) then
      some (.ok ⟨assertionNode .atEol, q, position, maxBackref⟩)
    else if isEre cflags ∧ (c = star ∨ c = braceOpen ∨ c = plus ∨ c = question) then
      some (.error .badrpt)
    else if isEre cflags ∧ c = bar then some (.ok ⟨emptyNode, s, position, maxBackref⟩)
    else some (parseLiteral loc cflags position maxBackref s)

/-- `parse_atom`.  A macro does not begin with a macro, and is not at the start of the pattern. -/
def parseAtom (atStart : Bool) (position : ℕ) (maxBackref : Option ℕ) (s : Str) :
    Option (Except RegError Atom) :=
  parseAtomWith loc cflags (parseAtomWith loc cflags (fun _ => none) false position maxBackref)
    atStart position maxBackref s

/-! ## Repetitions -/

/-- `isdigit`. -/
def isDigit (c : UInt8) : Bool := byte '0' ≤ c ∧ c ≤ byte '9'

/-- The loop of `parse_dup_count`. -/
def dupDigits : ℕ → Str → ℕ × Str
  | n, [] => (n, [])
  | n, c :: s =>
    if isDigit c ∧ n ≤ reDupMax then dupDigits (10 * n + (c.toNat - 0x30)) s else (n, c :: s)

/-- `parse_dup_count`; a count of `-1` is `none`. -/
def parseDupCount (s : Str) : Option ℕ × Str :=
  if s.head?.any isDigit then ((dupDigits 0 s).map some id) else (none, s)

/-- `parse_dup`, from behind the brace on: the bounds, and what follows. -/
def parseDup (ere : Bool) (s : Str) : Option (ℕ × Option ℕ × Str) :=
  let p := parseDupCount s
  let q := if p.2.head? = some comma then parseDupCount (p.2.drop 1) else p
  match p.1 with
  | none => none
  | some min =>
    let s := if ere then q.2 else q.2.drop 1
    if (∃ max ∈ q.1, max < min ∨ reDupMax < max) ∨ reDupMax < min ∨
        (!ere ∧ q.2.head? ≠ some backslash) ∨ s.head? ≠ some braceClose then none
    else some (min, q.1, s.drop 1)

/-- The repetition at a place, without the `\` in front of it: the bounds, and what follows. -/
def parseRepetition (s : Str) : Except RegError (ℕ × Option ℕ × Str) :=
  if s.head? = some braceOpen then
    match parseDup (isEre cflags) (s.drop 1) with
    | none => .error .badbr
    | some r => .ok r
  else
    .ok (if s.head? = some plus then 1 else 0, if s.head? = some question then some 1 else none,
      s.drop 1)

/-- Whether there is a repetition at a place, from the label `parse_iter` on. -/
def isRepetition (start s : Str) : Bool :=
  let c := s.head?
  let d := s[1]?
  if isEre cflags then c = some star || c = some plus || c = some question || c = some braceOpen
  else
    -- a `*` behind a `^` at the start of a basic expression is a character
    (c = some star && !(s.length + 1 = start.length && start.head? = some caret)) ||
      (c = some backslash && (d = some plus || d = some question || d = some braceOpen))

/-- The node for a repetition. -/
def repetitionNode (n : Ast) (min : ℕ) (max : Option ℕ) : Ast :=
  if max = some 0 then emptyNode else .iteration none n min max

/-- The loop at `parse_iter`, with a bound for the number of its rounds. -/
def parseIter (start : Str) : ℕ → Ast → Str → Option (Except RegError (Ast × Str))
  | 0, _, _ => none
  | k + 1, n, s =>
    if isRepetition cflags start s then
      match parseRepetition cflags (if s.head? = some backslash then s.drop 1 else s) with
      | .error e => some (.error e)
      | .ok (min, max, rest) => parseIter start k (repetitionNode n min max) rest
    else some (.ok (n, s))

/-! ## The loop -/

/-- What was in progress when a subexpression was opened: `nunion`, `nbranch`, and the number of the
subexpression around. -/
structure Frame where
  nunion : Option Ast
  nbranch : Option Ast
  sid : ℕ

/-- The variables of `tre_parse` and the parse context.  The stack is `outer`, and the number of the
current subexpression on top of it is `sid`. -/
structure Parsing where
  s : Str
  start : Str
  nunion : Option Ast
  nbranch : Option Ast
  outer : List Frame
  sid : ℕ
  subid : ℕ
  position : ℕ
  maxBackref : Option ℕ

/-- `tre_ast_new_catenation`. -/
def newCatenation (left : Option Ast) (right : Ast) : Ast := left.elim right (.catenation none · right)

/-- `tre_ast_new_union`. -/
def newUnion (left : Option Ast) (right : Ast) : Ast := left.elim right (.union none · right)

/-- `marksub`. -/
def marksub (node : Ast) (subid : ℕ) : Ast :=
  if node.sid.isSome then .catenation (some subid) emptyNode node else node.withSid (some subid)

/-- Where the loop goes on. -/
inductive Round where
  | atom (p : Parsing)
  | iter (n : Ast) (p : Parsing)
  | done (n : Ast) (p : Parsing)
  | error (e : RegError)

/-- Whether a subexpression is opened. -/
def opens (s : Str) : Bool :=
  if isEre cflags then s.head? = some parenOpen
  else s.head? = some backslash && s[1]? = some parenOpen

/-- Whether a subexpression is closed. -/
def closes (depth : ℕ) (s : Str) : Bool :=
  if isEre cflags then s.head? = some parenClose && depth ≠ 0
  else s.head? = some backslash && s[1]? = some parenClose

/-- Whether an alternative follows. -/
def alternates (s : Str) : Bool :=
  if isEre cflags then s.head? = some bar else s.head? = some backslash && s[1]? = some bar

/-- How many bytes a mark has. -/
def markLength : ℕ := if isEre cflags then 1 else 2

/-- What is done with an atom and its repetitions. -/
def endAtom (n : Ast) (p : Parsing) : Round :=
  let nbranch := newCatenation p.nbranch n
  if alternates cflags p.s then
    let s := p.s.drop (markLength cflags)
    .atom { p with s := s, start := s, nunion := some (newUnion p.nunion nbranch), nbranch := none }
  else if closes cflags p.outer.length p.s ∨ p.s = [] then
    let node := marksub (newUnion p.nunion nbranch) p.sid
    match p.outer with
    | [] => if p.s = [] then .done node p else .error .eparen
    | frame :: outer =>
      if p.s = [] then .error .eparen
      else
        .iter node
          { p with
            s := p.s.drop (markLength cflags)
            nunion := frame.nunion
            nbranch := frame.nbranch
            outer := outer
            sid := frame.sid }
  else .atom { p with nbranch := some nbranch }

/-- The loop of `tre_parse`, in front of an atom or at `parse_iter`, with a bound for the number of
rounds. -/
def parseFrom : ℕ → Option Ast → Parsing → Option (Except RegError (Ast × Parsing))
  | 0, _, _ => none
  | k + 1, none, p =>
    if opens cflags p.s then
      let s := p.s.drop (markLength cflags)
      parseFrom k none
        { p with
          s := s
          start := s
          nunion := none
          nbranch := none
          outer := ⟨p.nunion, p.nbranch, p.sid⟩ :: p.outer
          sid := p.subid
          subid := p.subid + 1 }
    else if closes cflags p.outer.length p.s then parseFrom k (some emptyNode) p
    else
      match parseAtom loc cflags (p.s.length = p.start.length) p.position p.maxBackref p.s with
      | none => none
      | some (.error e) => some (.error e)
      | some (.ok a) =>
        parseFrom k (some a.n) { p with s := a.s, position := a.position, maxBackref := a.maxBackref }
  | k + 1, some n, p =>
    match parseIter cflags p.start (p.s.length + 1) n p.s with
    | none => none
    | some (.error e) => some (.error e)
    | some (.ok (n, s)) =>
      match endAtom cflags n { p with s := s } with
      | .atom p => parseFrom k none p
      | .iter n p => parseFrom k (some n) p
      | .done n p => some (.ok (n, p))
      | .error e => some (.error e)

/-- `tre_parse`: the tree, and the parse context with the next number of a subexpression. -/
def treParse (regex : Str) : Option (Except RegError (Ast × Parsing)) :=
  parseFrom loc cflags (3 * regex.length + 2) none
    { s := regex
      start := regex
      nunion := none
      nbranch := none
      outer := []
      sid := 0
      subid := 1
      position := 0
      maxBackref := none }

end Tre
end UtilWin
