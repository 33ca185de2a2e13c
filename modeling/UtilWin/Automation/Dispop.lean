import Mathlib.Data.List.Basic
import Mathlib.Data.Nat.Notation

/-!
# Arguments of an automation call

A `CDISPOP` hands out the positional arguments of a `DISPPARAMS` one after the other, each converted by
`VariantChangeType` to the type that is asked for.  The first extraction that fails leaves its error
behind, and from then on every extraction gives its default.

There is one conversion operator for each type, and they are copies of each other but for the test for
the end of the arguments: the index has been incremented before, and four of the operators compare with
`>=` and one with `>` (`extract`, `bstr`).

`VariantChangeType` is a parameter.  It gives a new variant or an `HRESULT` that is a failure; every call
of it is in a log.  Counts and indices are natural numbers, as they are in the source while nothing
overflows.
-/

namespace UtilWin
namespace Automation

/-- `HRESULT`. -/
abbrev Hresult := UInt32

/-- `FAILED`. -/
def Failed (hr : Hresult) : Prop := 0x80000000 ≤ hr

instance (hr : Hresult) : Decidable (Failed hr) := by unfold Failed; infer_instance

/-- `S_OK`. -/
def sOk : Hresult := 0

/-- `E_INVALIDARG`. -/
def eInvalidarg : Hresult := 0x80070057

theorem not_failed_sOk : ¬ Failed sOk := by decide

theorem failed_eInvalidarg : Failed eInvalidarg := by decide

/-- `VARIANT`: its type, and what is read from each member of its union.  A `BSTR` is an address, and a
`double` its bits. -/
structure Variant where
  vt : UInt16
  boolVal : Int16
  bstrVal : UInt64
  intVal : Int32
  llVal : Int64
  dblVal : UInt64
  deriving DecidableEq

/-- What an extraction gives. -/
inductive Value where
  | bool (b : Bool)
  | bstr (p : UInt64)
  | int (n : Int32)
  | longLong (n : Int64)
  | double (bits : UInt64)
  deriving DecidableEq

/-- `DISPPARAMS`: the named arguments come first.  Behind the arguments there is other memory. -/
structure DispParams where
  rgvarg : ℕ → Variant
  cArgs : ℕ
  cNamedArgs : ℕ
  named_le : cNamedArgs ≤ cArgs

/-- An error of `VariantChangeType`. -/
abbrev Failure := { hr : Hresult // Failed hr }

/-- `VariantChangeType`, to a given type. -/
abbrev ChangeType := Variant → UInt16 → Except Failure Variant

/-- `CDISPOP`, and the calls of `VariantChangeType` so far: the slot of `m_argv` and the type. -/
structure Cdispop where
  m_argc : ℕ
  m_argv : ℕ → Variant
  m_idx : ℕ
  m_hr : Hresult
  m_vars : List Variant
  calls : List (ℕ × UInt16)

namespace Cdispop

/-- The constructor. -/
def new (arg : DispParams) : Cdispop where
  m_argc := arg.cArgs - arg.cNamedArgs
  m_argv k := arg.rgvarg (arg.cNamedArgs + k)
  m_idx := 0
  m_hr := sOk
  m_vars := []
  calls := []

/-- `res`. -/
def res (s : Cdispop) : Hresult := s.m_hr

/-- The destructor: the variants it clears. -/
def destroy (s : Cdispop) : List Variant := s.m_vars

variable (changeType : ChangeType)

/-- The end of an operator: the conversion of `m_argv[slot]`. -/
def coerce (vt : UInt16) (defret : Value) (val : Variant → Value) (slot : ℕ) (s : Cdispop) :
    Value × Cdispop :=
  let s := { s with calls := s.calls ++ [(slot, vt)] }
  match changeType (s.m_argv slot) vt with
  | .error hr => (defret, { s with m_hr := hr })
  | .ok ret => (val ret, { s with m_hr := sOk, m_vars := s.m_vars ++ [ret] })

/-- An operator that compares with `>=`. -/
def extract (vt : UInt16) (defret : Value) (val : Variant → Value) (s : Cdispop) :
    Value × Cdispop :=
  let slot := s.m_idx
  let s := { s with m_idx := s.m_idx + 1 }
  if Failed s.m_hr then (defret, s)
  else if s.m_idx ≥ s.m_argc then (defret, { s with m_hr := eInvalidarg })
  else coerce changeType vt defret val slot s

/-- `operator bool`. -/
def bool : Cdispop → Value × Cdispop :=
  extract changeType 11 (.bool false) fun ret => .bool (ret.boolVal ≠ 0)

/-- `operator BSTR`, which compares with `>`. -/
def bstr (s : Cdispop) : Value × Cdispop :=
  let slot := s.m_idx
  let s := { s with m_idx := s.m_idx + 1 }
  if Failed s.m_hr then (.bstr 0, s)
  else if s.m_idx > s.m_argc then (.bstr 0, { s with m_hr := eInvalidarg })
  else coerce changeType 8 (.bstr 0) (fun ret => .bstr ret.bstrVal) slot s

/-- `operator int`. -/
def int : Cdispop → Value × Cdispop :=
  extract changeType 22 (.int 0) fun ret => .int ret.intVal

/-- `operator long long`. -/
def longLong : Cdispop → Value × Cdispop :=
  extract changeType 20 (.longLong 0) fun ret => .longLong ret.llVal

/-- `operator double`. -/
def double : Cdispop → Value × Cdispop :=
  extract changeType 5 (.double 0) fun ret => .double ret.dblVal

end Cdispop

/-! ## A sequence of extractions -/

/-- The types one can ask for. -/
inductive Kind where
  | bool
  | bstr
  | int
  | longLong
  | double
  deriving DecidableEq

namespace Kind

/-- The conversion operator. -/
def operator (changeType : ChangeType) : Kind → Cdispop → Value × Cdispop
  | bool => Cdispop.bool changeType
  | bstr => Cdispop.bstr changeType
  | int => Cdispop.int changeType
  | longLong => Cdispop.longLong changeType
  | double => Cdispop.double changeType

/-- The type `VariantChangeType` is asked for. -/
def vt : Kind → UInt16
  | bool => 11
  | bstr => 8
  | int => 22
  | longLong => 20
  | double => 5

/-- The default. -/
def defret : Kind → Value
  | bool => .bool false
  | bstr => .bstr 0
  | int => .int 0
  | longLong => .longLong 0
  | double => .double 0

/-- What is read from the converted variant. -/
def val : Kind → Variant → Value
  | bool => fun ret => .bool (ret.boolVal ≠ 0)
  | bstr => fun ret => .bstr ret.bstrVal
  | int => fun ret => .int ret.intVal
  | longLong => fun ret => .longLong ret.llVal
  | double => fun ret => .double ret.dblVal

end Kind

/-- The extractions `ks`, each with the value it gives and what `res` is then. -/
def extractAll (changeType : ChangeType) : List Kind → Cdispop → List (Value × Hresult) × Cdispop
  | [], s => ([], s)
  | k :: ks, s =>
    let (value, s) := k.operator changeType s
    let (out, t) := extractAll changeType ks s
    ((value, s.res) :: out, t)

end Automation
end UtilWin
