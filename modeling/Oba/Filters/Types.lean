import Oba.Storage.Entry

/-! # Search filters

`types.go` of the package `filter`. A filter is one of its kinds with the fields that this
kind uses; extensible matches are left out, since nothing here makes one.
-/

namespace Oba.Filters

open Storage (Bytes)

/-- A component that is not there is empty. -/
structure SubstringFilter where
  attr : Bytes
  initial : Bytes
  any : List Bytes
  final : Bytes
  deriving DecidableEq, Repr

inductive Filter
  | and (children : List Filter)
  | or (children : List Filter)
  | not (child : Filter)
  | equality (attr value : Bytes)
  | substring (sf : SubstringFilter)
  | greaterOrEqual (attr value : Bytes)
  | lessOrEqual (attr value : Bytes)
  | present (attr : Bytes)
  | approxMatch (attr value : Bytes)
  deriving Repr

end Oba.Filters
