import SpuCompiler.Options
import SpuCompiler.Text.Json

/-!
Options from JSON text: an object with any of the known members, or an array of values in their
order. What is not given has its default, unknown members are passed over, and a known member
may be given once.
-/

namespace SpuCompiler.Options

open Text

/-- A value of a member, which blanks may precede. -/
def value? (k : Key) (cs : List Char) : Option (Nat × List Char) := do
  let (n, r) ← Json.natural? (Json.skipBlank cs)
  guard (n < k.limit)
  return (n, r)

/-- Members of an object up to its closing bracket; `given` are the known ones before. -/
def members? (o : Options) (given : List Key) :
    (fuel : Nat) → List Char → Option (Options × List Char)
  | 0, _ => none
  | fuel + 1, cs => do
    let r ← Json.expect? '"' cs
    let (name, r) ← Json.string? r
    let (o, given, r) ←
      match Key.ofName? name with
      | some k => do
        guard (k ∉ given)
        let r ← Json.expect? ':' r
        let (n, r) ← value? k r
        pure (k.put o n, k :: given, r)
      | none => do
        let r ← Json.expect? ':' r
        let r ← Json.skip? r
        pure (o, given, r)
    match Json.expect? ',' r with
    | some r => members? o given fuel r
    | none => do
      let r ← Json.expect? '\x7d' r
      return (o, r)

/-- Items of an array up to its closing bracket, for the keys that are left. -/
def items? (o : Options) : List Key → List Char → Option (Options × List Char)
  | [], _ => none
  | k :: ks, cs => do
    let (n, r) ← value? k cs
    let o := k.put o n
    match Json.expect? ',' r with
    | some r => items? o ks r
    | none => do
      let r ← Json.expect? ']' r
      return (o, r)

/-- Options of a text, unchecked. -/
def parse? (text : String) : Option Options := do
  let (o, r) ←
    match Json.skipBlank text.toList with
    | '\x7b' :: r =>
      match Json.expect? '\x7d' r with
      | some r => pure ({}, r)
      | none => members? {} [] r.length r
    | '[' :: r =>
      match Json.expect? ']' r with
      | some r => pure ({}, r)
      | none => items? {} Key.all r
    | _ => none
  guard (Json.skipBlank r).isEmpty
  return o

inductive ReadError where
  /-- The text gives no options. -/
  | malformed
  | invalid (error : OptionsError)
  deriving DecidableEq

/-- Options of a text, checked. -/
def ofText (text : String) : Except ReadError Options :=
  match parse? text with
  | none => .error .malformed
  | some o =>
    match o.validate with
    | .error e => .error (.invalid e)
    | .ok () => .ok o

end SpuCompiler.Options
