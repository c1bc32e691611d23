import ScittCose.EncodingRule.Rust
import ScittCose.EncodingRule.Go

/-!
# The three walks of the receipt encoding rule are one walk
-/

namespace ScittCose.EncodingRule

open Checked

/-- The verdict of a checked walk; a run that faults has none. -/
def verdict : Checked Unit → Option Bool
  | .ok _ => some true
  | .error (.refused _) => some false
  | .error .fault => none

/-- On every octet string a machine can hold, the Python, Rust and Go walks give one verdict, and
the Rust and Go walks wrap nothing and stay inside their slices. -/
theorem walks_agree (octets : Slice) (what : String) (outerTag : Bool) :
    verdict (Rust.check octets what outerTag) =
        some (check octets.octets what outerTag).isOk ∧
      verdict (Go.checkEncoding octets what outerTag) =
        some (check octets.octets what outerTag).isOk ∧
      Rust.check octets what outerTag ≠ .error .fault ∧
      Go.checkEncoding octets what outerTag ≠ .error .fault := by
  rw [Rust.check_eq, Go.checkEncoding_eq]
  cases check octets.octets what outerTag with
  | ok u => exact ⟨rfl, rfl, by simp [Except.mapError], by simp [Except.mapError]⟩
  | error message => exact ⟨rfl, rfl, by simp [Except.mapError], by simp [Except.mapError]⟩

/-- What the walks accept, on each side. -/
theorem rust_check_eq_ok_iff {octets : Slice} {what : String} {outerTag : Bool} :
    Rust.check octets what outerTag = .ok () ↔ ∃ i, Grammar outerTag i ∧ Cbor.encode i = octets.octets := by
  rw [Rust.check_eq, ← @check_ok_iff _ what]
  cases check octets.octets what outerTag <;> simp [Except.mapError]

theorem go_checkEncoding_eq_ok_iff {octets : Slice} {what : String} {outerTag : Bool} :
    Go.checkEncoding octets what outerTag = .ok () ↔
      ∃ i, Grammar outerTag i ∧ Cbor.encode i = octets.octets := by
  rw [Go.checkEncoding_eq, ← @check_ok_iff _ what]
  cases check octets.octets what outerTag <;> simp [Except.mapError]

/-- What a walk returns that is the Python walk, messages included. -/
theorem gives_of_check_eq {x : Checked Unit} {octets : Octets} {what : String} {outerTag : Bool}
    (h : x = (check octets what outerTag).mapError Stop.refused) :
    Gives x ((read outerTag octets).map fun _ => ()) := by
  rw [h]
  cases hread : read outerTag octets with
  | none =>
      obtain ⟨error, herror⟩ := exists_check_error hread what
      rw [herror]
      exact .refused error
  | some i =>
      rw [check_of_read hread what]
      exact .ok ()

end ScittCose.EncodingRule
