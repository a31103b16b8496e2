import Bran.Document.Intake
import Bran.Library.Text

/-!
# Part names

The check of `opc.rs` for names within a package, and what its names leave out.
-/

namespace Bran.Document.Opc

open Text Validation

/-- `char::is_control`: the Unicode category `Cc`. -/
def isControl (c : Char) : Bool := c.toNat < 0x20 || (0x7F ≤ c.toNat && c.toNat ≤ 0x9F)

def unsafeSegment (segment : Str) : Prop :=
  segment = [] ∨ segment = ['.'] ∨ segment = ['.', '.'] ∨ ['.'] <:+ segment

instance (segment : Str) : Decidable (unsafeSegment segment) :=
  inferInstanceAs (Decidable (_ ∨ _))

def validatePartName (name : Str) : Except Refusal Unit :=
  failIf (name = [] ∨ byteLen name > 1024 ∨ ['/'] <+: name ∨ '\\' ∈ name ∨
    (∃ c ∈ name, isControl c = true) ∨ "%2f".toList <:+: toAsciiLowercase name ∨
    "%5c".toList <:+: toAsciiLowercase name ∨ ∃ segment ∈ name.splitOn '/', unsafeSegment segment)
    .unsafePartPath

theorem validatePartName_eq_ok_iff {name : Str} : validatePartName name = .ok () ↔
    name ≠ [] ∧ byteLen name ≤ 1024 ∧ ¬ ['/'] <+: name ∧ '\\' ∉ name ∧
      (∀ c ∈ name, isControl c = false) ∧ ¬ "%2f".toList <:+: toAsciiLowercase name ∧
      ¬ "%5c".toList <:+: toAsciiLowercase name ∧
      ∀ segment ∈ name.splitOn '/', ¬ unsafeSegment segment := by
  rw [validatePartName, failIf_eq_ok_iff]
  simp only [not_or, not_exists, not_and, not_lt, ne_eq, gt_iff_lt, Bool.not_eq_true]

/-- A name is stored without control characters. -/
theorem le_of_mem_bytes {name : Str} {byte : UInt8} (hname : validatePartName name = .ok ())
    (h : byte ∈ bytes name) : 0x20 ≤ byte.toNat := by
  obtain ⟨_, _, _, _, hcontrol, _⟩ := validatePartName_eq_ok_iff.mp hname
  obtain ⟨c, hc, hbyte⟩ := List.mem_flatMap.mp h
  have hcode := hcontrol c hc
  rw [isControl, Bool.or_eq_false_iff, decide_eq_false_iff_not, not_lt] at hcode
  have hbyte := toNat_of_mem_utf8EncodeChar hbyte
  omega

end Bran.Document.Opc
