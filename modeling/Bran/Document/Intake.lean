import Bran.Library.Words

/-!
# The intake of documents

What every format shares: the typed refusals, the budgets and the cancellation of `lib.rs`.
-/

namespace Bran.Document

inductive Refusal where
  | malformedContainer
  | unsupportedContainer
  | encrypted
  | unsafePartPath
  | duplicatePart
  | oversized
  | tooManyParts
  | decompressionLimit
  | malformedXml
  | xmlDtdRefused
  | xmlDepthLimit
  | xmlNodeLimit
  | activeContent
  | externalReference
  | cancelled
  | dlpFindings
  | publicBoundary
  | exportFormatMismatch
  | exportContainment
  | exportExists
  | exportIo
  | exportUnsupported
  | pdfMalformed
  | pdfDepthLimit
  | pdfObjectLimit
  | pdfPageLimit
  | noAdmissibleText
  deriving DecidableEq

structure Limits where
  maxPackageBytes : ℕ
  maxParts : ℕ
  maxPartBytes : ℕ
  maxTotalBytes : ℕ
  maxRatio : ℕ
  maxXmlDepth : ℕ
  maxXmlNodes : ℕ
  words : maxPackageBytes < 2 ^ 64 ∧ maxParts < 2 ^ 64 ∧ maxPartBytes < 2 ^ 64 ∧
    maxTotalBytes < 2 ^ 64 ∧ maxRatio < 2 ^ 64 ∧ maxXmlDepth < 2 ^ 64 ∧ maxXmlNodes < 2 ^ 64
  deriving DecidableEq

def Limits.default : Limits where
  maxPackageBytes := 20 * 1024 * 1024
  maxParts := 4096
  maxPartBytes := 16 * 1024 * 1024
  maxTotalBytes := 128 * 1024 * 1024
  maxRatio := 100
  maxXmlDepth := 256
  maxXmlNodes := 1000000
  words := by decide

/-- `Cancel`: what its flag holds at each check. -/
abbrev Cancel := ℕ → Bool

end Bran.Document
