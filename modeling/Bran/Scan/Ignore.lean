import Bran.Library.Text
import Bran.Library.Validation

/-!
# Ignore rules

The matcher of `scan/ignore.rs`: built-in components, the rules of a root ignore file, and the rules
of a `.gitignore`, of which the last that matches decides.
-/

namespace Bran.Scan

open Text Validation

inductive RuleError
  | emptyPattern
  | absolutePath
  | traversal
  | multipleWildcards
  deriving DecidableEq

inductive IgnoreDiagnostic
  | inputTooLarge (actualBytes : ℕ)
  | invalidUtf8
  | invalidRule (line : ℕ) (reason : RuleError)
  deriving DecidableEq

def maxBranignoreBytes : ℕ := 64 * 1024

def builtinComponents : List Str :=
  [".git".toList, ".bearing".toList, "target".toList, "node_modules".toList, "vendor".toList,
    "generated".toList, "cache".toList, "caches".toList]

/-! ## Rules -/

structure Rule where
  pattern : Str
  anchored : Bool
  directory : Bool
  hasSlash : Bool
  deriving DecidableEq

structure GitRule where
  rule : Rule
  negated : Bool
  deriving DecidableEq

def wildcardMatch (pattern value : Str) : Bool :=
  match splitOnce '*' pattern with
  | none => pattern = value
  | some (before, after) =>
      before <+: value ∧ after <:+ value ∧ byteLen before + byteLen after ≤ byteLen value

namespace Rule

def matchesTarget (rule : Rule) (target : Str) : Bool :=
  wildcardMatch rule.pattern target ||
    (rule.directory && (beforeEach '/' target).any (wildcardMatch rule.pattern))

def matches_ (rule : Rule) (path : Str) : Bool :=
  if rule.anchored then rule.matchesTarget path
  else if !rule.hasSlash then (path.splitOn '/').any rule.matchesTarget
  else rule.matchesTarget path || (afterEach '/' path).any rule.matchesTarget

def looksLikeDrivePath : Str → Bool
  | first :: second :: _ => first.isAlpha && second = ':'
  | _ => false

def parse (input : Str) : Except RuleError Rule :=
  let normalized := input.map fun c => if c = '\\' then '/' else c
  if "//".toList <+: normalized ∨ looksLikeDrivePath normalized = true then .error .absolutePath
  else
    let anchored : Bool := normalized.head? = some '/'
    let body := normalized.dropWhile (· = '/')
    let parts := (body.splitOn '/').filter (· ≠ [])
    if parts = [] then .error (if anchored then .absolutePath else .emptyPattern)
    else if ['.'] ∈ parts ∨ ['.', '.'] ∈ parts then .error .traversal
    else
      let pattern := join ['/'] parts
      if pattern.count '*' > 1 then .error .multipleWildcards
      else .ok ⟨pattern, anchored, body.getLast? = some '/', pattern.contains '/'⟩

end Rule

/-! ## Matchers -/

structure IgnoreMatcher where
  rules : List Rule
  gitRules : List GitRule

namespace IgnoreMatcher

def default : IgnoreMatcher := ⟨[], []⟩

/-- The rules of the lines from a number on. -/
def parseRules : ℕ → List Str → Except IgnoreDiagnostic (List Rule)
  | _, [] => .ok []
  | number, raw :: rest =>
      let line := trim raw
      if line = [] ∨ line.head? = some '#' then parseRules (number + 1) rest
      else do
        let rule ← (Rule.parse line).mapError (.invalidRule number)
        return rule :: (← parseRules (number + 1) rest)

def fromBranignore (bytes : List UInt8) : Except IgnoreDiagnostic IgnoreMatcher := do
  failIf (bytes.length > maxBranignoreBytes) (.inputTooLarge bytes.length)
  match fromUtf8 bytes with
  | none => .error .invalidUtf8
  | some text => do return ⟨← parseRules 1 (lines text), []⟩

def fromOkfignore (bytes : List UInt8) : Except IgnoreDiagnostic IgnoreMatcher :=
  fromBranignore bytes

/-- The git rule of a line; syntax outside of the grammar is passed over. -/
def gitRule (raw : Str) : Option GitRule :=
  let line := trim raw
  if line = [] ∨ line.head? = some '#' then none
  else
    let pattern := (stripStart ['!'] line).getD line
    match Rule.parse pattern with
    | .error _ => none
    | .ok rule => some ⟨rule, (stripStart ['!'] line).isSome⟩

def addGitignore (matcher : IgnoreMatcher) (bytes : List UInt8) : IgnoreMatcher :=
  match fromUtf8 bytes with
  | none => matcher
  | some text => { matcher with gitRules := matcher.gitRules ++ (lines text).filterMap gitRule }

def isIgnoredRelative (matcher : IgnoreMatcher) (relativePath : Str) : Bool :=
  let path := relativePath.rdropWhile (· = '/')
  (path.splitOn '/').any (fun component => builtinComponents.contains component) ||
    (matcher.rules.any (fun rule => rule.matches_ path) ||
      (matcher.gitRules.filter fun rule => rule.rule.matches_ path).foldl
        (fun _ rule => !rule.negated) false)

end IgnoreMatcher

end Bran.Scan
