import Bran.Agent.ResultId
import Bran.Database.SqlTokens

/-!
# The SQL gate

`gate` and `project` of `database/sql.rs`: the checks between a token stream and an engine.

The gate reads a token stream as name chains and single tokens (`items`).  What it is meant to
guarantee is stated over that reading with a scan of its own, `Place`: the depth of a position
and where it stands with respect to the `FROM` list.
-/

namespace Bran.Database

open Validation

def maxSqlBytes : ℕ := 8 * 1024

def allowedFunctions : List Str :=
  ["abs", "avg", "coalesce", "count", "length", "lower", "max", "min", "round", "sum",
    "upper"].map String.toList

/-! ## Relation names -/

/-- `valid_part`: `[a-z_][a-z0-9_]{0,62}`. -/
def validPart (part : Str) : Bool :=
  part ≠ [] && Text.byteLen part ≤ 63 && part.head?.any (fun c => c.isLower || c = '_') &&
    part.all fun c => c.isLower || c.isDigit || c = '_'

/-- `RelationName`, with the form of its parts. -/
structure RelationName where
  schema : Str
  relation : Str
  valid : validPart schema = true ∧ validPart relation = true
  deriving DecidableEq

namespace RelationName

def parse (value : Str) : Option RelationName :=
  match Text.splitOnce '.' value with
  | none => none
  | some (schema, relation) =>
      if h : validPart schema = true ∧ validPart relation = true then some ⟨schema, relation, h⟩
      else none

/-- The name as a chain of two parts. -/
def parts (name : RelationName) : List Str := [name.schema, name.relation]

theorem parts_injective : Function.Injective parts := by
  intro first second h
  cases first
  cases second
  simp_all [parts]

/-- The derived order: by schema, then by relation. -/
instance : LinearOrder RelationName :=
  LinearOrder.lift' parts parts_injective

end RelationName

/-! ## Keyword classes -/

/-- `EXTERNAL`. -/
def externalWords : List Str :=
  ["attach", "detach", "load", "import", "openrowset", "openquery", "opendatasource", "dblink",
    "dblink_exec", "dblink_connect"].map String.toList

/-- `WRITE`. -/
def writeWords : List Str :=
  ["insert", "update", "delete", "merge", "replace", "upsert", "create", "drop", "alter",
    "truncate", "grant", "revoke", "copy", "into", "returning", "vacuum", "reindex", "analyze",
    "comment", "rename", "cluster", "refresh"].map String.toList

/-- `SESSION`. -/
def sessionWords : List Str :=
  ["set", "reset", "pragma", "begin", "commit", "rollback", "savepoint", "release", "start",
    "transaction", "lock", "for", "listen", "notify", "unlisten", "discard", "use", "declare",
    "fetch", "close", "prepare", "deallocate", "checkpoint"].map String.toList

/-- `PROCEDURE`. -/
def procedureWords : List Str := ["call", "exec", "execute", "do"].map String.toList

/-- `COMPOUND`. -/
def compoundWords : List Str := ["union", "intersect", "except"].map String.toList

/-- `GRAMMAR`: words that are never names (columns, relations, or aliases). -/
def grammarWords : List Str :=
  ["select", "distinct", "all", "from", "where", "and", "or", "not", "as", "join", "inner", "left",
    "outer", "cross", "on", "group", "by", "order", "asc", "desc", "limit", "offset", "having",
    "is", "null", "in", "between", "like", "true", "false", "nulls", "first", "last"].map
    String.toList

/-- `EXPRESSION_OPENERS`: words after which `(` opens an expression or list, never a call. -/
def expressionOpeners : List Str :=
  ["select", "distinct", "where", "and", "or", "not", "in", "on", "having", "by", "between",
    "limit", "offset"].map String.toList

/-- `OPERATORS`: symbols after which `(` opens a parenthesized expression. -/
def operators : List Str :=
  ["(", ",", "=", "<", ">", "<=", ">=", "<>", "!=", "+", "-", "*", "/", "%", "||"].map
    String.toList

/-- `FROM_END`: words that end a `FROM` list at parenthesis depth zero. -/
def fromEnd : List Str :=
  ["where", "group", "order", "having", "limit", "offset"].map String.toList

/-- `RELATION_FOLLOWERS`: words that may follow a relation and its alias in a `FROM` list. -/
def relationFollowers : List Str :=
  ["join", "inner", "left", "outer", "cross", "on", "where", "group", "order", "having", "limit",
    "offset"].map String.toList

def forbidden (word : Str) : Option SqlRejection :=
  [(externalWords, SqlRejection.externalReference), (writeWords, .writeOrDdl),
    (sessionWords, .sessionMutation), (procedureWords, .procedureCall),
    (compoundWords, .compound)].findSome? fun group =>
      if word ∈ group.1 then some group.2 else none

namespace Token

def isWord (word : String) (token : Token) : Bool := token = .word word.toList

def isSymbol (symbol : String) (token : Token) : Bool := token = .symbol symbol.toList

/-- Whether a token is an unquoted word of a class. -/
def isWordOf (words : List Str) : Token → Bool
  | .word text => text ∈ words
  | _ => false

/-- `Token::name`: a column, relation, or alias name. -/
def name : Token → Option Str
  | .word text => if text ∈ grammarWords then none else some text
  | .quoted name => some name
  | _ => none

/-- The part of a name chain a token can be; `*` only after another part. -/
def part (started : Bool) (token : Token) : Option Str :=
  token.name <|> if started && token.isSymbol "*" then some ['*'] else none

end Token

/-! ## The checks -/

/-- Whether `(` may follow a token. -/
def permitted (qualified : Bool) : Token → Bool
  | .word text =>
      if text ∈ allowedFunctions then !qualified else decide (text ∈ expressionOpeners)
  | .symbol symbol => decide (symbol ∈ operators)
  | _ => false

/-- The check of every `(`: a call to an allowlisted function named directly, or a grouping after
an operator or expression keyword.  `before` is the token before the remaining ones. -/
def checkCalls (before : Option Token) : List Token → Except SqlRejection Unit
  | first :: second :: rest =>
      if second.isSymbol "(" then
        if permitted (before.any (Token.isSymbol ".")) first then
          checkCalls (some first) (second :: rest)
        else .error .unsafeFunction
      -- `x IN schema.relation` would read a relation outside the FROM list
      else if first.isWord "in" then .error .malformed
      else checkCalls (some first) (second :: rest)
  | _ => .ok ()

/-- The loop of `chain`, after some parts or none. -/
def chainFrom (started : Bool) : List Token → List Str × List Token
  | [] => ([], [])
  | token :: rest =>
      match token.part started with
      | none => ([], token :: rest)
      | some part =>
          match rest with
          | [] => ([part], [])
          | dot :: after =>
              if dot.isSymbol "." then
                let tail := chainFrom true after
                (part :: tail.1, tail.2)
              else ([part], dot :: after)

/-- `chain`: a dotted name chain at the start of the tokens, and the tokens after it. -/
def chain (tokens : List Token) : List Str × List Token := chainFrom false tokens

/-- The relation that `FROM`, a join or a comma introduces. -/
def relationOf (allowed : List RelationName) : List Str → Except SqlRejection RelationName
  | [] => .error .malformed
  | [_] => .error .unqualifiedRelation
  | [schema, relation] =>
      match (RelationName.parse (schema ++ '.' :: relation)).filter (· ∈ allowed) with
      | some name => .ok name
      | none => .error .relationNotAllowed
  | _ => .error .externalReference

/-- The tokens after the alias of a relation, if it has one. -/
def skipAlias : List Token → Except SqlRejection (List Token)
  | [] => .ok []
  | token :: rest =>
      if token.isWord "as" then
        match rest with
        | [] => .error .malformed
        | label :: after => if label.name = none then .error .malformed else .ok after
      else if token.name ≠ none then .ok rest
      else .ok (token :: rest)

/-- What may follow a relation and its alias. -/
def checkFollower : List Token → Except SqlRejection Unit
  | [] => .ok ()
  | token :: _ =>
      if token.isSymbol "," || token.isWordOf relationFollowers then .ok () else .error .malformed

/-- The depth after a token. -/
def nextDepth (depth : ℕ) (token : Token) : Except SqlRejection ℕ :=
  if token.isSymbol "(" then .ok (depth + 1)
  else if token.isSymbol ")" then
    if depth = 0 then .error .malformed else .ok (depth - 1)
  else .ok depth

def startsRelation (depth : ℕ) (inFrom : Bool) (token : Token) : Bool :=
  depth = 0 && (token.isWord "from" || inFrom && (token.isWord "join" || token.isSymbol ","))

/-- The loop of `relations`. -/
def relationsFrom (allowed : List RelationName) :
    ℕ → ℕ → Bool → List RelationName → List Token → Except SqlRejection (List RelationName)
  | 0, _, _, _, _ => .error .malformed
  | _ + 1, depth, _, found, [] => do
      failIf (depth ≠ 0) .malformed
      pure (Validation.normalize found)
  | fuel + 1, depth, inFrom, found, token :: rest => do
      let depth ← nextDepth depth token
      let inFrom := inFrom && !(depth = 0 && token.isWordOf fromEnd)
      if startsRelation depth inFrom token then
        let (parts, next) := chain rest
        let relation ← relationOf allowed parts
        let next ← skipAlias next
        checkFollower next
        relationsFrom allowed fuel depth true (relation :: found) next
      else
        let (parts, next) := chain (token :: rest)
        failIf (3 < parts.length) .externalReference
        relationsFrom allowed fuel depth inFrom found (if parts = [] then rest else next)

def relations (tokens : List Token) (allowed : List RelationName) :
    Except SqlRejection (List RelationName) :=
  relationsFrom allowed (tokens.length + 1) 0 false [] tokens

/-- Whether `ORDER` stands directly before `BY`. -/
def hasOrderBy : List Token → Bool
  | first :: second :: rest =>
      first.isWord "order" && second.isWord "by" || hasOrderBy (second :: rest)
  | _ => false

inductive QueryDerivation
  | projection
  | query
  deriving DecidableEq

structure GatedQuery where
  sql : Str
  digest : Str
  relations : List RelationName
  derivation : QueryDerivation
  deriving DecidableEq

/-- `ResultId::sha256(bytes).to_string()`. -/
def digestText (bytes : List UInt8) : Str := "sha256:".toList ++ Agent.sha256Value bytes

/-- `gate_as` after the tokenizer. -/
def gateTokens (tokens : List Token) (allowed : List RelationName) (derivation : QueryDerivation) :
    Except SqlRejection GatedQuery := do
  failIf (tokens = []) .empty
  refuse (tokens.findSome? fun token =>
    match token with
    | .word word => forbidden word
    | _ => none) id
  failIf (1 < (tokens.filter (Token.isWord "select")).length) .compound
  failIf (tokens.head?.any (Token.isWord "select") = false) .notSelect
  checkCalls none tokens
  let relations ← relations tokens allowed
  failIf (hasOrderBy tokens = false) .unordered
  let sql := joinTexts tokens
  pure ⟨sql, digestText (Text.bytes sql), relations, derivation⟩

def gateAs (sql : Str) (allowed : List RelationName) (derivation : QueryDerivation) :
    Except SqlRejection GatedQuery := do
  failIf (maxSqlBytes < Text.byteLen sql) .tooLarge
  let tokens ← tokenize sql
  gateTokens tokens allowed derivation

def gate (sql : Str) (allowed : List RelationName) : Except SqlRejection GatedQuery :=
  gateAs sql allowed .query

/-! ## Projections -/

/-- `SELECT "c1", ... FROM "schema"."relation" ORDER BY 1, ...`. -/
def projectionText (relation : RelationName) (columns : List Str) : Str :=
  "SELECT ".toList ++ Text.join ", ".toList (columns.map fun column => '"' :: (column ++ ['"'])) ++
    " FROM \"".toList ++ relation.schema ++ "\".\"".toList ++ relation.relation ++
    "\" ORDER BY ".toList ++
    Text.join ", ".toList ((List.range columns.length).map fun index => Text.decimal (index + 1))

def project (relation : RelationName) (columns : List Str) (allowed : List RelationName) :
    Except SqlRejection GatedQuery := do
  failIf (columns = [] ∨ 256 < columns.length ∨ ¬ columns.Nodup ∨
    columns.all validPart = false) .invalidProjection
  gateAs (projectionText relation columns) allowed .projection

end Bran.Database
