import Bran.Cli.DocumentEvidence
import Bran.Cli.EvidencePersist

/-!
# The record of a query

A query ranks the sources of one root, or of several, and the record of it is what is stored.  The
same record is made again from the live repositories when the stored one is evaluated.
-/

namespace Bran.Cli

open Text Validation DirTree Scan Graph

structure SourceRanking where
  bundle : Str
  id : NodeId
  locator : Str
  rank : ℕ
  exactMatches : ℕ
  partialMatches : ℕ
  matchReason : Str
  active : ℕ
  canonical : ℕ
  publicSafe : ℕ
  confidence : ℕ
  freshness : Str

def rankedFactKeys : List Str :=
  ["title".toList, "tags".toList, "tag".toList, "alias".toList, "aliases".toList,
    "purpose".toList, "responsibility".toList, "symbol".toList, "implements".toList,
    "validates".toList, "test".toList, "tests".toList, "keyword".toList, "keywords".toList]

def parentQueryFactKeys : List Str :=
  ["okf_status".toList, "status".toList, "public_boundary".toList]

def queryStopWords : List Str :=
  ["about".toList, "and".toList, "for".toList, "from".toList, "not".toList, "the".toList,
    "this".toList, "with".toList]

/-- A set of texts. -/
abbrev Terms := OrdSet Str

/-- What a query finds beside the ranking: the sources that a bundle lists, with their bytes. -/
abbrev BundleDocuments := Str × List (Listed × Option (List UInt8)) × ℕ

/-- What a query calls: the scanner, the graph of a snapshot, the body of a source behind its header,
the Unicode property of a character, what is selected for the answer and the terms that document
evidence matches. -/
structure QueryPorts (M : Type) where
  scanner : RepositoryScanner M
  graphInput : ScanSnapshot M → Option GraphInput
  documentBody : ScanSnapshot M → Str → Option Str
  isAlphanumeric : Char → Bool
  selects : GraphInput → List SourceRanking → Bool
  documentTerms : List BundleDocuments → Str → Option Terms

/-- Why a query has no record. -/
inductive QueryError
  | scanError (root : Str)
  | nativePolicyUnavailable (root : Str)
  | graphInputError (root : Str)
  | notSelected
  | duplicateRoot (root : Str)
  | evidence (error : EvidenceError)
  deriving DecidableEq

/-! ## Terms -/

/-- A separator inside an identifier. -/
def isSeparator (c : Char) : Bool := c = '-' || c = '_' || c = '.'

def classifyQueryRun (found : Terms × Terms) (run : Str) : Terms × Terms :=
  if run = [] then found
  else
    let trimmed := (run.dropWhile isSeparator).rdropWhile isSeparator
    if trimmed.any isSeparator then
      if byteLen trimmed ≥ 6 then (found.1, found.2.insert trimmed ()) else found
    else if byteLen trimmed ≥ 3 ∧ trimmed ∉ queryStopWords then (found.1.insert trimmed (), found.2)
    else found

section Terms

variable (isAlphanumeric : Char → Bool)

/-- The runs of identifier characters of a query, behind the one that is being collected. -/
def queryRuns (run : Str) : Str → List Str
  | [] => [run]
  | c :: rest =>
      if isAlphanumeric c || isSeparator c then queryRuns (run ++ toAsciiLowercase [c]) rest
      else run :: queryRuns [] rest

def queryTermsAndEntities (query : Str) : Terms × Terms :=
  (queryRuns isAlphanumeric [] query).foldl classifyQueryRun (.empty, .empty)

def queryTermCoverage (query : Str) (matched : Terms) : List Str × List Str :=
  let (terms, entities) := queryTermsAndEntities isAlphanumeric query
  let all := entities.keys ++ terms.keys
  (all.filter fun term => matched.contains term, all.filter fun term => !matched.contains term)

/-- The outcome of `query_semantic_outcome`. -/
def querySemanticOutcome (query : Str) (matched : Terms) (hasRankedEvidence : Bool) : Str :=
  if !hasRankedEvidence then "miss".toList
  else if (queryTermCoverage isAlphanumeric query matched).2 = [] then "grounded".toList
  else "partial_unanchored".toList

end Terms

/-! ## Scores -/

/-- What the terms of a query match in a source. -/
structure Score where
  exactMatches : ℕ
  partialMatches : ℕ
  exactFields : Terms
  partialFields : Terms
  matched : Terms

def factValues (facts : NodeFacts) (keys : List Str) : List (Str × Str) :=
  keys.flatMap fun key => ((facts.values key).getD []).map fun value => (key, value)

def entityFields (node : NodeInput) (locator : Str) (body : Option Str) (entity : Str) : List Str :=
  (if containsStr locator entity then ["path".toList] else []) ++
    ((factValues node.facts rankedFactKeys ++ factValues node.facts parentQueryFactKeys).filter
      fun fact => containsStr (toAsciiLowercase fact.2) entity).map Prod.fst ++
    (if body.any fun body => containsStr body entity then ["body".toList] else [])

namespace Score

/-- No match. -/
def zero (matched : Terms) : Score := ⟨0, 0, .empty, .empty, matched⟩

/-- A whole match. -/
def exact_ (score : Score) (fields : List Str) (term : Str) : Score :=
  { score with
    exactMatches := score.exactMatches + 1
    exactFields := score.exactFields.extend fields
    matched := score.matched.insert term () }

/-- A match inside of a value. -/
def partial_ (score : Score) (field term : Str) : Score :=
  { score with
    partialMatches := score.partialMatches + 1
    partialFields := score.partialFields.insert field ()
    matched := score.matched.insert term () }

/-- The loop over the entities. -/
def entity (node : NodeInput) (locator : Str) (body : Option Str) (score : Score) (entity : Str) :
    Score :=
  let fields := entityFields node locator body entity
  if fields = [] then score else score.exact_ fields entity

def rankedTerm (isAlphanumeric : Char → Bool) (key value : Str) (score : Score) (term : Str) :
    Score :=
  if value = term then score.exact_ [key] term
  else if key = "path".toList ∧ term ∈ value.splitOnP (fun c => !isAlphanumeric c) then
    score.partial_ "path".toList term
  else if containsStr value term then score.partial_ key term
  else score

def parentTerm (key value : Str) (score : Score) (term : Str) : Score :=
  if containsStr value term then score.partial_ key term else score

def bodyTerm (body : Str) (score : Score) (term : Str) : Score :=
  if containsStr body term then score.partial_ "body".toList term else score

end Score

def statusRank (facts : NodeFacts) : ℕ :=
  match ((facts.values "okf_status".toList).orElse fun _ => facts.values "status".toList).bind
    List.head? with
  | some status =>
      if status = "active".toList then 3
      else if status = "draft".toList then 2
      else if status = "deprecated".toList then 1
      else 0
  | none => 0

section Ports

variable {M : Type} (ports : QueryPorts M)

/-- The score of a source, behind the terms that others have matched. -/
def scoreNode (snapshot : ScanSnapshot M) (terms entities : Terms) (node : NodeInput)
    (matched : Terms) : Score :=
  let locator := toAsciiLowercase node.provenance.locator
  let body := (ports.documentBody snapshot node.provenance.locator).map toAsciiLowercase
  let named := entities.keys.foldl (Score.entity node locator body) (.zero matched)
  let ranked := (("path".toList, locator) :: factValues node.facts rankedFactKeys).foldl
    (fun score fact => terms.keys.foldl
      (Score.rankedTerm ports.isAlphanumeric fact.1 (toAsciiLowercase fact.2)) score) named
  let parents := (factValues node.facts parentQueryFactKeys).foldl
    (fun score fact => terms.keys.foldl (Score.parentTerm fact.1 (toAsciiLowercase fact.2)) score)
    ranked
  match body with
  | some body => terms.keys.foldl (Score.bodyTerm body) parents
  | none => parents

/-- The ranking of a source with its score. -/
def rankingOf (node : NodeInput) (score : Score) : SourceRanking where
  bundle := []
  id := node.id
  locator := node.provenance.locator
  rank := 0
  exactMatches := score.exactMatches
  partialMatches := score.partialMatches
  matchReason :=
    if score.exactFields.keys = [] then "partial:".toList ++ join ['+'] score.partialFields.keys
    else "exact:".toList ++ join ['+'] score.exactFields.keys
  active := statusRank node.facts
  canonical :=
    if node.facts.containsValue "canonical".toList "true".toList ||
        node.facts.containsValue "canonical".toList "yes".toList ||
        (((node.facts.values "authority".toList).isSome ||
          (node.facts.values "resource".toList).isSome) && statusRank node.facts > 0) then 1
    else 0
  publicSafe :=
    if ((node.facts.values "public_boundary".toList).getD []).any fun value =>
        value = "public".toList || value = "safe".toList then 1
    else 0
  confidence := node.confidence.value
  freshness :=
    (((node.facts.values "timestamp".toList).orElse fun _ =>
      node.facts.values "freshness".toList).bind List.head?).getD []

/-- One source of `score_source_candidates`. -/
def scoreCandidate (snapshot : ScanSnapshot M) (terms entities : Terms)
    (state : List SourceRanking × Terms) (node : NodeInput) : List SourceRanking × Terms :=
  if node.role = .document ∧ formatForPath node.provenance.locator = none then
    let score := scoreNode ports snapshot terms entities node state.2
    (if score.exactMatches + score.partialMatches > 0 then state.1 ++ [rankingOf node score]
      else state.1, score.matched)
  else state

def scoreSourceCandidates (graph : GraphInput) (snapshot : ScanSnapshot M) (query : Str) :
    List SourceRanking × Terms × Terms :=
  let (terms, entities) := queryTermsAndEntities ports.isAlphanumeric query
  let (rankings, matched) :=
    graph.nodes.foldl (scoreCandidate ports snapshot terms entities) ([], .empty)
  (rankings, matched, entities)

def suppressUnanchoredEntityMatches (rankings : List SourceRanking) (matched entities : Terms) :
    List SourceRanking :=
  if entities.keys.any (fun entity => !matched.contains entity) ∧
      ¬ rankings.any (fun ranking => ranking.exactMatches > 0) then []
  else rankings

/-- `ranking_score_order` with the order of what it leaves equal: the bundle, across bundles, and
the identity. -/
def SourceRanking.key (crossBundle : Bool) (ranking : SourceRanking) :
    ℕᵒᵈ ×ₗ ℕᵒᵈ ×ₗ ℕᵒᵈ ×ₗ ℕᵒᵈ ×ₗ ℕᵒᵈ ×ₗ ℕᵒᵈ ×ₗ Strᵒᵈ ×ₗ Str ×ₗ NodeId :=
  toLex (.toDual ranking.exactMatches, toLex (.toDual ranking.partialMatches,
    toLex (.toDual ranking.active, toLex (.toDual ranking.canonical,
      toLex (.toDual ranking.publicSafe, toLex (.toDual ranking.confidence,
        toLex (.toDual ranking.freshness,
          toLex (if crossBundle then ranking.bundle else [], ranking.id))))))))

def finalizeSourceRankings (rankings : List SourceRanking) (maxSources : ℕ) (crossBundle : Bool) :
    List SourceRanking :=
  ((sortBy (SourceRanking.key crossBundle) rankings).take maxSources).mapIdx fun index ranking =>
    { ranking with rank := index + 1 }

def sourceRankings (graph : GraphInput) (snapshot : ScanSnapshot M) (query : Str)
    (maxSources : ℕ) : List SourceRanking × Terms :=
  let (rankings, matched, entities) := scoreSourceCandidates ports graph snapshot query
  (finalizeSourceRankings (suppressUnanchoredEntityMatches rankings matched entities) maxSources
    false, matched)

/-! ## Records -/

def evidenceRankingFromSource (ranking : SourceRanking) : QueryEvidenceRanking where
  bundle := ranking.bundle
  locator := ranking.locator
  rank := .ofNat ranking.rank
  matchReason := ranking.matchReason
  exact_ := .ofNat ranking.exactMatches
  partial_ := .ofNat ranking.partialMatches
  active := .ofNat ranking.active
  canonical := .ofNat ranking.canonical
  publicSafe := .ofNat ranking.publicSafe
  confidence := .ofNat ranking.confidence
  freshness := ranking.freshness

def queryEvidenceRecord (request : Str) (roots : List Str) (outcome : Str) (matched : Terms)
    (rankings : List QueryEvidenceRanking) : QueryEvidenceRecord :=
  let coverage := queryTermCoverage ports.isAlphanumeric request matched
  ⟨request, roots, outcome, coverage.1, coverage.2, rankings⟩

/-- The repositories by the texts that address them. -/
abbrev Repositories := Str → Option Root

def hasPolicy (root : Root) : Bool :=
  (fileAt [".bran".toList, "policy.yaml".toList] (.directory root)).isSome

/-- The documents of a bundle as document evidence reads them. -/
def bundleDocuments (bundle : Str) (root : Root) : Option BundleDocuments :=
  (discover root).map fun found =>
    (bundle, found.1.map fun listed => (listed, fileBelow root listed.1), found.2)

/-- The terms of `document_evidence_json`. -/
def documentEvidenceTerms (repositories : Repositories) (bundles : List Str) (query : Str) :
    Option Terms :=
  (bundles.mapM fun bundle => (repositories bundle).bind (bundleDocuments bundle)).bind fun found =>
    ports.documentTerms found query

/-- The matched terms and the outcome with document evidence. -/
def withDocuments (query : Str) (rankings : List SourceRanking) (matched : Terms)
    (documents : Option Terms) : Terms × Str :=
  let matched := matched.extend ((documents.map OrdMap.keys).getD [])
  (matched, querySemanticOutcome ports.isAlphanumeric query matched
    (!rankings.isEmpty || documents.any fun terms => !terms.keys.isEmpty))

structure ScannedQueryRoot (M : Type) where
  requested : Str
  snapshot : ScanSnapshot M
  graphInput : GraphInput

def scanPolicyQueryRoot (repositories : Repositories) (requested : Str) :
    Except QueryError (ScannedQueryRoot M) :=
  match repositories requested with
  | none => .error (.scanError requested)
  | some root =>
      if hasPolicy root = false then .error (.nativePolicyUnavailable requested)
      else
        match scan ports.scanner root with
        | .error _ => .error (.scanError requested)
        | .ok snapshot =>
            match ports.graphInput snapshot with
            | none => .error (.graphInputError requested)
            | some graph => .ok ⟨requested, snapshot, graph⟩

/-- `do_query` up to its record. -/
def doQuery (repositories : Repositories) (root query : Str) :
    Except QueryError QueryEvidenceRecord :=
  match repositories root with
  | none => .error (.scanError root)
  | some tree =>
      if hasPolicy tree = false then .error (.evidence .unavailable)
      else
        match scan ports.scanner tree with
        | .error _ => .error (.scanError root)
        | .ok snapshot =>
            match ports.graphInput snapshot with
            | none => .error (.graphInputError root)
            | some graph =>
                let (rankings, matched) := sourceRankings ports graph snapshot query queryResultLimit
                if ports.selects graph rankings = false then .error .notSelected
                else
                  let documents := documentEvidenceTerms ports repositories [root] query
                  let (matched, outcome) := withDocuments ports query rankings matched documents
                  .ok (queryEvidenceRecord ports query [root] outcome matched
                    (rankings.map evidenceRankingFromSource))

/-- The loop over the roots of a query across bundles. -/
def scoreRoots (query : Str) (scanned : List (ScannedQueryRoot M)) :
    List SourceRanking × Terms × Terms :=
  scanned.foldl
    (fun state root =>
      let (rankings, matched, entities) :=
        scoreSourceCandidates ports root.graphInput root.snapshot query
      (state.1 ++ rankings.map fun ranking => { ranking with bundle := root.requested },
        state.2.1.extend matched.keys, entities))
    ([], .empty, .empty)

/-- The rankings of a query across bundles, and the terms it matches. -/
def multiRankings (query : Str) (scanned : List (ScannedQueryRoot M)) :
    List SourceRanking × Terms :=
  let (rankings, matched, entities) := scoreRoots ports query scanned
  (finalizeSourceRankings (suppressUnanchoredEntityMatches rankings matched entities)
    queryResultLimit true, matched)

/-- What a query across bundles selects in each of its roots that is ranked. -/
def selectsAll (rankings : List SourceRanking) (scanned : List (ScannedQueryRoot M)) : Bool :=
  scanned.all fun root =>
    let ranked := rankings.filter fun ranking => ranking.bundle = root.requested
    ranked.isEmpty || ports.selects root.graphInput ranked

/-- The first root that is requested twice. -/
def duplicateRoot : List Str → List Str → Option Str
  | _, [] => none
  | seen, root :: rest => if root ∈ seen then some root else duplicateRoot (root :: seen) rest

/-- `do_query_multi` up to its record. -/
def doQueryMulti (repositories : Repositories) (roots : List Str) (query : Str) :
    Except QueryError QueryEvidenceRecord :=
  match duplicateRoot [] roots with
  | some root => .error (.duplicateRoot root)
  | none => do
      let scanned ← roots.mapM (scanPolicyQueryRoot ports repositories)
      let (rankings, matched) := multiRankings ports query scanned
      failIf (selectsAll ports rankings scanned = false) .notSelected
      let documents := documentEvidenceTerms ports repositories roots query
      let (matched, outcome) := withDocuments ports query rankings matched documents
      return queryEvidenceRecord ports query roots outcome matched
        (rankings.map evidenceRankingFromSource)

def recordQuery (repositories : Repositories) (roots : List Str) (query : Str) :
    Except QueryError QueryEvidenceRecord :=
  match roots with
  | [root] => doQuery ports repositories root query
  | roots => doQueryMulti ports repositories roots query

/-! ## Evaluation -/

def queryEvidenceFromLive (repositories : Repositories) (roots : List Str) (query : Str)
    (multi : Bool) : Except QueryError QueryEvidenceRecord :=
  match multi, roots with
  | false, [] => .error (.evidence .corrupt)
  | false, root :: _ => do
      let scanned ← scanPolicyQueryRoot ports repositories root
      let (rankings, matched) :=
        sourceRankings ports scanned.graphInput scanned.snapshot query queryResultLimit
      let documents := documentEvidenceTerms ports repositories [root] query
      let (matched, outcome) := withDocuments ports query rankings matched documents
      return queryEvidenceRecord ports query roots outcome matched
        (rankings.map fun ranking => { evidenceRankingFromSource ranking with bundle := [] })
  | true, roots => do
      let scanned ← roots.mapM (scanPolicyQueryRoot ports repositories)
      let (rankings, matched) := multiRankings ports query scanned
      let documents := documentEvidenceTerms ports repositories roots query
      let (matched, outcome) := withDocuments ports query rankings matched documents
      return queryEvidenceRecord ports query roots outcome matched
        (rankings.map evidenceRankingFromSource)

def evaluateQueryRecord (repositories : Repositories) (record : QueryEvidenceRecord) :
    Except QueryError QueryEvidenceRecord :=
  if record.requestedRoots = [] then .error (.evidence .corrupt)
  else queryEvidenceFromLive ports repositories record.requestedRoots record.request
    (record.requestedRoots.length > 1)

end Ports

def rankingPayload (ranking : QueryEvidenceRanking) : Str :=
  join ['|'] [decimal ranking.rank.toNat, ranking.matchReason, decimal ranking.exact_.toNat,
    decimal ranking.partial_.toNat, decimal ranking.active.toNat, decimal ranking.canonical.toNat,
    decimal ranking.publicSafe.toNat, decimal ranking.confidence.toNat, ranking.freshness]

def rankingIdentity (ranking : QueryEvidenceRanking) : Str ×ₗ Str :=
  toLex (ranking.bundle, ranking.locator)

/-- An entry of `ranking_differences`. -/
inductive RankingDifference
  | changed (before after : QueryEvidenceRanking)
  | removed (before : QueryEvidenceRanking)
  | added (after : QueryEvidenceRanking)
  deriving DecidableEq

/-- The rankings under their identities; of two with one identity the later one counts. -/
def rankingMap (rankings : List QueryEvidenceRanking) : OrdMap (Str ×ₗ Str) QueryEvidenceRanking :=
  .ofList (rankings.map fun ranking => (rankingIdentity ranking, ranking))

def rankingDifferences (recorded current : List QueryEvidenceRanking) : List RankingDifference :=
  let before := rankingMap recorded
  let after := rankingMap current
  ((OrdSet.ofList before.keys).extend after.keys).keys.filterMap fun key =>
    match before.find? key, after.find? key with
    | some before, some after =>
        if rankingPayload before = rankingPayload after then none else some (.changed before after)
    | some before, none => some (.removed before)
    | none, some after => some (.added after)
    | none, none => none

end Bran.Cli
