import Bran.Adapters.Grounding

/-!
# Reading the canonical text of a response

The canonical text of a grounded response determines the response up to its usages: the closing
lines are read off its end, the lines in front of the usages one after the other.  A support may
hold line breaks, so the usages are determined only when no support holds a line that starts like
one.
-/

namespace Bran.Adapters

open Bran.Agent Bran.Graph Bran.Packet Text Validation List

variable {packet : StructuralPacket} {response : ConnectedResponse}

/-! ## The parts of the canonical text -/

def numberedLines (name : String) (values : List Str) : List Str :=
  values.zipIdx.map fun entry => name.toList ++ decimal entry.2 ++ '=' :: entry.1

def frontLines (response : ConnectedResponse) : List Str :=
  numberedLines "conflict." response.conflicts ++ numberedLines "missing." response.missingEvidence ++
    response.claims.flatMap claimLines ++ response.citations.map citationLine

def usagesText (usages : List ConnectedUsage) : Str := (usages.map usageText).flatMap writeLine

theorem canonicalText_eq (packet : StructuralPacket) (response : ConnectedResponse) :
    canonicalText packet response = packetText packet ++ ((frontLines response).flatMap writeLine ++
      usagesText response.usages) ++ (closingLines response).flatMap writeLine := by
  simp only [canonicalText, frontLines, usagesText, numbered, numberedLines, flatMap_append,
    flatMap_map, append_assoc]

theorem not_mem_of_validId {value : Str} (h : validId value = true) :
    ∀ c : Char, PreservationAnchor.idChar c = false → c ∉ value := by
  intro c hc hmem
  rw [validId, Bool.and_eq_true, all_eq_true] at h
  rw [h.2 c hmem] at hc
  cases hc

theorem newline_not_mem_of_validField {value : Str} (h : validField value = true) :
    '\n' ∉ value := by
  rw [validField, Bool.and_eq_true] at h
  simpa using h.2

theorem not_mem_of_isDigest {value : Str} (h : isDigest value = true) :
    ∀ c : Char, isLowerHex c = false → c ∉ value := by
  intro c hc hmem
  rw [isDigest, Bool.and_eq_true, all_eq_true] at h
  rw [h.2 c hmem] at hc
  cases hc

/-- The first letters of the lines in front of the usages. -/
def frontLetter (c : Char) : Bool := c == 'c' || c == 'm'

theorem head?_any_append {p : Char → Bool} {start : Str} (h : start.head?.any p = true)
    (rest : Str) : (start ++ rest).head?.any p = true := by
  cases start with
  | nil => cases h
  | cons c start => exact h

theorem citationLine_closed {citation : ConnectedCitation} (h : WellFormedCitation citation) :
    '\n' ∉ citationLine citation ∧ (citationLine citation).head?.any frontLetter = true := by
  have hid := not_mem_of_validId h.id '\n' (by decide)
  have hfields : '\n' ∉ barred [citation.id, citation.claimId, citation.nodeId, citation.locator,
      citation.contentDigest] := by
    refine not_mem_join (by decide) fun value hvalue => ?_
    simp only [mem_cons, not_mem_nil, or_false] at hvalue
    rcases hvalue with rfl | rfl | rfl | rfl | rfl
    · exact hid
    · exact not_mem_of_validId h.claimId '\n' (by decide)
    · exact newline_not_mem_of_validField h.nodeId
    · exact newline_not_mem_of_validField h.locator
    · exact not_mem_of_isDigest h.contentDigest '\n' (by decide)
  unfold citationLine
  refine ⟨?_, head?_any_append (head?_any_append (by decide) _) _⟩
  simp only [mem_append, mem_cons, not_or]
  exact ⟨⟨by decide, hid⟩, by decide, hfields⟩

/-- The lines of a grounded response hold no line break, and start like its parts. -/
theorem frontLines_closed (h : Grounded packet response) : ∀ line ∈ frontLines response,
    '\n' ∉ line ∧ line.head?.any frontLetter = true := by
  have hnumbered : ∀ (name : String) (values : List Str), '\n' ∉ name.toList →
      name.toList.head?.any frontLetter = true → (∀ value ∈ values, validField value = true) →
      ∀ line ∈ numberedLines name values, '\n' ∉ line ∧ line.head?.any frontLetter = true := by
    intro name values hname hstart hvalues line hline
    obtain ⟨⟨value, index⟩, hentry, rfl⟩ := mem_map.mp hline
    have hvalue := hvalues value (fst_mem_of_mem_zipIdx hentry)
    refine ⟨?_, ?_⟩
    · simp only [mem_append, mem_cons, not_or]
      exact ⟨⟨hname, not_mem_decimal (by decide) index⟩, by decide,
        newline_not_mem_of_validField hvalue⟩
    · exact head?_any_append (head?_any_append hstart _) _
  intro line hline
  simp only [frontLines, mem_append, or_assoc] at hline
  rcases hline with hline | hline | hline | hline
  · exact hnumbered _ _ (by decide) (by decide) h.conflicts.fields line hline
  · exact hnumbered _ _ (by decide) (by decide) h.missing.fields line hline
  · obtain ⟨claim, hclaim, hline⟩ := mem_flatMap.mp hline
    obtain ⟨hid, htext⟩ := h.claims claim hclaim
    have hid' := not_mem_of_validId hid '\n' (by decide)
    have htext' := newline_not_mem_of_validField htext
    simp only [claimLines, mem_cons, not_mem_nil, or_false] at hline
    rcases hline with rfl | rfl
    · refine ⟨?_, head?_any_append (head?_any_append (head?_any_append (by decide) _) _) _⟩
      simp only [mem_append, not_or]
      exact ⟨⟨⟨by decide, hid'⟩, by decide⟩, hid'⟩
    · refine ⟨?_, head?_any_append (head?_any_append (head?_any_append (by decide) _) _) _⟩
      simp only [mem_append, not_or]
      exact ⟨⟨⟨by decide, hid'⟩, by decide⟩, htext'⟩
  · obtain ⟨citation, hcitation, rfl⟩ := mem_map.mp hline
    exact citationLine_closed (h.citations citation hcitation)

/-! ## Reading the canonical text back -/

/-- An item is named by its node alone. -/
theorem NamesItem.unique (haddressable : Addressable packet)
    {nodeId locator locator' contentDigest contentDigest' : Str}
    (h : NamesItem packet nodeId locator contentDigest)
    (h' : NamesItem packet nodeId locator' contentDigest') :
    locator = locator' ∧ contentDigest = contentDigest' := by
  obtain ⟨item, hitem, hid, _, rfl, rfl⟩ := h
  obtain ⟨item', hitem', hid', _, rfl, rfl⟩ := h'
  obtain rfl := inj_on_of_nodup_map haddressable.nodeIds hitem hitem' (hid.trans hid'.symm)
  exact ⟨rfl, rfl⟩

theorem NamesItem.plain (haddressable : Addressable packet) {nodeId locator contentDigest : Str}
    (h : NamesItem packet nodeId locator contentDigest) : '|' ∉ nodeId := by
  obtain ⟨item, hitem, rfl, _⟩ := h
  exact haddressable.plain item hitem

/-- The lines of a class are read off in front of lines of other classes. -/
theorem append_inj_of_class {class_ : Str → Str} {mark : Str} {front front' rest rest' : List Str}
    (hfront : ∀ line ∈ front, class_ line = mark) (hfront' : ∀ line ∈ front', class_ line = mark)
    (hrest : ∀ line ∈ rest, class_ line ≠ mark) (hrest' : ∀ line ∈ rest', class_ line ≠ mark)
    (h : front ++ rest = front' ++ rest') : front = front' ∧ rest = rest' := by
  have hfilter := congrArg (List.filter fun line => class_ line == mark) h
  have hall : ∀ {lines : List Str}, (∀ line ∈ lines, class_ line = mark) →
      lines.filter (fun line => class_ line == mark) = lines := by
    intro lines hlines
    rw [filter_eq_self]
    intro line hline
    exact beq_iff_eq.mpr (hlines line hline)
  have hnone : ∀ {lines : List Str}, (∀ line ∈ lines, class_ line ≠ mark) →
      lines.filter (fun line => class_ line == mark) = [] := by
    intro lines hlines
    rw [filter_eq_nil_iff]
    intro line hline
    rw [beq_iff_eq]
    exact hlines line hline
  rw [filter_append, filter_append, hall hfront, hall hfront', hnone hrest,
    hnone hrest', append_nil, append_nil] at hfilter
  subst hfilter
  exact ⟨rfl, append_cancel_left h⟩

theorem numberedLines_injective (name : String) : Function.Injective (numberedLines name) := by
  intro values
  have hoffset : ∀ (values values' : List Str) (start : ℕ),
      (values.zipIdx start).map (fun entry => name.toList ++ decimal entry.2 ++ '=' :: entry.1) =
        (values'.zipIdx start).map (fun entry =>
          name.toList ++ decimal entry.2 ++ '=' :: entry.1) → values = values' := by
    intro values
    induction values with
    | nil =>
        intro values' start h
        cases values' with
        | nil => rfl
        | cons value' values' => simp at h
    | cons value values ih =>
        intro values' start h
        cases values' with
        | nil => simp at h
        | cons value' values' =>
            rw [zipIdx_cons, zipIdx_cons, map_cons, map_cons,
              List.cons.injEq] at h
            obtain ⟨hvalue, hrest⟩ := h
            obtain rfl := (List.cons.inj (append_cancel_left hvalue)).2
            rw [ih values' (start + 1) hrest]
  intro values' h
  exact hoffset values values' 0 h

/-- The parts of a claim that its lines hold. -/
def claimParts (claim : ConnectedClaim) : Str × Str := (claim.id, claim.text)

theorem claimLines_inj {claim claim' : ConnectedClaim} (h : validId claim.id = true)
    (h' : validId claim'.id = true) (heq : claimLines claim = claimLines claim') :
    claimParts claim = claimParts claim' := by
  rw [claimLines, claimLines, List.cons.injEq, List.cons.injEq] at heq
  obtain ⟨hid, htext, _⟩ := heq
  have hplain : ∀ {id : Str}, validId id = true → '=' ∉ "claim.".toList ++ id ++ ".id".toList := by
    intro id hid
    simp only [mem_append, not_or]
    exact ⟨⟨by decide, not_mem_of_validId hid '=' (by decide)⟩, by decide⟩
  have hsplit : ∀ id : Str, "claim.".toList ++ id ++ ".id=".toList ++ id =
      ("claim.".toList ++ id ++ ".id".toList) ++ '=' :: id := by
    intro id
    simp
  rw [hsplit, hsplit] at hid
  obtain ⟨_, hid⟩ := append_cons_inj (hplain h) (hplain h') hid
  rw [hid] at htext
  rw [claimParts, claimParts, hid, append_cancel_left htext]

theorem flatMap_claimLines_inj {claims claims' : List ConnectedClaim}
    (h : ∀ claim ∈ claims, validId claim.id = true)
    (h' : ∀ claim ∈ claims', validId claim.id = true)
    (heq : claims.flatMap claimLines = claims'.flatMap claimLines) :
    claims.map claimParts = claims'.map claimParts := by
  induction claims generalizing claims' with
  | nil =>
      cases claims' with
      | nil => rfl
      | cons claim' claims' => cases heq
  | cons claim claims ih =>
      cases claims' with
      | nil => cases heq
      | cons claim' claims' =>
          rw [forall_mem_cons] at h h'
          rw [flatMap_cons, flatMap_cons] at heq
          obtain ⟨hlines, hrest⟩ := List.append_inj heq rfl
          rw [map_cons, map_cons, claimLines_inj h.1 h'.1 hlines, ih h.2 h'.2 hrest]

theorem barred_cons (value second : Str) (rest : List Str) :
    barred (value :: second :: rest) = value ++ '|' :: barred (second :: rest) := by
  rw [barred, barred, join, join, intercalate_cons_cons]
  simp

/-- A field without the separator is read off a record. -/
theorem barred_inj {value value' second second' : Str} {rest rest' : List Str}
    (hvalue : '|' ∉ value) (hvalue' : '|' ∉ value')
    (h : barred (value :: second :: rest) = barred (value' :: second' :: rest')) :
    value = value' ∧ barred (second :: rest) = barred (second' :: rest') := by
  rw [barred_cons, barred_cons] at h
  exact append_cons_inj hvalue hvalue' h

theorem citationLine_inj (haddressable : Addressable packet) {citation citation' : ConnectedCitation}
    (h : WellFormedCitation citation) (h' : WellFormedCitation citation')
    (hnames : NamesItem packet citation.nodeId citation.locator citation.contentDigest)
    (hnames' : NamesItem packet citation'.nodeId citation'.locator citation'.contentDigest)
    (heq : citationLine citation = citationLine citation') : citation = citation' := by
  have hplain : ∀ {id : Str}, validId id = true → '=' ∉ "citation.".toList ++ id := by
    intro id hid
    rw [mem_append, not_or]
    exact ⟨by decide, not_mem_of_validId hid '=' (by decide)⟩
  have hbar : ∀ {id : Str}, validId id = true → '|' ∉ id := fun hid =>
    not_mem_of_validId hid '|' (by decide)
  unfold citationLine at heq
  obtain ⟨_, hfields⟩ := append_cons_inj (hplain h.id) (hplain h'.id) heq
  obtain ⟨hid, hfields⟩ := barred_inj (hbar h.id) (hbar h'.id) hfields
  obtain ⟨hclaim, hfields⟩ := barred_inj (hbar h.claimId) (hbar h'.claimId) hfields
  obtain ⟨hnode, _⟩ := barred_inj (hnames.plain haddressable) (hnames'.plain haddressable) hfields
  -- the locator may hold separators, but the node determines it
  rw [← hnode] at hnames'
  obtain ⟨hlocator, hdigest⟩ := hnames.unique haddressable hnames'
  cases citation
  cases citation'
  simp only at hid hclaim hnode hlocator hdigest
  rw [hid, hclaim, hnode, hlocator, hdigest]

theorem usageText_inj (haddressable : Addressable packet) {usage usage' : ConnectedUsage}
    (h : WellFormedUsage usage) (h' : WellFormedUsage usage')
    (hnames : NamesItem packet usage.nodeId usage.locator usage.contentDigest)
    (hnames' : NamesItem packet usage'.nodeId usage'.locator usage'.contentDigest)
    (heq : usageText usage = usageText usage') : usage = usage' := by
  have hplain : ∀ {id : Str}, validId id = true → '=' ∉ "usage.".toList ++ id := by
    intro id hid
    rw [mem_append, not_or]
    exact ⟨by decide, not_mem_of_validId hid '=' (by decide)⟩
  have hbar : ∀ {id : Str}, validId id = true → '|' ∉ id := fun hid =>
    not_mem_of_validId hid '|' (by decide)
  unfold usageText at heq
  obtain ⟨_, hfields⟩ := append_cons_inj (hplain h.id) (hplain h'.id) heq
  obtain ⟨hid, hfields⟩ := barred_inj (hbar h.id) (hbar h'.id) hfields
  obtain ⟨hnode, hfields⟩ :=
    barred_inj (hnames.plain haddressable) (hnames'.plain haddressable) hfields
  rw [← hnode] at hnames'
  obtain ⟨hlocator, hdigest⟩ := hnames.unique haddressable hnames'
  rw [hlocator, hdigest, barred_cons, barred_cons, barred_cons, barred_cons] at hfields
  have hsupport := (List.cons.inj (append_cancel_left hfields)).2
  have hsupport := (List.cons.inj (append_cancel_left hsupport)).2
  cases usage
  cases usage'
  simp only [barred, join, intercalate_singleton] at hid hnode hlocator hdigest hsupport
  rw [hid, hnode, hlocator, hdigest, hsupport]

/-- A list is read off the list of its lines. -/
theorem map_inj_of {α β : Type} {f : α → β} {P : α → Prop}
    (hf : ∀ entry entry', P entry → P entry' → f entry = f entry' → entry = entry')
    {entries entries' : List α} (h : ∀ entry ∈ entries, P entry)
    (h' : ∀ entry ∈ entries', P entry) (heq : entries.map f = entries'.map f) :
    entries = entries' := by
  induction entries generalizing entries' with
  | nil => exact (map_eq_nil_iff.mp heq.symm).symm
  | cons entry rest ih =>
      cases entries' with
      | nil => cases heq
      | cons entry' rest' =>
          rw [forall_mem_cons] at h h'
          rw [map_cons, map_cons, List.cons.injEq] at heq
          rw [hf entry entry' h.1 h'.1 heq.1, ih h.2 h'.2 heq.2]

/-- The first two letters tell the lines of a response apart. -/
def lineClass (line : Str) : Str := line.take 2

theorem lineClass_append {start : Str} (h : 2 ≤ start.length) (rest : Str) :
    lineClass (start ++ rest) = start.take 2 := take_append_of_le_length h

theorem lineClass_numberedLines {name : String} (hname : 2 ≤ name.toList.length)
    (values : List Str) : ∀ line ∈ numberedLines name values,
      lineClass line = name.toList.take 2 := by
  intro line hline
  obtain ⟨entry, _, rfl⟩ := mem_map.mp hline
  rw [append_assoc]
  exact lineClass_append hname _

theorem lineClass_claims (claims : List ConnectedClaim) : ∀ line ∈ claims.flatMap claimLines,
    lineClass line = "cl".toList := by
  intro line hline
  obtain ⟨claim, _, hline⟩ := mem_flatMap.mp hline
  simp only [claimLines, mem_cons, not_mem_nil, or_false] at hline
  rcases hline with rfl | rfl
  · rw [append_assoc, append_assoc]
    exact lineClass_append (by decide) _
  · rw [append_assoc, append_assoc]
    exact lineClass_append (by decide) _

theorem lineClass_citations (citations : List ConnectedCitation) :
    ∀ line ∈ citations.map citationLine, lineClass line = "ci".toList := by
  intro line hline
  obtain ⟨citation, _, rfl⟩ := mem_map.mp hline
  unfold citationLine
  rw [append_assoc]
  exact lineClass_append (by decide) _

/-- The parts of a response that its canonical text determines. -/
structure SameReading (first second : ConnectedResponse) : Prop where
  claims : first.claims.map claimParts = second.claims.map claimParts
  citations : first.citations = second.citations
  conflicts : first.conflicts = second.conflicts
  missingEvidence : first.missingEvidence = second.missingEvidence
  tokenUsage : first.tokenUsage = second.tokenUsage
  resultId : first.resultId = second.resultId

variable {first second : ConnectedResponse}

theorem frontLines_inj (h : frontLines first = frontLines second) :
    first.conflicts = second.conflicts ∧ first.missingEvidence = second.missingEvidence ∧
      first.claims.flatMap claimLines = second.claims.flatMap claimLines ∧
      first.citations.map citationLine = second.citations.map citationLine := by
  have hconflicts := @lineClass_numberedLines "conflict." (by decide)
  have hmissing := @lineClass_numberedLines "missing." (by decide)
  have hrest : ∀ {front rest : List Str} {mark mark' : Str},
      (∀ line ∈ front, lineClass line = mark') → mark' ≠ mark →
      (∀ line ∈ rest, lineClass line ≠ mark) →
      ∀ line ∈ front ++ rest, lineClass line ≠ mark := by
    intro front rest mark mark' hfront hmark hrest line hline
    rcases mem_append.mp hline with hline | hline
    · rw [hfront line hline]
      exact hmark
    · exact hrest line hline
  have hcitations : ∀ (citations : List ConnectedCitation) (mark : Str), "ci".toList ≠ mark →
      ∀ line ∈ citations.map citationLine, lineClass line ≠ mark := by
    intro citations mark hmark line hline
    rw [lineClass_citations citations line hline]
    exact hmark
  rw [frontLines, frontLines, append_assoc, append_assoc, append_assoc,
    append_assoc] at h
  obtain ⟨hconflict, h⟩ := append_inj_of_class (hconflicts _) (hconflicts _)
    (hrest (hmissing _) (by decide) (hrest (lineClass_claims _) (by decide)
      (hcitations _ _ (by decide))))
    (hrest (hmissing _) (by decide) (hrest (lineClass_claims _) (by decide)
      (hcitations _ _ (by decide)))) h
  obtain ⟨hmiss, h⟩ := append_inj_of_class (hmissing _) (hmissing _)
    (hrest (lineClass_claims _) (by decide) (hcitations _ _ (by decide)))
    (hrest (lineClass_claims _) (by decide) (hcitations _ _ (by decide))) h
  obtain ⟨hclaims, h⟩ := append_inj_of_class (lineClass_claims _) (lineClass_claims _)
    (hcitations _ _ (by decide)) (hcitations _ _ (by decide)) h
  exact ⟨numberedLines_injective _ hconflict, numberedLines_injective _ hmiss, hclaims, h⟩

theorem optionalUsize_injective : Function.Injective optionalUsize := by
  have hdigit : ∀ n : ℕ, "unavailable".toList ≠ decimal n := by
    intro n h
    have hmem : 'u' ∈ decimal n := by
      rw [← h]
      decide
    exact not_mem_decimal (by decide) n hmem
  intro first second h
  cases first with
  | none =>
      cases second with
      | none => rfl
      | some n => exact absurd h (hdigit n)
  | some n =>
      cases second with
      | none => exact absurd h.symm (hdigit n)
      | some m => rw [Encoding.decimal_injective h]

theorem newline_not_mem_optionalUsize (value : Option ℕ) : '\n' ∉ optionalUsize value := by
  cases value with
  | none => decide
  | some n => exact not_mem_decimal (by decide) n

/-- The text of an optional identity. -/
def resultText (resultId : Option ResultId) : Str :=
  (resultId.map ResultId.value).getD "unavailable".toList

theorem resultText_injective : Function.Injective resultText := by
  have hhex : ∀ id : ResultId, "unavailable".toList ≠ id.value := by
    intro id h
    have hmem : 'u' ∈ id.value := by
      rw [← h]
      decide
    exact not_mem_of_isDigest id.valid 'u' (by decide) hmem
  intro first second h
  cases first with
  | none =>
      cases second with
      | none => rfl
      | some id => exact absurd h (hhex id)
  | some id =>
      cases second with
      | none => exact absurd h.symm (hhex id)
      | some id' =>
          cases id
          cases id'
          obtain rfl : _ = _ := h
          rfl

theorem newline_not_mem_resultText (resultId : Option ResultId) : '\n' ∉ resultText resultId := by
  cases resultId with
  | none => decide
  | some id => exact not_mem_of_isDigest id.valid '\n' (by decide)

theorem getLast?_flatMap_writeLine {text : Str} (h : text.getLast? = some '\n')
    (lines : List Str) : (text ++ lines.flatMap writeLine).getLast? = some '\n' := by
  induction lines generalizing text with
  | nil => rwa [flatMap_nil, append_nil]
  | cons line rest ih =>
      rw [flatMap_cons, ← append_assoc]
      exact ih (by simp [writeLine])

theorem packetText_getLast? (packet : StructuralPacket) :
    (packetText packet).getLast? = some '\n' := by
  have hended : ∀ text line : Str, (text ++ writeLine line).getLast? = some '\n' := by
    intro text line
    rw [writeLine, ← append_assoc, getLast?_concat]
  exact hended _ _

/-- The closing lines are read off the end of a text. -/
theorem closingLines_inj {front front' : Str} (hfront : front.getLast? = some '\n')
    (hfront' : front'.getLast? = some '\n') (h : front ++ (closingLines first).flatMap writeLine =
    front' ++ (closingLines second).flatMap writeLine) :
    front = front' ∧ first.tokenUsage = second.tokenUsage ∧ first.resultId = second.resultId := by
  have hlines : ∀ (text : Str) (response : ConnectedResponse),
      text ++ (closingLines response).flatMap writeLine =
        ((text ++ (("actual-input-tokens=".toList ++
            optionalUsize response.tokenUsage.actualInputTokens) ++ ['\n'])) ++
          (("actual-output-tokens=".toList ++
            optionalUsize response.tokenUsage.actualOutputTokens) ++ ['\n'])) ++
          (("result-id=".toList ++ resultText response.resultId) ++ ['\n']) := by
    intro text response
    rw [closingLines]
    simp only [flatMap_cons, flatMap_nil, append_nil, writeLine, resultText,
      append_assoc]
  have hclosed : ∀ {start rest : Str}, '\n' ∉ start → '\n' ∉ rest → '\n' ∉ start ++ rest := by
    intro start rest hstart hrest hmem
    rcases mem_append.mp hmem with hmem | hmem
    · exact hstart hmem
    · exact hrest hmem
  have hended : ∀ text line : Str, (text ++ (line ++ ['\n'])).getLast? = some '\n' := by
    intro text line
    simp
  have htokens : ∀ {start : Str} (value : Option ℕ), '\n' ∉ start →
      '\n' ∉ start ++ optionalUsize value := fun value hstart =>
    hclosed hstart (newline_not_mem_optionalUsize value)
  rw [hlines, hlines] at h
  obtain ⟨h, hid⟩ := append_line_inj (hclosed (by decide) (newline_not_mem_resultText _))
    (hclosed (by decide) (newline_not_mem_resultText _)) (hended _ _) (hended _ _) h
  obtain ⟨h, houtput⟩ := append_line_inj (htokens _ (by decide)) (htokens _ (by decide))
    (hended _ _) (hended _ _) h
  obtain ⟨h, hinput⟩ := append_line_inj (htokens _ (by decide)) (htokens _ (by decide)) hfront
    hfront' h
  have hinput := optionalUsize_injective (append_cancel_left hinput)
  have houtput := optionalUsize_injective (append_cancel_left houtput)
  refine ⟨h, ?_, resultText_injective (append_cancel_left hid)⟩
  cases hfirst : first.tokenUsage
  cases hsecond : second.tokenUsage
  rw [hfirst, hsecond] at hinput houtput
  rw [ProviderTokenUsage.mk.injEq]
  exact ⟨hinput, houtput⟩

theorem usagesText_head (usages : List ConnectedUsage) :
    (usagesText usages).head?.any frontLetter = false := by
  cases usages with
  | nil => rfl
  | cons usage rest =>
      rw [usagesText, map_cons, flatMap_cons]
      unfold writeLine usageText
      rfl

/-- The canonical text determines a response up to its usages, and the text of those. -/
theorem canonical_inj (haddressable : Addressable packet) (hfirst : Grounded packet first)
    (hsecond : Grounded packet second) (h : canonical packet first = canonical packet second) :
    SameReading first second ∧ usagesText first.usages = usagesText second.usages := by
  have hended : ∀ response : ConnectedResponse, (packetText packet ++
      ((frontLines response).flatMap writeLine ++ usagesText response.usages)).getLast? =
        some '\n' := by
    intro response
    rw [usagesText, ← flatMap_append]
    exact getLast?_flatMap_writeLine (packetText_getLast? packet) _
  have htext := bytes_injective h
  rw [canonicalText_eq, canonicalText_eq] at htext
  obtain ⟨hbody, htokens, hresult⟩ := closingLines_inj (hended first) (hended second) htext
  obtain ⟨hfront, husages⟩ := flatMap_lines_inj (frontLines_closed hfirst)
    (frontLines_closed hsecond) (usagesText_head _) (usagesText_head _)
    (append_cancel_left hbody)
  obtain ⟨hconflicts, hmissing, hclaims, hcitations⟩ := frontLines_inj hfront
  refine ⟨⟨?_, ?_, hconflicts, hmissing, htokens, hresult⟩, husages⟩
  · exact flatMap_claimLines_inj (fun claim hclaim => (hfirst.claims claim hclaim).1)
      (fun claim hclaim => (hsecond.claims claim hclaim).1) hclaims
  · refine map_inj_of (P := fun citation => WellFormedCitation citation ∧
      NamesItem packet citation.nodeId citation.locator citation.contentDigest)
      (fun _ _ hentry hentry' => citationLine_inj haddressable hentry.1 hentry'.1 hentry.2 hentry'.2)
      (fun citation hmem => ?_) (fun citation hmem => ?_) hcitations
    · exact ⟨hfirst.citations citation hmem, (hfirst.cites citation hmem).1⟩
    · exact ⟨hsecond.citations citation hmem, (hsecond.cites citation hmem).1⟩

/-- No support holds a line that starts like a usage. -/
def PlainSupports (response : ConnectedResponse) : Prop :=
  ∀ usage ∈ response.usages, ¬ '\n' :: "usage.".toList <:+: usage.support

theorem usageText_closed {usage : ConnectedUsage} (h : WellFormedUsage usage)
    (hsupport : ¬ '\n' :: "usage.".toList <:+: usage.support) :
    "usage.".toList <+: usageText usage ∧ ¬ '\n' :: "usage.".toList <:+: usageText usage := by
  have hheader : ∃ header, '\n' ∉ header ∧ usageText usage = header ++ usage.support := by
    refine ⟨"usage.".toList ++ usage.id ++ '=' :: (usage.id ++ '|' :: (usage.nodeId ++
      '|' :: (usage.locator ++ '|' :: (usage.contentDigest ++ ['|'])))), ?_, ?_⟩
    · have hid := not_mem_of_validId h.id '\n' (by decide)
      simp only [mem_append, mem_cons, not_mem_nil, or_false, not_or]
      exact ⟨⟨by decide, hid⟩, by decide, hid, by decide, newline_not_mem_of_validField h.nodeId,
        by decide, newline_not_mem_of_validField h.locator, by decide,
        not_mem_of_isDigest h.contentDigest '\n' (by decide), by decide⟩
    · unfold usageText
      rw [barred_cons, barred_cons, barred_cons, barred_cons]
      simp [barred, join]
  obtain ⟨header, hplain, htext⟩ := hheader
  refine ⟨?_, ?_⟩
  · unfold usageText
    rw [append_assoc]
    exact prefix_append _ _
  · intro hinfix
    obtain ⟨before, after, heq⟩ := hinfix
    rw [htext, append_assoc, append_eq_append_iff] at heq
    rcases heq with ⟨more, hheader, htail⟩ | ⟨more, hbefore, htail⟩
    · -- the line break lies in the support, since the header has none
      cases more with
      | nil =>
          rw [nil_append] at htail
          exact hsupport ⟨[], after, by rw [nil_append]; exact htail⟩
      | cons c more =>
          rw [cons_append, cons_append, List.cons.injEq] at htail
          rw [← htail.1] at hheader
          rw [hheader] at hplain
          exact hplain (mem_append_right _ mem_cons_self)
    · exact hsupport ⟨more, after, by rw [append_assoc]; exact htail.symm⟩

/-- Without such lines the usages are determined, too. -/
theorem usages_inj (haddressable : Addressable packet) (hfirst : Grounded packet first)
    (hsecond : Grounded packet second) (hplain : PlainSupports first)
    (hplain' : PlainSupports second) (h : usagesText first.usages = usagesText second.usages) :
    first.usages = second.usages := by
  have hblocks : ∀ {response : ConnectedResponse}, Grounded packet response →
      PlainSupports response → ∀ block ∈ response.usages.map usageText,
        "usage.".toList <+: block ∧ ¬ '\n' :: "usage.".toList <:+: block := by
    intro response hgrounded hplain block hblock
    obtain ⟨usage, husage, rfl⟩ := mem_map.mp hblock
    exact usageText_closed (hgrounded.usages usage husage) (hplain usage husage)
  have htexts := flatMap_blocks_inj (by decide) (hblocks hfirst hplain) (hblocks hsecond hplain') h
  refine map_inj_of (P := fun usage => WellFormedUsage usage ∧
    NamesItem packet usage.nodeId usage.locator usage.contentDigest)
    (fun _ _ hentry hentry' => usageText_inj haddressable hentry.1 hentry'.1 hentry.2 hentry'.2)
    (fun usage hmem => ?_) (fun usage hmem => ?_) htexts
  · exact ⟨hfirst.usages usage hmem, hfirst.uses usage hmem⟩
  · exact ⟨hsecond.usages usage hmem, hsecond.uses usage hmem⟩

end Bran.Adapters
