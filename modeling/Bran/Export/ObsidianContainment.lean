import Bran.Export.ObsidianReparse
import Bran.Library.Fences

/-!
# What an exported bundle holds

The export succeeds exactly on inputs whose nodes and edges pass checks that do not look at their
order, and it sorts what it writes by keys that do not repeat: the order of the input is lost.  Every
string is checked before it is escaped and joined to others.  The words of the policy consist of
letters, digits and underscores, and everything that the export puts between two strings or in front
of an escaped letter is none of these, so that a document holds such a word only where one of its
strings does.
-/

namespace Bran.Export

open Text Validation Graph Words Fences List OrdMap

/-! ## The order of the input -/

section Order

variable {nodes nodes' : List ExportNode} {edges edges' : List ExportEdge}

theorem nodePathsOf_eq_of_perm (hnodes : nodes'.Perm nodes)
    (hids : (nodes.map ExportNode.id).Nodup) : nodePathsOf nodes' = nodePathsOf nodes := by
  have hkeys : ∀ all : List ExportNode, (all.map fun node => (node.id, node.path)).map Prod.fst =
      all.map ExportNode.id := fun all => map_map
  have hids' : (nodes'.map ExportNode.id).Nodup := (hnodes.map _).nodup_iff.mpr hids
  refine ext_find? fun id => Option.ext fun path => ?_
  rw [nodePathsOf, nodePathsOf, find?_ofList (by rw [hkeys]; exact hids'),
    find?_ofList (by rw [hkeys]; exact hids)]
  exact (hnodes.map _).mem_iff

theorem Exportable.perm (h : Exportable nodes edges) (hnodes : nodes'.Perm nodes)
    (hedges : edges'.Perm edges) : Exportable nodes' edges' where
  checkedNodes := fun node hnode => h.checkedNodes node (hnodes.mem_iff.mp hnode)
  ids := (hnodes.map _).nodup_iff.mpr h.ids
  paths := (hnodes.map _).nodup_iff.mpr h.paths
  checkedEdges := by
    rw [nodePathsOf_eq_of_perm hnodes h.ids]
    exact fun edge hedge => h.checkedEdges edge (hedges.mem_iff.mp hedge)
  edgeIds := (hedges.map _).nodup_iff.mpr h.edgeIds

theorem bundleEntries_eq_of_perm (h : Exportable nodes edges) (hnodes : nodes'.Perm nodes)
    (hedges : edges'.Perm edges) : bundleEntries nodes' edges' = bundleEntries nodes edges := by
  rw [bundleEntries, sortBy_eq_of_perm hnodes ((hnodes.map _).nodup_iff.mpr h.paths),
    sortBy_eq_of_perm hedges ((hedges.map _).nodup_iff.mpr h.edgeIds), bundleEntries]

end Order

/-! ## The paths of the documents -/

/-- A path that stays below the root of the bundle. -/
structure RootRelative (path : Str) : Prop where
  relative : path.head? ≠ some '/'
  slashes : '\\' ∉ path
  segments : ∀ segment ∈ path.splitOn '/', segment ≠ [] ∧ segment ≠ ['.'] ∧ segment ≠ ['.', '.']

theorem rootRelative_of_validated {path : Str} (h : validateRootBoundPath path = .ok ()) :
    RootRelative path := by
  obtain ⟨hshape, _⟩ := check_bind_eq_ok_iff.mp h
  rw [failIf_eq_ok_iff] at hshape
  simp only [not_or] at hshape
  obtain ⟨_, hrelative, hslashes, _, _, _, hsegments⟩ := hshape
  refine ⟨hrelative, hslashes, fun segment hsegment => ?_⟩
  rw [any_eq_true, not_exists] at hsegments
  have hdot := hsegments segment
  rw [not_and, dotSegment] at hdot
  have hdot := hdot hsegment
  simp only [Bool.or_eq_true, List.isEmpty_iff, decide_eq_true_eq, not_or] at hdot
  exact ⟨hdot.1.1, hdot.1.2, hdot.2⟩

theorem rootRelative_graphPath : RootRelative graphPath := by
  refine ⟨by decide, by decide, ?_⟩
  decide

/-- The documents are those of the nodes and the one of the graph. -/
theorem keys_bundle {nodes : List ExportNode} {edges : List ExportEdge}
    (h : Exportable nodes edges) : (OrdMap.ofList (bundleEntries nodes edges)).keys.Perm
      (nodes.map ExportNode.path ++ [graphPath]) := by
  have hentries := (entries_ofList_perm (nodup_bundleEntries h)).map Prod.fst
  have hfst : (bundleEntries nodes edges).map Prod.fst =
      (sortBy ExportNode.path nodes).map ExportNode.path ++ [graphPath] := by
    rw [bundleEntries, map_append, map_map]
    rfl
  rw [hfst] at hentries
  exact hentries.trans (((sortBy_perm _ _).map _).append_right _)

/-! ## The links of a node -/

/-- The line of a link. -/
def wikilink (edge : ExportEdge) : Str := "[[".toList ++ edge.linkTarget ++ "]]".toList

/-- The edges that leave a node, in the order of their links. -/
def outgoing (node : ExportNode) (edges : List ExportEdge) : List ExportEdge :=
  sortBy ExportEdge.linkTarget (edges.filter fun edge => edge.source = node.id)

theorem linkLines_eq (node : ExportNode) (edges : List ExportEdge) :
    linkLines node edges = if outgoing node edges = [] then [] else
      '\n' :: ((outgoing node edges).map wikilink).flatMap (· ++ ['\n']) := by
  have hnil : outgoing node edges = [] ↔ (edges.filter fun edge => edge.source = node.id) = [] := by
    rw [outgoing, ← length_eq_zero_iff, length_sortBy, length_eq_zero_iff]
  rw [linkLines]
  by_cases hempty : (edges.filter fun edge => edge.source = node.id) = []
  · rw [if_pos hempty, if_pos (hnil.mpr hempty)]
  · rw [if_neg hempty, if_neg (fun h => hempty (hnil.mp h)), flatMap_map]
    refine congrArg _ (flatMap_congr fun edge _ => ?_)
    rw [wikilink, append_assoc _ _ ['\n']]
    rfl

/-- The lines of a document end in one link for each edge that leaves the node. -/
theorem lines_buildNodeMarkdown {node : ExportNode} {edges : List ExportEdge}
    (h : ∀ edge ∈ edges, EmittedEdge edge) : ∃ before,
      lines (buildNodeMarkdown node edges) = before ++ (outgoing node edges).map wikilink := by
  rw [buildNodeMarkdown, linkLines_eq]
  by_cases hempty : outgoing node edges = []
  · rw [hempty]
    exact ⟨_, (append_nil _).symm⟩
  · rw [if_neg hempty]
    have hline : ∀ line ∈ (outgoing node edges).map wikilink,
        '\n' ∉ line ∧ line.getLast? ≠ some '\r' := by
      intro line hline
      obtain ⟨edge, hedge, rfl⟩ := mem_map.mp hline
      have hmem : edge ∈ edges := (mem_filter.mp (mem_sortBy.mp hedge)).1
      have htarget := (visible_target (h edge hmem).link).1
      have hvisible : Visible (wikilink edge) := by
        have hopen : Visible "[[".toList := ⟨by decide, by decide⟩
        have hclose : Visible "]]".toList := ⟨by decide, by decide⟩
        exact (hopen.append htarget).append hclose
      exact ⟨hvisible.not_mem (by decide),
        fun hlast => hvisible.not_mem (c := '\r') (by decide) (mem_of_mem_getLast? hlast)⟩
    rw [← append_assoc, ← append_assoc, ← append_assoc, ← append_assoc,
      lines_append_cons, lines_flatMap hline]
    exact ⟨_, rfl⟩

/-! ## The words of the policy -/

/-- The words that no emitted string may hold. -/
def forbiddenWords : List Str := "important_boundary".toList :: lines publicBoundaryCanaryFixture

def wordChar (c : Char) : Bool := c.isAlphanum || c = '_'

/-- The letters that follow the backslash of an escape. -/
def escapeLetters : List Char := ['\\', '"', 'n', 'r', 't']

theorem forbiddenWords_spec : ∀ word ∈ forbiddenWords, word ≠ [] ∧
    (∀ c ∈ word, wordChar c = true) ∧ ∀ c ∈ word.head?, c = 'A' ∨ c = 'i' := by
  decide

/-- A text without these words. -/
def Clean (text : Str) : Prop := ∀ word ∈ forbiddenWords, ¬ word <:+: text

instance (text : Str) : Decidable (Clean text) :=
  inferInstanceAs (Decidable (∀ word ∈ forbiddenWords, ¬ word <:+: text))

theorem validateEmittedString_eq_ok_iff {value : Str} :
    validateEmittedString value = .ok () ↔ Clean value := by
  have hlines : ∀ line ∈ lines publicBoundaryCanaryFixture, line.isEmpty = false := by decide
  have hcanary : ¬ hasPublicBoundaryCanary value = true ↔
      ∀ line ∈ lines publicBoundaryCanaryFixture, ¬ line <:+: value := by
    rw [hasPublicBoundaryCanary, any_eq_true, not_exists]
    refine forall_congr' fun line => ?_
    rw [not_and]
    refine imp_congr_right fun hline => ?_
    rw [hlines line hline, containsStr, Bool.not_false, Bool.true_and, decide_eq_true_eq]
  rw [validateEmittedString, check_bind_eq_ok_iff, failIf_eq_ok_iff, failIf_eq_ok_iff, hcanary, Clean,
    forbiddenWords, forall_mem_cons, containsStr, decide_eq_true_eq, and_comm]

namespace Clean

theorem nil : Clean [] := by
  intro word hword hoccurs
  exact (forbiddenWords_spec word hword).1 (eq_nil_of_infix_nil hoccurs)

theorem mono {text longer : Str} (h : Clean longer) (hpart : text <:+: longer) : Clean text :=
  fun word hword hoccurs => h word hword (hoccurs.trans hpart)

/-- Two texts with other characters between them. -/
theorem fence {first rest : Str} (hfirst : Clean first) (between : Str) (hrest : Clean rest)
    (hne : between ≠ []) (hbetween : ∀ c ∈ between, wordChar c = false) :
    Clean (first ++ (between ++ rest)) := fun word hword =>
  not_infix_fence (forbiddenWords_spec word hword).2.1 hne hbetween (hfirst word hword)
    (hrest word hword)

/-- Characters of no word in front of a text. -/
theorem after {rest : Str} (hrest : Clean rest) (start : Str) (hne : start ≠ [])
    (hstart : ∀ c ∈ start, wordChar c = false) : Clean (start ++ rest) :=
  nil.fence start hrest hne hstart

/-- Lines in front of a text. -/
theorem flatMap_lines {α : Type*} {items : List α} {piece : α → Str} {rest : Str}
    (hpieces : ∀ item ∈ items, Clean (piece item)) (hrest : Clean rest) :
    Clean (items.flatMap (fun item => piece item ++ ['\n']) ++ rest) := fun word hword =>
  not_infix_flatMap (forbiddenWords_spec word hword).2.1 (by decide)
    (fun item hitem => hpieces item hitem word hword) (hrest word hword)

/-- A text without the first letters of the words. -/
theorem of_not_mem {text : Str} (hA : 'A' ∉ text) (hi : 'i' ∉ text) : Clean text := by
  intro word hword hoccurs
  obtain ⟨hne, _, hhead⟩ := forbiddenWords_spec word hword
  cases word with
  | nil => exact hne rfl
  | cons c word =>
      have hmem : c ∈ text := hoccurs.subset mem_cons_self
      rcases hhead c rfl with rfl | rfl
      · exact hA hmem
      · exact hi hmem

end Clean

theorem escapes_escapeChar : Escapes escapeChar '\\' escapeLetters := by
  intro c
  unfold escapeChar
  split_ifs
  · exact .inr ⟨'\\', by decide, rfl⟩
  · exact .inr ⟨'"', by decide, rfl⟩
  · exact .inr ⟨'n', by decide, rfl⟩
  · exact .inr ⟨'r', by decide, rfl⟩
  · exact .inr ⟨'t', by decide, rfl⟩
  · exact .inl rfl

/-- No escape forms a word, for none starts with the letter of an escape. -/
theorem clean_escapeForYaml {value : Str} (h : Clean value) : Clean (escapeForYaml value) := by
  intro word hword hoccurs
  obtain ⟨_, hchars, hhead⟩ := forbiddenWords_spec word hword
  rw [escapeForYaml_eq] at hoccurs
  refine h word hword (infix_of_infix_escape escapes_escapeChar ?_ ?_ hoccurs)
  · exact not_mem_of_class hchars (by decide)
  · intro c hc
    rcases hhead c hc with rfl | rfl <;> decide

theorem clean_decimal {start : Str} (hA : 'A' ∉ start) (hi : 'i' ∉ start) (n : ℕ) :
    Clean (start ++ decimal n) := by
  have hdigit : ∀ c ∈ decimal n, c.isDigit = true := fun c hc =>
    Nat.isDigit_of_mem_toDigits (by omega) (by omega) hc
  refine .of_not_mem (fun hmem => ?_) (fun hmem => ?_)
  · rcases mem_append.mp hmem with hmem | hmem
    · exact hA hmem
    · exact absurd (hdigit _ hmem) (by decide)
  · rcases mem_append.mp hmem with hmem | hmem
    · exact hi hmem
    · exact absurd (hdigit _ hmem) (by decide)

/-! ## The texts of the documents -/

/-- A node whose strings hold no word. -/
structure CleanNode (node : ExportNode) : Prop where
  id : Clean node.id.value
  path : Clean node.path
  body : Clean node.body
  frontmatter : ∀ entry ∈ node.frontmatter.entries, Clean entry.1 ∧ Clean entry.2

/-- An edge whose strings hold no word. -/
structure CleanEdge (edge : ExportEdge) : Prop where
  id : Clean edge.id.value
  source : Clean edge.source.value
  target : Clean edge.target.value
  linkTarget : Clean edge.linkTarget

variable {node : ExportNode} {edge : ExportEdge}

theorem CheckedNode.clean (h : CheckedNode node) : CleanNode node := by
  obtain ⟨hpath, hpolicy⟩ := check_bind_eq_ok_iff.mp h.policy
  obtain ⟨hbody, hpolicy⟩ := check_bind_eq_ok_iff.mp hpolicy
  obtain ⟨hentries, _⟩ := check_bind_eq_ok_iff.mp hpolicy
  refine ⟨validateEmittedString_eq_ok_iff.mp h.id, validateEmittedString_eq_ok_iff.mp hpath,
    validateEmittedString_eq_ok_iff.mp hbody, fun entry hentry => ?_⟩
  obtain ⟨hkey, hvalue⟩ := check_bind_eq_ok_iff.mp (forEach_eq_ok_iff.mp hentries entry hentry)
  exact ⟨validateEmittedString_eq_ok_iff.mp hkey, validateEmittedString_eq_ok_iff.mp hvalue⟩

theorem EmittedEdge.clean (h : EmittedEdge edge) : CleanEdge edge :=
  ⟨validateEmittedString_eq_ok_iff.mp h.id, validateEmittedString_eq_ok_iff.mp h.source,
    validateEmittedString_eq_ok_iff.mp h.target, validateEmittedString_eq_ok_iff.mp h.linkTarget⟩

theorem clean_entryLine {entry : Str × Str} (hkey : Clean entry.1) (hvalue : Clean entry.2) :
    Clean (entryLine entry) := by
  have hquoted : Clean (escapeForYaml entry.2 ++ (['"'] ++ [])) :=
    (clean_escapeForYaml hvalue).fence ['"'] .nil (by decide) (by decide)
  have hline : Clean (entry.1 ++ (": \"".toList ++ (escapeForYaml entry.2 ++ (['"'] ++ [])))) :=
    hkey.fence ": \"".toList hquoted (by decide) (by decide)
  exact hline

theorem CleanNode.effective (h : CleanNode node) :
    ∀ entry ∈ (effective node).entries, Clean (entryLine entry) := by
  intro entry hentry
  rw [Export.effective] at hentry
  split_ifs at hentry
  · exact clean_entryLine (h.frontmatter entry hentry).1 (h.frontmatter entry hentry).2
  · have hfind := mem_entries_iff.mp hentry
    rw [find?_insert] at hfind
    split_ifs at hfind with hkey
    · have hvalue := Option.some.inj hfind
      refine clean_entryLine ?_ ?_
      · rw [← hkey]
        decide
      · rw [← hvalue]
        exact h.id
    · have hold := h.frontmatter entry (mem_entries_iff.mpr hfind)
      exact clean_entryLine hold.1 hold.2

theorem clean_wikilink (h : CleanEdge edge) : Clean (wikilink edge) := by
  have hclosed : Clean (edge.linkTarget ++ ("]]".toList ++ [])) :=
    h.linkTarget.fence "]]".toList .nil (by decide) (by decide)
  have hopen : Clean ("[[".toList ++ (edge.linkTarget ++ ("]]".toList ++ []))) :=
    hclosed.after "[[".toList (by decide) (by decide)
  rwa [append_nil, ← append_assoc] at hopen

/-- The links, behind the line feed of a body that lacks one. -/
theorem clean_linkLines {node : ExportNode} {edges : List ExportEdge}
    (h : ∀ edge ∈ edges, CleanEdge edge) :
    linkLines node edges = [] ∨ ∃ rest, linkLines node edges = '\n' :: rest ∧ Clean rest := by
  rw [linkLines_eq]
  split_ifs with hempty
  · exact .inl rfl
  · refine .inr ⟨_, rfl, ?_⟩
    rw [flatMap_map, ← append_nil (List.flatMap _ _)]
    refine Clean.flatMap_lines (fun edge hedge => clean_wikilink (h edge ?_)) .nil
    exact (mem_filter.mp (mem_sortBy.mp hedge)).1

theorem clean_buildNodeMarkdown {edges : List ExportEdge} (hnode : CleanNode node)
    (hedges : ∀ edge ∈ edges, CleanEdge edge) : Clean (buildNodeMarkdown node edges) := by
  have hlinks : Clean (linkLines node edges) := by
    rcases @clean_linkLines node edges hedges with hnil | ⟨rest, hrest, hclean⟩
    · rw [hnil]
      exact .nil
    · rw [hrest]
      exact hclean.after ['\n'] (by decide) (by decide)
  have hbody : Clean (node.body ++
      ((if node.body.getLast? ≠ some '\n' ∧ node.body ≠ [] then ['\n'] else []) ++
        linkLines node edges)) := by
    split_ifs
    · exact hnode.body.fence ['\n'] hlinks (by decide) (by decide)
    · rcases @clean_linkLines node edges hedges with hnil | ⟨rest, hrest, hclean⟩
      · rw [hnil, append_nil, append_nil]
        exact hnode.body
      · rw [hrest]
        exact hnode.body.fence ['\n'] hclean (by decide) (by decide)
  refine Clean.after ?_ "---\n".toList (by decide) (by decide)
  exact Clean.flatMap_lines hnode.effective (hbody.after "---\n".toList (by decide) (by decide))

theorem clean_edgeRecord (h : CleanEdge edge) : Clean (edgeRecord edge) := by
  have htarget : Clean (edge.target.value ++ (['|'] ++ edge.linkTarget)) :=
    h.target.fence ['|'] h.linkTarget (by decide) (by decide)
  have hsource : Clean (edge.source.value ++ (['|'] ++ (edge.target.value ++
      (['|'] ++ edge.linkTarget)))) := h.source.fence ['|'] htarget (by decide) (by decide)
  exact h.id.fence ['|'] hsource (by decide) (by decide)

theorem clean_graphEntries {nodes : List ExportNode} {edges : List ExportEdge}
    (h : ∀ edge ∈ edges, CleanEdge edge) :
    ∀ entry ∈ graphEntries nodes edges, Clean entry.1 ∧ Clean entry.2 := by
  have hdecimal : ∀ n, Clean (decimal n) := fun n =>
    @clean_decimal [] not_mem_nil not_mem_nil n
  have htype : Clean "bran_type".toList := by decide
  have hgraph : Clean "graph-representation".toList := by decide
  have hnodes : Clean "bran_node_count".toList := by decide
  have hedges : Clean "bran_edge_count".toList := by decide
  intro entry hentry
  simp only [graphEntries, mem_cons] at hentry
  rcases hentry with rfl | rfl | rfl | hentry
  · exact ⟨htype, hgraph⟩
  · exact ⟨hnodes, hdecimal _⟩
  · exact ⟨hedges, hdecimal _⟩
  · obtain ⟨n, edge, _, hedge, rfl⟩ := mem_edgeEntries hentry
    exact ⟨clean_decimal (by decide) (by decide) n, clean_edgeRecord (h edge hedge)⟩

theorem clean_nodeLink (h : CleanNode node) :
    Clean ("- [[".toList ++ (stripEnd ".md".toList node.path).getD node.path ++
      "]] (id: ".toList ++ node.id.value ++ ")".toList) := by
  have hlink : Clean ((stripEnd ".md".toList node.path).getD node.path) := by
    refine h.path.mono ?_
    cases hstrip : stripEnd ".md".toList node.path with
    | none => exact infix_rfl
    | some link =>
        have hpath : link ++ ".md".toList = node.path :=
          isSuffixOf?_eq_some_iff_append_eq.mp hstrip
        exact ⟨[], ".md".toList, by rw [nil_append]; exact hpath⟩
  have hkey : Clean "id".toList := by decide
  have hid : Clean ("id".toList ++ (": ".toList ++ (node.id.value ++ (")".toList ++ [])))) :=
    hkey.fence ": ".toList (h.id.fence ")".toList .nil (by decide) (by decide)) (by decide)
      (by decide)
  have hline : Clean ("- [[".toList ++ ((stripEnd ".md".toList node.path).getD node.path ++
      ("]] (".toList ++ ("id".toList ++ (": ".toList ++ (node.id.value ++ (")".toList ++ []))))))) :=
    (hlink.fence "]] (".toList hid (by decide) (by decide)).after "- [[".toList (by decide)
      (by decide)
  simpa using hline

theorem clean_edgeLink (h : CleanEdge edge) :
    Clean ("- ".toList ++ edge.id.value ++ ": ".toList ++ edge.source.value ++ " -> [[".toList ++
      edge.linkTarget ++ "]]".toList) := by
  have hlink : Clean (edge.linkTarget ++ ("]]".toList ++ [])) :=
    h.linkTarget.fence "]]".toList .nil (by decide) (by decide)
  have hsource : Clean (edge.source.value ++ (" -> [[".toList ++ (edge.linkTarget ++
      ("]]".toList ++ [])))) := h.source.fence " -> [[".toList hlink (by decide) (by decide)
  have hline : Clean ("- ".toList ++ (edge.id.value ++ (": ".toList ++ (edge.source.value ++
      (" -> [[".toList ++ (edge.linkTarget ++ ("]]".toList ++ []))))))) :=
    (h.id.fence ": ".toList hsource (by decide) (by decide)).after "- ".toList (by decide)
      (by decide)
  simpa using hline

theorem clean_buildGraphMarkdown {nodes : List ExportNode} {edges : List ExportEdge}
    (hnodes : ∀ node ∈ nodes, CleanNode node) (hedges : ∀ edge ∈ edges, CleanEdge edge) :
    Clean (buildGraphMarkdown nodes edges) := by
  have hentry : ∀ entry ∈ graphEntries nodes edges, Clean (entry.1 ++ ':' :: ' ' :: entry.2) := by
    intro entry hentry
    obtain ⟨hkey, hvalue⟩ := clean_graphEntries hedges entry hentry
    exact hkey.fence ": ".toList hvalue (by decide) (by decide)
  have hedgeLines : Clean (edges.flatMap fun edge => "- ".toList ++ edge.id.value ++ ": ".toList ++
      edge.source.value ++ " -> [[".toList ++ edge.linkTarget ++ "]]\n".toList) := by
    have hlines := Clean.flatMap_lines (fun edge hedge => clean_edgeLink (hedges edge hedge)) .nil
    rw [append_nil] at hlines
    refine (congrArg Clean (flatMap_congr fun edge _ => ?_)).mp hlines
    rw [append_assoc _ _ ['\n']]
    rfl
  have hedgesTitle : Clean ("## Edges".toList ++ (['\n'] ++ edges.flatMap fun edge =>
      "- ".toList ++ edge.id.value ++ ": ".toList ++ edge.source.value ++ " -> [[".toList ++
        edge.linkTarget ++ "]]\n".toList)) := by
    have htitle : Clean "## Edges".toList := by decide
    exact htitle.fence ['\n'] hedgeLines (by decide) (by decide)
  have hnodeLines := Clean.flatMap_lines (fun node hnode => clean_nodeLink (hnodes node hnode))
    (hedgesTitle.after ['\n'] (by decide) (by decide))
  have htitle : Clean "---\n\n# Bran Graph Representation\n\n## Nodes (wikilinks)".toList := by
    decide
  have hnodesTitle := htitle.fence ['\n'] hnodeLines (by decide) (by decide)
  have hall := (Clean.flatMap_lines hentry hnodesTitle).after "---\n".toList (by decide) (by decide)
  refine (congrArg Clean ?_).mp hall
  simp [buildGraphMarkdown]

/-! ## Bundles -/

/-- What holds of the bundle that an export returns. -/
structure ContainedBundle (nodes : List ExportNode) (edges : List ExportEdge)
    (bundle : ObsidianBundle) : Prop where
  paths : bundle.docs.keys.Perm (nodes.map ExportNode.path ++ [graphPath])
  relative : ∀ path ∈ bundle.docs.keys, RootRelative path
  links : ∀ node ∈ nodes, ∃ (text : Str) (before : List Str) (outs : List ExportEdge),
    bundle.docs.find? node.path = some text ∧
    outs.Perm (edges.filter fun edge => edge.source = node.id) ∧
    lines text = before ++ outs.map wikilink
  clean : ∀ text ∈ bundle.docs.values, ∀ word ∈ forbiddenWords, ¬ word <:+: text

theorem containedBundle {nodes : List ExportNode} {edges : List ExportEdge}
    (h : Exportable nodes edges) :
    ContainedBundle nodes edges ⟨OrdMap.ofList (bundleEntries nodes edges)⟩ := by
  have hnodes : (sortBy ExportNode.path nodes).Perm nodes := sortBy_perm _ _
  have hedges : (sortBy ExportEdge.id edges).Perm edges := sortBy_perm _ _
  have hemitted : ∀ edge ∈ sortBy ExportEdge.id edges, EmittedEdge edge := fun edge hedge =>
    (checkEdge_ok (h.checkedEdges edge (hedges.mem_iff.mp hedge))).1
  have hcleanNode : ∀ node ∈ sortBy ExportNode.path nodes, CleanNode node := fun node hnode =>
    (h.checkedNodes node (hnodes.mem_iff.mp hnode)).clean
  refine ⟨keys_bundle h, fun path hpath => ?_, fun node hnode => ?_, fun text htext => ?_⟩
  · rcases mem_append.mp ((keys_bundle h).mem_iff.mp hpath) with hpath | hpath
    · obtain ⟨node, hnode, rfl⟩ := mem_map.mp hpath
      exact rootRelative_of_validated (h.checkedNodes node hnode).path
    · obtain rfl := mem_singleton.mp hpath
      exact rootRelative_graphPath
  · obtain ⟨before, hlines⟩ := @lines_buildNodeMarkdown node _ hemitted
    refine ⟨_, before, outgoing node (sortBy ExportEdge.id edges), ?_, ?_, hlines⟩
    · refine (find?_ofList (nodup_bundleEntries h)).mpr (mem_append_left _ ?_)
      exact mem_map.mpr ⟨node, hnodes.mem_iff.mpr hnode, rfl⟩
    · exact (sortBy_perm _ _).trans (hedges.filter _)
  · have hentries := entries_ofList_perm (nodup_bundleEntries h)
    obtain ⟨entry, hentry, rfl⟩ := mem_map.mp htext
    rcases mem_append.mp (hentries.mem_iff.mp hentry) with hentry | hentry
    · obtain ⟨node, hnode, rfl⟩ := mem_map.mp hentry
      exact clean_buildNodeMarkdown (hcleanNode node hnode) fun edge hedge =>
        (hemitted edge hedge).clean
    · obtain rfl := mem_singleton.mp hentry
      exact clean_buildGraphMarkdown hcleanNode fun edge hedge => (hemitted edge hedge).clean

/-- An exported bundle does not depend on the order of the input, has the documents of the nodes and
of the graph below its root, links every outgoing edge and holds no word of the policy. -/
theorem export_independent_contained {nodes : List ExportNode} {edges : List ExportEdge}
    {bundle : ObsidianBundle} (h : exportToObsidian nodes edges = .ok bundle) :
    (∀ nodes' edges', nodes'.Perm nodes → edges'.Perm edges →
      ∃ bundle', exportToObsidian nodes' edges' = .ok bundle' ∧ bundle'.asBytes = bundle.asBytes) ∧
      ContainedBundle nodes edges bundle := by
  obtain ⟨hexportable, rfl⟩ := exportToObsidian_eq_ok_iff.mp h
  refine ⟨fun nodes' edges' hnodes hedges => ⟨_, ?_, rfl⟩, containedBundle hexportable⟩
  refine exportToObsidian_eq_ok_iff.mpr ⟨hexportable.perm hnodes hedges, ?_⟩
  rw [bundleEntries_eq_of_perm hexportable hnodes hedges]

def linkingNode : ExportNode := ⟨⟨['m'], by decide⟩, "notes/m.md".toList, .empty, "text".toList⟩

def titleLink : ExportEdge := ⟨⟨['e'], by decide⟩, ⟨['m'], by decide⟩, (titledNode []).id, ['n']⟩

/-- Two linked nodes are exported in either order. -/
theorem export_independent_contained_linked : ∃ bundle,
    exportToObsidian [titledNode ['a'], linkingNode] [titleLink] = .ok bundle ∧
      ∃ bundle', exportToObsidian [linkingNode, titledNode ['a']] [titleLink] = .ok bundle' ∧
        bundle'.asBytes = bundle.asBytes ∧
        ContainedBundle [titledNode ['a'], linkingNode] [titleLink] bundle := by
  have hexported : (exportToObsidian [titledNode ['a'], linkingNode] [titleLink]).toOption.isSome =
      true := by decide +kernel
  cases hbundle : exportToObsidian [titledNode ['a'], linkingNode] [titleLink] with
  | error error =>
      rw [hbundle] at hexported
      cases hexported
  | ok bundle =>
      obtain ⟨hindependent, hcontained⟩ := export_independent_contained hbundle
      obtain ⟨bundle', hbundle', hsame⟩ := hindependent [linkingNode, titledNode ['a']] [titleLink]
        (List.Perm.swap _ _ _) (List.Perm.refl _)
      exact ⟨bundle, rfl, bundle', hbundle', hsame, hcontained⟩

end Bran.Export
